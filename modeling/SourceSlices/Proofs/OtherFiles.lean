import SourceSlices.Proofs.BatchView
import SourceSlices.Proofs.StagingEffect

/-!
Staging one file and the rows of the others. No two files share a number, and staging changes neither
the record nor the symbols nor the slices of any other file, whatever the result says.
-/
namespace SourceSlices

namespace Store

variable {s t u : Store} {fileId : Int} {f : FileInfo}

/-! ### Numbers of files -/

/-- No number stands for two files. -/
def Numbered (s : Store) : Prop := (s.files.map (·.id)).Nodup

theorem numbered_upsertFile {id : Int} (sound : s.Sound) (numbered : s.Numbered)
    (done : s.upsertFile f = .ok (t, id)) : t.Numbered := by
  unfold upsertFile at done
  split at done
  · cases found : s.fileId? f.path with
    | some old =>
      simp only [found, Except.ok.injEq, Prod.mk.injEq] at done
      obtain ⟨rfl, -⟩ := done
      have ids (row : FileRow) : (if row.info.path = f.path then { row with info := f } else row).id =
          row.id := by
        split <;> rfl
      simpa only [Numbered, List.map_map, Function.comp_def, ids] using numbered
    | none =>
      simp only [found, Except.ok.injEq, Prod.mk.injEq] at done
      obtain ⟨rfl, -⟩ := done
      simp only [Numbered, List.map_append, List.map_cons, List.map_nil]
      refine List.nodup_append.2 ⟨numbered, List.nodup_singleton _, fun a ha b hb => ?_⟩
      obtain ⟨row, mem, rfl⟩ := List.mem_map.1 ha
      have := sound.fileNumbers row mem
      rw [List.mem_singleton] at hb
      omega
  · cases done

theorem path_of_file {path : String} {row : FileRow} (found : s.file? path = some row) :
    row ∈ s.files ∧ row.info.path = path :=
  ⟨List.mem_of_find?_eq_some found, by simpa using List.find?_some found⟩

theorem path_unique (numbered : s.Numbered) {path path' : String}
    (own : s.fileId? path = some fileId) (other : s.fileId? path' = some fileId) : path = path' := by
  obtain ⟨row, found, same⟩ := Option.map_eq_some_iff.1 own
  obtain ⟨row', found', same'⟩ := Option.map_eq_some_iff.1 other
  obtain ⟨mem, here⟩ := path_of_file found
  obtain ⟨mem', here'⟩ := path_of_file found'
  obtain rfl := List.inj_on_of_nodup_map numbered mem mem' (same.trans same'.symm)
  exact here.symm.trans here'

/-- Recording a file changes no other record. -/
theorem upsertFile_other {id : Int} (done : s.upsertFile f = .ok (t, id)) {path : String}
    (other : path ≠ f.path) : t.file? path = s.file? path := by
  unfold upsertFile at done
  split at done
  · cases found : s.fileId? f.path with
    | some old =>
      simp only [found, Except.ok.injEq, Prod.mk.injEq] at done
      obtain ⟨rfl, -⟩ := done
      have paths (row : FileRow) :
          (if row.info.path = f.path then { row with info := f } else row).info.path =
            row.info.path := by
        split
        · rename_i same
          exact same.symm
        · rfl
      simp only [file?, List.find?_map, Function.comp_def, paths]
      cases there : s.files.find? fun row => decide (row.info.path = path) with
      | none => rfl
      | some row =>
        have here : row.info.path = path := by simpa using List.find?_some there
        rw [Option.map_some, if_neg fun same => other (here.symm.trans same)]
    | none =>
      simp only [found, Except.ok.injEq, Prod.mk.injEq] at done
      obtain ⟨rfl, -⟩ := done
      simp [file?, List.find?_append, Ne.symm other]
  · cases done

/-! ### Rows of one file -/

/-- Two stores hold the same slices and the same symbols of a file. -/
structure SameFile (s t : Store) (fileId : Int) : Prop where
  slices : ∀ x : Slot, x.1 = fileId → t.rowsAt x = s.rowsAt x
  symbols : t.symbolsOf fileId = s.symbolsOf fileId

theorem SameFile.of_tables (slices : t.slices = s.slices) (symbols : t.symbols = s.symbols)
    (fileId : Int) : SameFile s t fileId :=
  ⟨fun x _ => rowsAt_congr slices x, by rw [symbolsOf, symbolsOf, symbols]⟩

theorem SameFile.trans (first : SameFile s t fileId) (second : SameFile t u fileId) :
    SameFile s u fileId :=
  ⟨fun x here => (second.slices x here).trans (first.slices x here),
    second.symbols.trans first.symbols⟩

theorem SameFile.fileSlices (same : SameFile s t fileId) (sound : s.Sound) (soundT : t.Sound)
    (batch : String) : t.fileSlices batch fileId = s.fileSlices batch fileId := by
  refine fileSlices_congr sound soundT fun x here => ?_
  rw [shown?, shown?, same.slices x here]

/-- A change of a symbol of one file leaves the symbols of the others. -/
theorem symbolsOf_changeSymbol (sound : s.Sound) {id : Int} {path : String}
    (row : s.symbolId? fileId path = some id) (change : SymbolRow → SymbolRow)
    (keeps : KeepsKeys change) {other : Int} (away : other ≠ fileId) :
    (s.changeSymbol id change).symbolsOf other = s.symbolsOf other := by
  obtain ⟨old, found, rfl⟩ := Option.map_eq_some_iff.1 row
  have mem := List.mem_of_find?_eq_some found
  obtain ⟨own, -⟩ : old.fileId = fileId ∧ old.path = path := by simpa using List.find?_some found
  have distinct : (s.symbols.map (·.id)).Nodup :=
    List.pairwise_map.2 (sound.symbolOrder.imp Int.ne_of_lt)
  have files (r : SymbolRow) : (if r.id = old.id then change r else r).fileId = r.fileId := by
    split
    · exact (keeps r).2.1
    · rfl
  simp only [symbolsOf, changeSymbol, List.filter_map, Function.comp_def, files]
  refine (List.map_congr_left fun r there => ?_).trans (List.map_id _)
  obtain ⟨inside, here⟩ := List.mem_filter.1 there
  rw [if_neg]
  · rfl
  · intro same
    rw [List.inj_on_of_nodup_map distinct inside mem same] at here
    exact away ((of_decide_eq_true here).symm.trans own)

theorem symbolsOf_insertSymbol (s : Store) {r : SymbolRow} {other : Int} (away : other ≠ r.fileId) :
    (s.insertSymbol r).1.symbolsOf other = s.symbolsOf other := by
  simp [symbolsOf, insertSymbol, away.symm]

end Store

namespace Staging

open Store

variable {q : StageRequest} {now : Instant} {fileId other : Int} {ids : SymbolIds} {s t : Store}
  {o o' : StageOutcome}

theorem writeSymbol_elsewhere {y : Symbol} {id : Int} (sound : s.Sound)
    (done : writeSymbol q fileId s o y = .ok (t, o', id)) (away : other ≠ fileId) :
    SameFile s t other := by
  refine ⟨fun x _ => rowsAt_congr (writeSymbol_rows done).1.slices x, ?_⟩
  have row {old : SymbolRow} (found : s.symbol? fileId y.symbolId = some old) :
      s.symbolId? fileId y.symbolId = some old.id := by simp [symbolId?, found]
  obtain ⟨content, -, write⟩ := writeSymbol_cases done
  cases write with
  | confirm old found same =>
    exact symbolsOf_changeSymbol sound (row found) (fun r => { r with lastSeen := q.batchId })
      (fun r => ⟨rfl, rfl, rfl⟩) away
  | change old found differs =>
    exact symbolsOf_changeSymbol sound (row found) (fun r => { r with content, lastSeen := q.batchId })
      (fun r => ⟨rfl, rfl, rfl⟩) away
  | insert missing => exact symbolsOf_insertSymbol s away

theorem writeSymbols_elsewhere {symbols : List Symbol} (sound : s.Sound)
    (done : writeSymbols q fileId symbols s o = .ok (t, o', ids)) (away : other ≠ fileId) :
    SameFile s t other := by
  induction symbols generalizing s o t o' ids with
  | nil =>
    cases done
    exact .of_tables rfl rfl other
  | cons y rest ih =>
    simp only [writeSymbols, bind_ok_iff] at done
    obtain ⟨⟨s1, o1, id⟩, first, ⟨s2, o2, more⟩, others, eq⟩ := done
    cases eq
    exact (writeSymbol_elsewhere sound first away).trans
      (ih (sound_writeSymbol sound first) others)

theorem linkParents_elsewhere {symbols : List Symbol} (sound : s.Sound) (own : Own s fileId ids)
    (done : linkParents ids symbols s = .ok t) (away : other ≠ fileId) : SameFile s t other := by
  induction symbols generalizing s with
  | nil =>
    cases done
    exact .of_tables rfl rfl other
  | cons y rest ih =>
    simp only [linkParents, bind_ok_iff] at done
    obtain ⟨parent, -, done⟩ := done
    split at done
    · rename_i e found
      have row := own e (List.mem_of_find?_eq_some found)
      have keeps : KeepsKeys fun r => { r with parentId := parent } := fun r => ⟨rfl, rfl, rfl⟩
      obtain ⟨linked, tables, rows⟩ := changeSymbol_spec sound e.2 _ keeps
      refine SameFile.trans ⟨fun x _ => rowsAt_congr tables.slices x,
        symbolsOf_changeSymbol sound row _ keeps away⟩ (ih linked (fun e' mem => ?_) done)
      exact (rows fileId e'.1).trans (own e' mem)
    · exact ih sound own done

theorem putAll_elsewhere {rows : List Slice} (done : putAll s rows = .ok t) {x : Slot}
    (away : ∀ c ∈ rows, x ≠ c.slot) : t.rowsAt x = s.rowsAt x := by
  induction rows generalizing s with
  | nil =>
    cases done
    rfl
  | cons c rest ih =>
    obtain ⟨u, put, others⟩ := putAll_cons_iff.1 done
    rw [ih others fun d mem => away d (List.mem_cons_of_mem _ mem)]
    exact rowsAt_putSlice_other put (away c List.mem_cons_self)

theorem writeChunk_elsewhere {g : ChunkGroup} (sound : s.Sound)
    (done : writeChunk q now fileId ids s o g = .ok (t, o')) (away : other ≠ fileId) :
    SameFile s t other := by
  have symbols := (writeChunk_tables done).1.symbols
  refine ⟨fun x here => ?_, by rw [symbolsOf, symbolsOf, symbols]⟩
  obtain ⟨-, contents, made, ⟨rows, found, rfl⟩ | ⟨-, first, put⟩⟩ := writeChunk_cases done
  · refine confirm_others sound found q.batchId now fun i _ same => away ?_
    exact here.symm.trans (congrArg Prod.fst same)
  · rw [putAll_elsewhere put, rowsAt_dropParts, if_neg fun both => away (here.symm.trans both.1)]
    intro row mem same
    obtain ⟨c, inside, rfl⟩ := List.mem_map.1 mem
    have there : Except.ok c ∈ g.parts.map (sliceContent q fileId ids) :=
      made ▸ List.mem_map_of_mem inside
    obtain ⟨p, -, done⟩ := List.mem_map.1 there
    obtain ⟨slot, -⟩ := sliceContent_columns done
    have file : x.1 = fileId := by
      rw [same]
      exact congrArg Prod.fst slot
    exact away (here.symm.trans file)

theorem writeChunks_elsewhere {groups : List ChunkGroup} (sound : s.Sound)
    (done : writeChunks q now fileId ids groups s o = .ok (t, o')) (away : other ≠ fileId) :
    SameFile s t other := by
  induction groups generalizing s o with
  | nil =>
    cases done
    exact .of_tables rfl rfl other
  | cons g rest ih =>
    simp only [writeChunks, bind_ok_iff] at done
    obtain ⟨⟨u, o1⟩, first, others⟩ := done
    exact (writeChunk_elsewhere sound first away).trans (ih (sound_writeChunk sound first) others)

theorem stage_elsewhere (sound : s.Sound) (done : stage s now q = .ok (t, o))
    (away : other ≠ o.fileId) : SameFile s t other := by
  obtain ⟨groups, s1, fileId, s2, o2, ids, s3, -, ⟨f, -, file⟩, symbols, links, chunks⟩ :=
    stage_steps done
  obtain ⟨sound1, -, symbols1, slices1, -⟩ := upsertFile_spec sound file
  obtain ⟨sound2, -, -, file2, rows, -⟩ := writeSymbols_spec sound1 symbols
  have same : o.fileId = fileId := (writeChunks_tables chunks).2.trans file2
  rw [same] at away
  exact (((SameFile.of_tables slices1 symbols1 other).trans
    (writeSymbols_elsewhere sound1 symbols away)).trans
    (linkParents_elsewhere sound2 (rows ▸ own_symbolRows s2 fileId _) links away)).trans
    (writeChunks_elsewhere (linkParents_spec sound2 links).1 chunks away)

theorem stage_other (sound : s.Sound) (done : stage s now q = .ok (t, o)) {path : String}
    (away : path ≠ repoPath q) : t.file? path = s.file? path := by
  obtain ⟨f, u, ⟨same, -⟩, file, -, files⟩ := stage_file sound done
  rw [← upsertFile_other file (same ▸ away)]
  simp only [file?, files]

theorem numbered_stage (sound : s.Sound) (numbered : s.Numbered)
    (done : stage s now q = .ok (t, o)) : t.Numbered := by
  obtain ⟨f, u, -, file, -, files⟩ := stage_file sound done
  rw [Numbered, files]
  exact numbered_upsertFile sound numbered file

theorem stage_apart (sound : s.Sound) (numbered : s.Numbered) (done : stage s now q = .ok (t, o))
    {path : String} {id : Int} (away : path ≠ repoPath q) (known : s.fileId? path = some id) :
    t.fileId? path = some id ∧ SameFile s t id := by
  have kept : t.fileId? path = some id := by
    rw [fileId?, stage_other sound done away]
    exact known
  refine ⟨kept, stage_elsewhere sound done fun same => away ?_⟩
  exact path_unique (numbered_stage sound numbered done) kept (same ▸ stage_fileId sound done)

end Staging

namespace Ledger

theorem files_dropBatch (s : Store) (batch : String) : (s.dropBatch batch).1.files = s.files := by
  unfold Store.dropBatch
  split <;> rfl

theorem files_ensureBatch (s : Store) (b : Batch) : (s.ensureBatch b).files = s.files := by
  unfold Store.ensureBatch
  split <;> rfl

/-- No history gives a number to two files. -/
theorem numbered_after (calls : List Call) : (after calls).store.Numbered := by
  suffices both : (after calls).store.Sound ∧ (after calls).store.Numbered from both.2
  refine after_induction (P := fun l => l.store.Sound ∧ l.store.Numbered) ?_ ?_ calls
  · exact ⟨Store.sound_empty, List.nodup_nil⟩
  · rintro l c ⟨sound, numbered⟩
    refine ⟨sound_step sound c, ?_⟩
    cases c with
    | ensureBatch b => simpa only [Store.Numbered, step, files_ensureBatch] using numbered
    | dropBatch b => simpa only [Store.Numbered, step, files_dropBatch] using numbered
    | stage now q =>
      simp only [step]
      split
      · rename_i done
        exact Staging.numbered_stage sound numbered done
      · exact numbered
    | deleteSlices b => exact numbered

end Ledger

end SourceSlices
