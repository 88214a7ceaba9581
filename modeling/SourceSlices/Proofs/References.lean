import SourceSlices.Proofs.SourceRuns
import SourceSlices.Proofs.StagingConditions

/-!
References between the tables. A symbol names a file and possibly a parent, a slice names up to two
symbols; the rows that they name are there, and every statement of a staging keeps it so.
-/
namespace SourceSlices

namespace Store

variable {s t : Store}

/-- What the references of the tables guarantee, besides `Sound`: each names a row that is there. -/
structure Referenced (s : Store) : Prop where
  symbolFiles : ∀ r ∈ s.symbols, ∃ f ∈ s.files, f.id = r.fileId
  parents : ∀ r ∈ s.symbols, s.HoldsSymbol r.parentId
  owners : ∀ r ∈ s.slices, s.HoldsSymbol r.content.symbolId
  delegating : ∀ r ∈ s.slices, s.HoldsSymbol r.content.parentSymbolId

theorem referenced_empty : empty.Referenced := by
  constructor <;> exact fun r mem => by cases mem

theorem Referenced.of_tables (referenced : s.Referenced) (symbols : t.symbols = s.symbols)
    (slices : t.slices = s.slices) (files : ∀ f ∈ s.files, ∃ g ∈ t.files, g.id = f.id) :
    t.Referenced := by
  have holds {id : Option Int} (there : s.HoldsSymbol id) : t.HoldsSymbol id := by
    simpa only [HoldsSymbol, symbols] using there
  constructor
  · intro r mem
    obtain ⟨f, there, own⟩ := referenced.symbolFiles r (symbols ▸ mem)
    obtain ⟨g, here, same⟩ := files f there
    exact ⟨g, here, same.trans own⟩
  · exact fun r mem => holds (referenced.parents r (symbols ▸ mem))
  · exact fun r mem => holds (referenced.owners r (slices ▸ mem))
  · exact fun r mem => holds (referenced.delegating r (slices ▸ mem))

theorem referenced_ensureBatch (referenced : s.Referenced) (b : Batch) :
    (s.ensureBatch b).Referenced :=
  referenced.of_tables (by unfold ensureBatch; split <;> rfl) (slices_ensureBatch s b)
    fun f mem => ⟨f, by rwa [Ledger.files_ensureBatch], rfl⟩

theorem referenced_dropBatch (referenced : s.Referenced) (b : String) :
    (s.dropBatch b).1.Referenced :=
  referenced.of_tables (by unfold dropBatch; split <;> rfl) (slices_dropBatch s b)
    fun f mem => ⟨f, by rwa [Ledger.files_dropBatch], rfl⟩

theorem referenced_upsertFile {f : FileInfo} {id : Int} (referenced : s.Referenced)
    (done : s.upsertFile f = .ok (t, id)) : t.Referenced := by
  obtain ⟨-, symbols, slices, -⟩ := upsertFile_tables done
  exact referenced.of_tables symbols slices fun row mem => upsertFile_keeps done mem

theorem referenced_slices (referenced : s.Referenced) {rows : List Slice} {last : Int}
    (owners : ∀ r ∈ rows, s.HoldsSymbol r.content.symbolId ∧ s.HoldsSymbol r.content.parentSymbolId) :
    Referenced { s with slices := rows, lastSlice := last } :=
  ⟨referenced.symbolFiles, referenced.parents, fun r mem => (owners r mem).1,
    fun r mem => (owners r mem).2⟩

theorem referenced_filterSlices (referenced : s.Referenced) (p : Slice → Bool) :
    Referenced { s with slices := s.slices.filter p } :=
  referenced_slices referenced fun r mem =>
    ⟨referenced.owners r (List.mem_filter.1 mem).1, referenced.delegating r (List.mem_filter.1 mem).1⟩

theorem referenced_confirm (referenced : s.Referenced) (ids : List Int) (batch : String)
    (now : Instant) : (s.confirm ids batch now).Referenced := by
  refine referenced_slices referenced fun r mem => ?_
  obtain ⟨old, there, rfl⟩ := List.mem_map.1 mem
  have both := And.intro (referenced.owners old there) (referenced.delegating old there)
  split <;> exact both

theorem admissible_of_putSlice {c : Slice} (done : s.putSlice c = .ok t) :
    s.Admissible c.batchId c.content := by
  unfold putSlice at done
  split at done
  · rename_i admitted
    exact admits_iff.1 admitted
  · cases done

theorem referenced_putSlice {c : Slice} (referenced : s.Referenced) (done : s.putSlice c = .ok t) :
    t.Referenced := by
  have own := admissible_of_putSlice done
  have old (r : Slice) (mem : r ∈ s.slices) :=
    And.intro (referenced.owners r mem) (referenced.delegating r mem)
  obtain ⟨-, ⟨-, rfl⟩ | ⟨-, rfl⟩⟩ := putSlice_cases done
  · refine referenced_slices referenced fun r mem => ?_
    obtain ⟨row, there, rfl⟩ := List.mem_map.1 mem
    split
    · exact ⟨own.symbol, own.parent⟩
    · exact old row there
  · refine referenced_slices referenced fun r mem => ?_
    rcases List.mem_append.1 mem with before | new
    · exact old r before
    · obtain rfl := List.mem_singleton.1 new
      exact ⟨own.symbol, own.parent⟩

/-! ### Symbols -/

theorem holdsSymbol_changeSymbol {id : Int} {change : SymbolRow → SymbolRow} (keeps : KeepsKeys change)
    {key : Option Int} (there : s.HoldsSymbol key) : (s.changeSymbol id change).HoldsSymbol key := by
  intro i named
  obtain ⟨r, mem, rfl⟩ := there i named
  refine ⟨_, List.mem_map_of_mem mem, ?_⟩
  split
  · exact (keeps r).1
  · rfl

theorem referenced_changeSymbol (referenced : s.Referenced) (id : Int)
    {change : SymbolRow → SymbolRow} (keeps : KeepsKeys change)
    (linked : ∀ r ∈ s.symbols, s.HoldsSymbol (change r).parentId) :
    (s.changeSymbol id change).Referenced := by
  constructor
  · intro r mem
    obtain ⟨old, there, rfl⟩ := List.mem_map.1 mem
    obtain ⟨f, inside, own⟩ := referenced.symbolFiles old there
    refine ⟨f, inside, own.trans ?_⟩
    split
    · exact (keeps old).2.1.symm
    · rfl
  · intro r mem
    obtain ⟨old, there, rfl⟩ := List.mem_map.1 mem
    refine holdsSymbol_changeSymbol keeps ?_
    split
    · exact linked old there
    · exact referenced.parents old there
  · exact fun r mem => holdsSymbol_changeSymbol keeps (referenced.owners r mem)
  · exact fun r mem => holdsSymbol_changeSymbol keeps (referenced.delegating r mem)

theorem referenced_insertSymbol (referenced : s.Referenced) {r : SymbolRow}
    (file : ∃ f ∈ s.files, f.id = r.fileId) : (s.insertSymbol r).1.Referenced := by
  have holds {key : Option Int} (there : s.HoldsSymbol key) : (s.insertSymbol r).1.HoldsSymbol key := by
    intro i named
    obtain ⟨q, mem, same⟩ := there i named
    exact ⟨q, List.mem_append_left _ mem, same⟩
  constructor
  · intro q mem
    rcases List.mem_append.1 mem with old | new
    · exact referenced.symbolFiles q old
    · obtain rfl := List.mem_singleton.1 new
      exact file
  · intro q mem
    rcases List.mem_append.1 mem with old | new
    · exact holds (referenced.parents q old)
    · obtain rfl := List.mem_singleton.1 new
      exact fun i named => (by cases named)
  · exact fun q mem => holds (referenced.owners q mem)
  · exact fun q mem => holds (referenced.delegating q mem)

end Store

namespace Staging

open Store

variable {q : StageRequest} {now : Instant} {fileId : Int} {ids : SymbolIds} {s t : Store}
  {o o' : StageOutcome}

theorem referenced_writeSymbol {y : Symbol} {id : Int} (referenced : s.Referenced)
    (file : ∃ f ∈ s.files, f.id = fileId) (done : writeSymbol q fileId s o y = .ok (t, o', id)) :
    t.Referenced := by
  obtain ⟨content, -, write⟩ := writeSymbol_cases done
  cases write with
  | confirm old found same =>
    exact referenced_changeSymbol referenced old.id (fun r => ⟨rfl, rfl, rfl⟩) referenced.parents
  | change old found differs =>
    exact referenced_changeSymbol referenced old.id (fun r => ⟨rfl, rfl, rfl⟩) referenced.parents
  | insert missing => exact referenced_insertSymbol referenced file

theorem referenced_writeSymbols {symbols : List Symbol} (referenced : s.Referenced)
    (file : ∃ f ∈ s.files, f.id = fileId)
    (done : writeSymbols q fileId symbols s o = .ok (t, o', ids)) : t.Referenced := by
  induction symbols generalizing s o t o' ids with
  | nil =>
    cases done
    exact referenced
  | cons y rest ih =>
    simp only [writeSymbols, bind_ok_iff] at done
    obtain ⟨⟨s1, o1, id⟩, first, ⟨s2, o2, more⟩, others, eq⟩ := done
    cases eq
    exact ih (referenced_writeSymbol referenced file first)
      ((writeSymbol_rows first).1.files ▸ file) others

theorem referenced_linkParents {symbols : List Symbol} (referenced : s.Referenced)
    (own : Own s fileId ids) (done : linkParents ids symbols s = .ok t) : t.Referenced := by
  induction symbols generalizing s with
  | nil =>
    cases done
    exact referenced
  | cons y rest ih =>
    simp only [linkParents, bind_ok_iff] at done
    obtain ⟨parent, resolved, done⟩ := done
    split at done
    · rename_i e _
      have keeps : KeepsKeys fun r => { r with parentId := parent } := fun r => ⟨rfl, rfl, rfl⟩
      have linked : s.HoldsSymbol parent := by
        intro i named
        obtain ⟨e, mem, rfl⟩ := rowOf_mem resolved named
        exact mem_of_symbolId (own e mem)
      refine ih (referenced_changeSymbol referenced e.2 keeps fun _ _ => linked) (fun e' mem => ?_) done
      exact (symbolId_changeSymbol s e.2 keeps fileId e'.1).trans (own e' mem)
    · exact ih referenced own done

theorem referenced_putAll {rows : List Slice} (referenced : s.Referenced)
    (done : putAll s rows = .ok t) : t.Referenced := by
  induction rows generalizing s with
  | nil =>
    cases done
    exact referenced
  | cons c rest ih =>
    obtain ⟨u, put, others⟩ := putAll_cons_iff.1 done
    exact ih (referenced_putSlice referenced put) others

theorem referenced_writeChunks {groups : List ChunkGroup} (referenced : s.Referenced)
    (done : writeChunks q now fileId ids groups s o = .ok (t, o')) : t.Referenced := by
  induction groups generalizing s o with
  | nil =>
    cases done
    exact referenced
  | cons g rest ih =>
    simp only [writeChunks, bind_ok_iff] at done
    obtain ⟨⟨u, o1⟩, first, others⟩ := done
    refine ih ?_ others
    obtain ⟨-, contents, -, ⟨rows, -, rfl⟩ | ⟨-, first, put⟩⟩ := writeChunk_cases first
    · exact referenced_confirm referenced _ _ _
    · exact referenced_putAll (referenced_filterSlices referenced _) put

theorem referenced_stage (referenced : s.Referenced) (done : stage s now q = .ok (t, o)) :
    t.Referenced := by
  obtain ⟨groups, s1, fileId, s2, o2, ids, s3, -, ⟨f, -, file⟩, symbols, links, chunks⟩ :=
    stage_steps done
  obtain ⟨-, -, -, known⟩ := upsertFile_tables file
  have referenced2 := referenced_writeSymbols (referenced_upsertFile referenced file) known symbols
  obtain ⟨-, -, -, rows, -⟩ := writeSymbols_rows symbols
  exact referenced_writeChunks
    (referenced_linkParents referenced2 (rows ▸ own_symbolRows s2 fileId _) links) chunks

end Staging

namespace Ledger

theorem referenced_after (calls : List Call) : (after calls).store.Referenced := by
  refine after_induction (P := fun l => l.store.Referenced) Store.referenced_empty ?_ calls
  intro l c referenced
  cases c with
  | ensureBatch b => exact Store.referenced_ensureBatch referenced b
  | dropBatch b => exact Store.referenced_dropBatch referenced b
  | stage now q =>
    simp only [step]
    split
    · rename_i done
      exact Staging.referenced_stage referenced done
    · exact referenced
  | deleteSlices b => exact Store.referenced_filterSlices referenced _

end Ledger

namespace StagedBatch

variable {tree : FileTree} {now : Instant} {batch : String} {g : Progress}

theorem add_store (tree : FileTree) (now : Instant) (batch : String) (g : Progress) (x : ReadResult) :
    (g.add tree now batch x).store = g.store ∨
      ∃ q o, Staging.stage g.store now q = .ok ((g.add tree now batch x).store, o) := by
  obtain ⟨e, result⟩ := x
  unfold Progress.add
  dsimp only
  split
  · exact Or.inl rfl
  · split
    · rename_i done
      exact Or.inr ⟨_, _, done⟩
    · exact Or.inl rfl

theorem referenced_addAll (referenced : g.store.Referenced) (results : List ReadResult) :
    (addAll tree now batch g results).store.Referenced := by
  induction results generalizing g with
  | nil => exact referenced
  | cons x rest ih =>
    refine ih ?_
    rcases add_store tree now batch g x with same | ⟨q, o, done⟩
    · rw [same]
      exact referenced
    · exact Staging.referenced_stage referenced done

end StagedBatch

namespace Runner

theorem referenced_storeAfter (r : Runner) (passes : List Pass) : (r.storeAfter passes).Referenced := by
  induction passes using List.reverseRecOn with
  | nil => exact Store.referenced_empty
  | append_singleton before p ih =>
    rw [storeAfter_snoc]
    obtain ⟨same, -⟩ | ⟨-, b, start, opened, -, after, -⟩ :=
      next_cases (r := r) (s := r.storeAfter before) (p := p)
    · rw [same]
      exact ih
    · rw [after]
      exact StagedBatch.referenced_addAll (opened ▸ Store.referenced_ensureBatch ih b) _

end Runner

end SourceSlices
