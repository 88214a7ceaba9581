import SourceSlices.Proofs.SourceRuns
import SourceSlices.Proofs.StagingSuccess

/-!
What staging never touches. Of the rows that other batches wrote it moves only the marks of who has
seen them last, it changes no row of another file, and files and symbols keep their numbers and are
never removed. A request that fails changes nothing.
-/
namespace SourceSlices

/-- A row without the marks that later batches leave on it. -/
def Slice.unmarked (r : Slice) : Slice := { r with lastSeen := "", updatedAt := .epoch }

/-- What a file and a symbol are known by for ever. -/
def FileRow.key (row : FileRow) : Int × String := (row.id, row.info.path)

def SymbolRow.key (r : SymbolRow) : Int × Int × String × String :=
  (r.id, r.fileId, r.path, r.firstSeen)

namespace Store

variable {s t u : Store} {batch : String}

/-- The rows that other batches wrote, in the order of their numbers and without those marks. -/
def foreign (s : Store) (batch : String) : List Slice :=
  (s.slices.filter (·.batchId ≠ batch)).map Slice.unmarked

def fileKeys (s : Store) : List (Int × String) := s.files.map FileRow.key

def symbolKeys (s : Store) : List (Int × Int × String × String) := s.symbols.map SymbolRow.key

def recordsBut (s : Store) (path : String) : List FileRow := s.files.filter (·.info.path ≠ path)

/-! ### Rows of other batches -/

theorem foreign_congr (same : t.slices = s.slices) (batch : String) :
    t.foreign batch = s.foreign batch := by
  simp only [foreign, same]

/-- A change of marks, or of rows of the batch itself. -/
theorem foreign_map {change : Slice → Slice} (same : t.slices = s.slices.map change)
    (keeps : ∀ r, (change r).batchId = r.batchId ∧
      (r.batchId ≠ batch → (change r).unmarked = r.unmarked)) :
    t.foreign batch = s.foreign batch := by
  simp only [foreign, same, List.filter_map, List.map_map, Function.comp_def, (keeps _).1]
  refine List.map_congr_left fun r mem => (keeps r).2 ?_
  exact of_decide_eq_true (List.mem_filter.1 mem).2

theorem foreign_confirm (s : Store) (ids : List Int) (owner : String) (now : Instant)
    (batch : String) : (s.confirm ids owner now).foreign batch = s.foreign batch :=
  foreign_map rfl fun r => by split <;> exact ⟨rfl, fun _ => rfl⟩

theorem foreign_dropParts (s : Store) (batch : String) (fileId : Int) (chunkId : String)
    (total : Int) : (s.dropParts batch fileId chunkId total).foreign batch = s.foreign batch := by
  simp only [foreign, dropParts, List.filter_filter]
  congr 1
  refine List.filter_congr fun r _ => ?_
  by_cases own : r.batchId = batch <;> simp [own]

theorem foreign_putSlice {c : Slice} (done : s.putSlice c = .ok t) :
    t.foreign c.batchId = s.foreign c.batchId := by
  obtain ⟨-, ⟨-, rfl⟩ | ⟨-, rfl⟩⟩ := putSlice_cases done
  · refine foreign_map rfl fun r => ?_
    split
    · rename_i own
      exact ⟨rfl, fun other => absurd own.1 other⟩
    · exact ⟨rfl, fun _ => rfl⟩
  · simp [foreign, List.filter_append]

/-! ### Records of files -/

theorem fileKeys_upsertFile {f : FileInfo} {id : Int} (done : s.upsertFile f = .ok (t, id)) :
    s.fileKeys <+: t.fileKeys := by
  unfold upsertFile at done
  split at done
  · split at done
    · cases done
      have same (row : FileRow) :
          (if row.info.path = f.path then { row with info := f } else row).key = row.key := by
        split
        · rename_i path
          simp [FileRow.key, path]
        · rfl
      simp [fileKeys, Function.comp_def, same]
    · cases done
      simp [fileKeys]
  · cases done

theorem recordsBut_upsertFile {f : FileInfo} {id : Int} (done : s.upsertFile f = .ok (t, id)) :
    t.recordsBut f.path = s.recordsBut f.path := by
  unfold upsertFile at done
  split at done
  · split at done
    · cases done
      have path (row : FileRow) :
          (if row.info.path = f.path then { row with info := f } else row).info.path =
            row.info.path := by
        split
        · rename_i same
          exact same.symm
        · rfl
      simp only [recordsBut, List.filter_map, Function.comp_def, path]
      refine (List.map_congr_left fun row mem => ?_).trans (List.map_id _)
      exact if_neg (of_decide_eq_true (List.mem_filter.1 mem).2)
    · cases done
      simp [recordsBut]
  · cases done

/-! ### Symbols -/

theorem symbolKeys_changeSymbol (s : Store) (id : Int) (change : SymbolRow → SymbolRow)
    (keeps : ∀ r, (change r).key = r.key) : (s.changeSymbol id change).symbolKeys = s.symbolKeys := by
  simp only [symbolKeys, changeSymbol, List.map_map]
  refine List.map_congr_left fun r _ => ?_
  simp only [Function.comp_apply]
  split
  · exact keeps r
  · rfl

theorem symbolKeys_insertSymbol (s : Store) (r : SymbolRow) :
    s.symbolKeys <+: (s.insertSymbol r).1.symbolKeys := by
  simp [symbolKeys, insertSymbol]

/-- What a call under a batch for one path leaves of the store. -/
structure Appends (batch path : String) (s t : Store) : Prop where
  foreign : t.foreign batch = s.foreign batch
  records : t.recordsBut path = s.recordsBut path
  slices : ∀ row ∈ s.recordsBut path, ∀ r : Slice, r.content.fileId = row.id →
    (r ∈ t.slices ↔ r ∈ s.slices)
  symbols : ∀ row ∈ s.recordsBut path, t.symbolsOf row.id = s.symbolsOf row.id
  fileKeys : s.fileKeys <+: t.fileKeys
  symbolKeys : s.symbolKeys <+: t.symbolKeys

theorem Appends.refl (batch path : String) (s : Store) : Appends batch path s s where
  foreign := rfl
  records := rfl
  slices _ _ _ _ := Iff.rfl
  symbols _ _ := rfl
  fileKeys := List.prefix_rfl
  symbolKeys := List.prefix_rfl

end Store

namespace Staging

open Store

variable {q : StageRequest} {now : Instant} {fileId : Int} {ids : SymbolIds} {s t : Store}
  {o o' : StageOutcome}

theorem foreign_putAll {contents : List SliceContent} {batch first : String}
    (done : putAll s (contents.map (freshRow batch first now)) = .ok t) :
    t.foreign batch = s.foreign batch := by
  induction contents generalizing s with
  | nil =>
    cases done
    rfl
  | cons c rest ih =>
    obtain ⟨u, put, others⟩ := putAll_cons_iff.1 done
    exact (ih others).trans (foreign_putSlice put)

theorem foreign_writeChunks {groups : List ChunkGroup}
    (done : writeChunks q now fileId ids groups s o = .ok (t, o')) :
    t.foreign q.batchId = s.foreign q.batchId := by
  induction groups generalizing s o with
  | nil =>
    cases done
    rfl
  | cons g rest ih =>
    simp only [writeChunks, bind_ok_iff] at done
    obtain ⟨⟨u, o1⟩, written, others⟩ := done
    refine (ih others).trans ?_
    obtain ⟨-, contents, -, ⟨rows, -, rfl⟩ | ⟨-, first, put⟩⟩ := writeChunk_cases written
    · exact foreign_confirm s _ q.batchId now q.batchId
    · exact (foreign_putAll put).trans (foreign_dropParts s q.batchId fileId g.chunkId _)

theorem symbolKeys_writeSymbols {symbols : List Symbol}
    (done : writeSymbols q fileId symbols s o = .ok (t, o', ids)) : s.symbolKeys <+: t.symbolKeys := by
  induction symbols generalizing s o t o' ids with
  | nil =>
    cases done
    exact List.prefix_rfl
  | cons y rest ih =>
    simp only [writeSymbols, bind_ok_iff] at done
    obtain ⟨⟨s1, o1, id⟩, first, ⟨s2, o2, more⟩, others, eq⟩ := done
    cases eq
    refine List.IsPrefix.trans ?_ (ih others)
    obtain ⟨content, -, write⟩ := writeSymbol_cases first
    cases write with
    | confirm old found same =>
      have kept := symbolKeys_changeSymbol s old.id (fun r => { r with lastSeen := q.batchId })
        fun _ => rfl
      exact kept ▸ List.prefix_rfl
    | change old found differs =>
      have kept := symbolKeys_changeSymbol s old.id
        (fun r => { r with content, lastSeen := q.batchId }) fun _ => rfl
      exact kept ▸ List.prefix_rfl
    | insert missing => exact symbolKeys_insertSymbol s _

theorem symbolKeys_linkParents {symbols : List Symbol} (done : linkParents ids symbols s = .ok t) :
    t.symbolKeys = s.symbolKeys := by
  induction symbols generalizing s with
  | nil =>
    cases done
    rfl
  | cons y rest ih =>
    simp only [linkParents, bind_ok_iff] at done
    obtain ⟨parent, -, done⟩ := done
    split at done
    · rename_i e _
      exact (ih done).trans (symbolKeys_changeSymbol s e.2 (fun r => { r with parentId := parent })
        fun _ => rfl)
    · exact ih done

theorem stage_number_other (regular : s.Regular) (done : stage s now q = .ok (t, o)) {row : FileRow}
    (mem : row ∈ t.files) (away : row.info.path ≠ repoPath q) : row.id ≠ o.fileId := by
  intro same
  have numbered := numbered_stage regular.sound regular.numbered done
  obtain ⟨own, found, number⟩ := Option.map_eq_some_iff.1 (stage_fileId regular.sound done)
  obtain ⟨there, here⟩ := path_of_file found
  obtain rfl := List.inj_on_of_nodup_map numbered mem there (same.trans number.symm)
  exact away here

theorem appends_of_stage (regular : s.Regular) (done : stage s now q = .ok (t, o)) :
    Appends q.batchId (repoPath q) s t := by
  obtain ⟨groups, s1, fileId, s2, o2, ids, s3, -, ⟨f, ⟨path, -⟩, file⟩, symbols, links, chunks⟩ :=
    stage_steps done
  obtain ⟨-, symbols1, slices1, -⟩ := upsertFile_tables file
  have same2 := (writeSymbols_rows symbols).1
  have same3 := (linkParents_rows links).1
  have same4 := (writeChunks_tables chunks).1
  -- Only recording the file touches the files, and only writing the chunks touches the slices.
  have files : t.files = s1.files := same4.files.trans (same3.files.trans same2.files)
  have records : t.recordsBut (repoPath q) = s.recordsBut (repoPath q) := by
    rw [← path, ← recordsBut_upsertFile file]
    simp only [recordsBut, files]
  have elsewhere (row : FileRow) (mem : row ∈ s.recordsBut (repoPath q)) : SameFile s t row.id := by
    obtain ⟨there, away⟩ := List.mem_filter.1 (records ▸ mem)
    exact stage_elsewhere regular.sound done
      (stage_number_other regular done there (of_decide_eq_true away))
  constructor
  · rw [foreign_writeChunks chunks]
    exact foreign_congr (same3.slices.trans (same2.slices.trans slices1)) q.batchId
  · exact records
  · intro row mem r own
    have same := (elsewhere row mem).slices r.slot own
    have here (u : Store) : r ∈ u.slices ↔ r ∈ u.rowsAt r.slot := by simp [mem_rowsAt]
    rw [here t, here s, same]
  · exact fun row mem => (elsewhere row mem).symbols
  · simp only [fileKeys, files]
    exact fileKeys_upsertFile file
  · have before : s1.symbolKeys = s.symbolKeys := by simp only [symbolKeys, symbols1]
    have after : t.symbolKeys = s3.symbolKeys := by simp only [symbolKeys, same4.symbols]
    rw [after, symbolKeys_linkParents links, ← before]
    exact symbolKeys_writeSymbols symbols

end Staging

namespace Ledger

open Staging

/-- History is append-only. Whatever a store holds, a staging under a batch leaves the rows of all
other batches but for the marks of who saw them last, every row of every other file, and the numbers
of all files and symbols, whether or not it succeeds. -/
theorem history_is_append_only (l : Ledger) (regular : l.store.Regular) (now : Instant)
    (q : StageRequest) :
    Store.Appends q.batchId (repoPath q) l.store (l.step (.stage now q)).store := by
  cases done : stage l.store now q with
  | ok result =>
    obtain ⟨t, o⟩ := result
    simp only [step, done]
    exact appends_of_stage regular done
  | error e =>
    simp only [step, done]
    exact .refl _ _ _

/-- A third text after two under other batches. -/
theorem appended_third_text : ∃ l, l = after (bothBatches ["one"] ["two"]) ∧ l.store.Regular ∧
    Store.Appends "b1" "notes.txt" l.store
      (l.step (.stage .epoch (ofTexts "b1" ["three"]))).store := by
  have regular : (after (bothBatches ["one"] ["two"])).store.Regular :=
    ⟨sound_after _, numbered_after _⟩
  have path : repoPath (ofTexts "b1" ["three"]) = "notes.txt" := by decide
  exact ⟨_, rfl, regular,
    path ▸ history_is_append_only _ regular .epoch (ofTexts "b1" ["three"])⟩

end Ledger

end SourceSlices
