import Mathlib.Data.List.Nodup
import SourceSlices.Store.Tables

/-!
The table of slices by slots. The rows of one slot are the versions of one part of a chunk, in the
order in which they were written. Each statement changes the rows of some slots and no others.
-/
namespace SourceSlices

/-- File, chunk and index of a part. -/
abbrev Slot := Int × String × Int

def SliceContent.slot (c : SliceContent) : Slot := (c.fileId, c.chunkId, c.partIndex)

theorem Slice.slot_eq (r : Slice) : r.slot = r.content.slot := rfl

namespace Store

def rowsAt (s : Store) (x : Slot) : List Slice := s.slices.filter (·.slot = x)

/-- What the keys of the tables guarantee: numbers ascend and have all been given, and the rows
that others refer to are there. -/
structure Sound (s : Store) : Prop where
  sliceOrder : s.slices.Pairwise (·.id < ·.id)
  sliceNumbers : ∀ r ∈ s.slices, r.id ≤ s.lastSlice
  sliceFiles : ∀ r ∈ s.slices, ∃ f ∈ s.files, f.id = r.content.fileId
  fileNumbers : ∀ f ∈ s.files, f.id ≤ s.lastFile
  symbolOrder : s.symbols.Pairwise (·.id < ·.id)
  symbolNumbers : ∀ r ∈ s.symbols, r.id ≤ s.lastSymbol

theorem mem_rowsAt {s : Store} {x : Slot} {r : Slice} :
    r ∈ s.rowsAt x ↔ r ∈ s.slices ∧ r.slot = x := by
  simp [rowsAt]

theorem rowsAt_congr {s t : Store} (same : t.slices = s.slices) (x : Slot) :
    t.rowsAt x = s.rowsAt x := by
  simp only [rowsAt, same]

theorem sound_empty : empty.Sound where
  sliceOrder := List.Pairwise.nil
  sliceNumbers := by simp [empty]
  sliceFiles := by simp [empty]
  fileNumbers := by simp [empty]
  symbolOrder := List.Pairwise.nil
  symbolNumbers := by simp [empty]

theorem rowsAt_ascending {s : Store} (sound : s.Sound) (x : Slot) :
    (s.rowsAt x).Pairwise (·.id < ·.id) :=
  sound.sliceOrder.filter _

theorem eq_of_same_id {s : Store} (sound : s.Sound) {a b : Slice} (ha : a ∈ s.slices)
    (hb : b ∈ s.slices) (same : a.id = b.id) : a = b := by
  have distinct : (s.slices.map (·.id)).Nodup :=
    List.pairwise_map.2 (sound.sliceOrder.imp Int.ne_of_lt)
  exact List.inj_on_of_nodup_map distinct ha hb same

/-! ### Statements about batches and files -/

theorem sound_ensureBatch {s : Store} (sound : s.Sound) (b : Batch) : (s.ensureBatch b).Sound := by
  unfold ensureBatch
  split <;> exact ⟨sound.1, sound.2, sound.3, sound.4, sound.5, sound.6⟩

theorem slices_ensureBatch (s : Store) (b : Batch) : (s.ensureBatch b).slices = s.slices := by
  unfold ensureBatch
  split <;> rfl

theorem hasBatch_ensureBatch (s : Store) (b : Batch) : (s.ensureBatch b).hasBatch b.id = true := by
  unfold ensureBatch
  split
  · rename_i known
    obtain ⟨old, mem, same⟩ := List.any_eq_true.1 known
    refine List.any_eq_true.2 ⟨_, List.mem_map_of_mem mem, ?_⟩
    simp only [of_decide_eq_true same, if_true, decide_true]
  · simp [hasBatch]

theorem sound_dropBatch {s : Store} (sound : s.Sound) (b : String) : (s.dropBatch b).1.Sound := by
  unfold dropBatch
  split
  · exact ⟨sound.1, sound.2, sound.3, sound.4, sound.5, sound.6⟩
  · exact sound

theorem slices_dropBatch (s : Store) (b : String) : (s.dropBatch b).1.slices = s.slices := by
  unfold dropBatch
  split <;> rfl

theorem fileId_mem {s : Store} {path : String} {id : Int} (found : s.fileId? path = some id) :
    ∃ f ∈ s.files, f.id = id := by
  simp only [fileId?, file?, Option.map_eq_some_iff] at found
  obtain ⟨f, there, same⟩ := found
  exact ⟨f, List.mem_of_find?_eq_some there, same⟩

/-- A file keeps its number; a new one gets a number that no row refers to. -/
theorem upsertFile_number {s t : Store} {f : FileInfo} {id : Int} (sound : s.Sound)
    (done : s.upsertFile f = .ok (t, id)) :
    s.fileId? f.path = some id ∨
      s.fileId? f.path = none ∧ ∀ r ∈ s.slices, r.content.fileId ≠ id := by
  unfold upsertFile at done
  split at done
  · cases found : s.fileId? f.path with
    | some old =>
      simp only [found, Except.ok.injEq, Prod.mk.injEq] at done
      exact Or.inl (by rw [done.2])
    | none =>
      simp only [found, Except.ok.injEq, Prod.mk.injEq] at done
      refine Or.inr ⟨rfl, fun r mem same => ?_⟩
      obtain ⟨g, gmem, gid⟩ := sound.sliceFiles r mem
      have := sound.fileNumbers g gmem
      omega
  · cases done

/-- A recorded file has the details given for it. -/
theorem upsertFile_file {s t : Store} {f : FileInfo} {id : Int}
    (done : s.upsertFile f = .ok (t, id)) : t.file? f.path = some ⟨id, f⟩ := by
  unfold upsertFile at done
  split at done
  · cases found : s.fileId? f.path with
    | some old =>
      simp only [found, Except.ok.injEq, Prod.mk.injEq] at done
      obtain ⟨rfl, rfl⟩ := done
      simp only [fileId?, file?, Option.map_eq_some_iff] at found
      obtain ⟨row, there, rfl⟩ := found
      have here : row.info.path = f.path := by simpa using List.find?_some there
      have paths (r : FileRow) :
          (if r.info.path = f.path then { r with info := f } else r).info.path = r.info.path := by
        split
        · rename_i path
          exact path.symm
        · rfl
      simp only [file?, List.find?_map, Function.comp_def, paths, there, Option.map_some, here, if_true]
    | none =>
      simp only [found, Except.ok.injEq, Prod.mk.injEq] at done
      obtain ⟨rfl, rfl⟩ := done
      simp only [fileId?, file?, Option.map_eq_none_iff] at found
      simp [file?, List.find?_append, found]
  · cases done

theorem upsertFile_fileId {s t : Store} {f : FileInfo} {id : Int}
    (done : s.upsertFile f = .ok (t, id)) : t.fileId? f.path = some id := by
  rw [fileId?, upsertFile_file done, Option.map_some]

theorem upsertFile_keeps {s t : Store} {f : FileInfo} {id : Int}
    (done : s.upsertFile f = .ok (t, id)) {row : FileRow} (mem : row ∈ s.files) :
    ∃ g ∈ t.files, g.id = row.id := by
  unfold upsertFile at done
  split at done
  · cases found : s.fileId? f.path with
    | some old =>
      simp only [found, Except.ok.injEq, Prod.mk.injEq] at done
      obtain ⟨rfl, -⟩ := done
      exact ⟨_, List.mem_map_of_mem mem, by split <;> rfl⟩
    | none =>
      simp only [found, Except.ok.injEq, Prod.mk.injEq] at done
      obtain ⟨rfl, -⟩ := done
      exact ⟨row, List.mem_append_left _ mem, rfl⟩
  · cases done

theorem upsertFile_tables {s t : Store} {f : FileInfo} {id : Int}
    (done : s.upsertFile f = .ok (t, id)) :
    t.batches = s.batches ∧ t.symbols = s.symbols ∧ t.slices = s.slices ∧
      ∃ row ∈ t.files, row.id = id := by
  have named := fileId_mem (upsertFile_fileId done)
  unfold upsertFile at done
  split at done
  · split at done <;> cases done <;> exact ⟨rfl, rfl, rfl, named⟩
  · cases done

theorem sound_upsertFile {s t : Store} {f : FileInfo} {id : Int} (sound : s.Sound)
    (done : s.upsertFile f = .ok (t, id)) : t.Sound := by
  have files (r : Slice) (mem : r ∈ s.slices) : ∃ g ∈ t.files, g.id = r.content.fileId := by
    obtain ⟨row, there, same⟩ := sound.sliceFiles r mem
    obtain ⟨g, here, same'⟩ := upsertFile_keeps done there
    exact ⟨g, here, same'.trans same⟩
  unfold upsertFile at done
  split at done
  · cases found : s.fileId? f.path with
    | some old =>
      simp only [found, Except.ok.injEq, Prod.mk.injEq] at done
      obtain ⟨rfl, rfl⟩ := done
      refine ⟨sound.1, sound.2, files, fun g mem => ?_, sound.5, sound.6⟩
      obtain ⟨row, rowMem, rfl⟩ := List.mem_map.1 mem
      have := sound.fileNumbers row rowMem
      split <;> exact Int.le_trans this (Int.le_add_one (Int.le_refl _))
    | none =>
      simp only [found, Except.ok.injEq, Prod.mk.injEq] at done
      obtain ⟨rfl, rfl⟩ := done
      refine ⟨sound.1, sound.2, files, fun g mem => ?_, sound.5, sound.6⟩
      rcases List.mem_append.1 mem with old | new
      · have := sound.fileNumbers g old
        exact Int.le_trans this (Int.le_add_one (Int.le_refl _))
      · simp_all
  · cases done

theorem upsertFile_spec {s t : Store} {f : FileInfo} {id : Int} (sound : s.Sound)
    (done : s.upsertFile f = .ok (t, id)) :
    t.Sound ∧ t.batches = s.batches ∧ t.symbols = s.symbols ∧ t.slices = s.slices ∧
      ∃ row ∈ t.files, row.id = id :=
  ⟨sound_upsertFile sound done, upsertFile_tables done⟩

/-! ### Statements about symbols -/

theorem sound_insertSymbol {s : Store} (sound : s.Sound) (r : SymbolRow) :
    (s.insertSymbol r).1.Sound := by
  refine ⟨sound.1, sound.2, sound.3, sound.4, ?_, ?_⟩
  · refine List.pairwise_append.2 ⟨sound.5, List.pairwise_singleton _ _, fun a ha b hb => ?_⟩
    have := sound.symbolNumbers a ha
    simp only [List.mem_singleton] at hb
    subst hb
    simp only
    omega
  · intro a ha
    rcases List.mem_append.1 ha with old | new
    · have := sound.symbolNumbers a old
      simp only [insertSymbol]
      omega
    · simp_all [insertSymbol]

theorem sound_changeSymbol {s : Store} (sound : s.Sound) (id : Int) (change : SymbolRow → SymbolRow)
    (keeps : ∀ r, (change r).id = r.id) : (s.changeSymbol id change).Sound := by
  have ids (r : SymbolRow) : (if r.id = id then change r else r).id = r.id := by
    split
    · exact keeps r
    · rfl
  refine ⟨sound.1, sound.2, sound.3, sound.4, ?_, ?_⟩
  · exact List.pairwise_map.2 (sound.symbolOrder.imp fun less => by simpa only [ids] using less)
  · intro r mem
    obtain ⟨old, there, rfl⟩ := List.mem_map.1 mem
    rw [ids]
    exact sound.symbolNumbers old there

/-! ### Statements about slices -/

theorem sound_slices {s : Store} (sound : s.Sound) {rows : List Slice} {last : Int}
    (order : rows.Pairwise (·.id < ·.id)) (numbers : ∀ r ∈ rows, r.id ≤ last)
    (files : ∀ r ∈ rows, ∃ f ∈ s.files, f.id = r.content.fileId) :
    Sound { s with slices := rows, lastSlice := last } :=
  ⟨order, numbers, files, sound.4, sound.5, sound.6⟩

theorem sound_mapSlices {s : Store} (sound : s.Sound) (change : Slice → Slice)
    (ids : ∀ r, (change r).id = r.id) (files : ∀ r, (change r).content.fileId = r.content.fileId) :
    Sound { s with slices := s.slices.map change } := by
  refine sound_slices sound ?_ ?_ ?_
  · exact List.pairwise_map.2 (sound.sliceOrder.imp fun less => by simpa only [ids] using less)
  · intro r mem
    obtain ⟨old, there, rfl⟩ := List.mem_map.1 mem
    rw [ids]
    exact sound.sliceNumbers old there
  · intro r mem
    obtain ⟨old, there, rfl⟩ := List.mem_map.1 mem
    rw [files]
    exact sound.sliceFiles old there

theorem sound_filterSlices {s : Store} (sound : s.Sound) (p : Slice → Bool) :
    Sound { s with slices := s.slices.filter p } :=
  sound_slices sound (sound.sliceOrder.filter p)
    (fun r mem => sound.sliceNumbers r (List.mem_filter.1 mem).1)
    (fun r mem => sound.sliceFiles r (List.mem_filter.1 mem).1)

/-- A row after it has been confirmed. -/
def confirmed (batch : String) (now : Instant) (r : Slice) : Slice :=
  { r with lastSeen := batch, updatedAt := now }

theorem sound_confirm {s : Store} (sound : s.Sound) (ids : List Int) (batch : String)
    (now : Instant) : (s.confirm ids batch now).Sound :=
  sound_mapSlices sound _ (fun r => by split <;> rfl) (fun r => by split <;> rfl)

theorem filter_slot_map (rows : List Slice) (change : Slice → Slice)
    (stays : ∀ r, (change r).slot = r.slot) (x : Slot) :
    (rows.map change).filter (·.slot = x) = (rows.filter (·.slot = x)).map change := by
  rw [List.filter_map]
  congr 1
  apply List.filter_congr
  intro r _
  simp only [Function.comp, stays]

theorem rowsAt_confirm (s : Store) (ids : List Int) (batch : String) (now : Instant) (x : Slot) :
    (s.confirm ids batch now).rowsAt x =
      (s.rowsAt x).map fun r => if ids.contains r.id then confirmed batch now r else r := by
  apply filter_slot_map
  intro r
  split <;> rfl

theorem sound_dropParts {s : Store} (sound : s.Sound) (batch : String) (fileId : Int)
    (chunkId : String) (total : Int) : (s.dropParts batch fileId chunkId total).Sound :=
  sound_filterSlices sound _

theorem rowsAt_dropParts (s : Store) (batch : String) (fileId : Int) (chunkId : String)
    (total : Int) (x : Slot) :
    (s.dropParts batch fileId chunkId total).rowsAt x =
      if x.1 = fileId ∧ x.2.1 = chunkId ∧ total ≤ x.2.2 then
        (s.rowsAt x).filter (·.batchId ≠ batch)
      else s.rowsAt x := by
  simp only [rowsAt, dropParts, List.filter_filter]
  split
  · rename_i inside
    apply List.filter_congr
    intro r _
    by_cases here : r.slot = x
    · subst here
      simp only [Slice.slot] at inside
      simp [Slice.slot, inside]
    · simp [here]
  · rename_i outside
    apply List.filter_congr
    intro r _
    by_cases here : r.slot = x
    · subst here
      simp only [Slice.slot] at outside
      simp only [Slice.slot, decide_true, Bool.true_and, Bool.not_eq_eq_eq_not, Bool.not_true]
      grind
    · simp [here]

theorem sound_deleteSlices {s : Store} (sound : s.Sound) (batch : String) :
    (s.deleteSlices batch).1.Sound :=
  sound_filterSlices sound _

theorem rowsAt_deleteSlices (s : Store) (batch : String) (x : Slot) :
    (s.deleteSlices batch).1.rowsAt x = (s.rowsAt x).filter (·.batchId ≠ batch) := by
  simp only [rowsAt, deleteSlices, List.filter_filter, Bool.and_comm]

/-- A row after another part has been written in its place. -/
def overwritten (content : SliceContent) (batch : String) (now : Instant) (r : Slice) : Slice :=
  { r with content, updatedAt := now, lastSeen := batch }

/-- What writing a part under a batch makes of the rows of its slot: the row of that batch is
overwritten, or a new row is put behind all others. -/
inductive Written (batch : String) (content : SliceContent) : List Slice → List Slice → Prop where
  | overwrite {rows : List Slice} (now : Instant) (own : ∃ r ∈ rows, r.batchId = batch) :
      Written batch content rows
        (rows.map fun r => if r.batchId = batch then overwritten content batch now r else r)
  | append {rows : List Slice} (new : Slice) (foreign : ∀ r ∈ rows, r.batchId ≠ batch)
      (holds : new.content = content) (writer : new.batchId = batch) (seen : new.lastSeen = batch) :
      Written batch content rows (rows ++ [new])

theorem putSlice_cases {s t : Store} {c : Slice} (done : s.putSlice c = .ok t) :
    (∃ f ∈ s.files, f.id = c.content.fileId) ∧
      ((∃ r ∈ s.slices, r.batchId = c.batchId ∧ r.slot = c.slot) ∧
        t = { s with
          slices := s.slices.map fun r =>
            if r.batchId = c.batchId ∧ r.slot = c.slot then
              overwritten c.content c.lastSeen c.updatedAt r
            else r
          lastSlice := s.lastSlice + 1 } ∨
      (∀ r ∈ s.slices, r.slot = c.slot → r.batchId ≠ c.batchId) ∧
        t = { s with
          slices := s.slices ++ [{ c with id := s.lastSlice + 1 }]
          lastSlice := s.lastSlice + 1 }) := by
  unfold putSlice at done
  split at done
  · rename_i admitted
    simp only [admits, Bool.and_eq_true, List.any_eq_true, decide_eq_true_eq] at admitted
    refine ⟨admitted.1.1.2, ?_⟩
    dsimp only at done
    split at done
    · rename_i old
      simp only [List.any_eq_true, Bool.and_eq_true, decide_eq_true_eq] at old
      simp only [Except.ok.injEq, Bool.and_eq_true, decide_eq_true_eq] at done
      exact Or.inl ⟨old, done.symm⟩
    · rename_i fresh
      simp only [List.any_eq_true, Bool.and_eq_true, decide_eq_true_eq, not_exists, not_and] at fresh
      simp only [Except.ok.injEq] at done
      exact Or.inr ⟨fun r mem here own => fresh r mem own here, done.symm⟩
  · cases done

theorem putSlice_tables {s t : Store} {c : Slice} (done : s.putSlice c = .ok t) :
    t.batches = s.batches ∧ t.files = s.files ∧ t.symbols = s.symbols := by
  obtain ⟨-, ⟨-, rfl⟩ | ⟨-, rfl⟩⟩ := putSlice_cases done <;> exact ⟨rfl, rfl, rfl⟩

theorem sound_putSlice {s t : Store} {c : Slice} (sound : s.Sound) (done : s.putSlice c = .ok t) :
    t.Sound := by
  have later (r : Slice) (mem : r ∈ s.slices) : r.id < s.lastSlice + 1 :=
    Int.lt_add_one_of_le (sound.sliceNumbers r mem)
  obtain ⟨file, ⟨-, rfl⟩ | ⟨-, rfl⟩⟩ := putSlice_cases done
  · -- Overwriting keeps numbers and slots of rows.
    have mapped := sound_mapSlices sound
      (fun r => if r.batchId = c.batchId ∧ r.slot = c.slot then
        overwritten c.content c.lastSeen c.updatedAt r else r)
      (fun r => by split <;> rfl)
      (fun r => by
        split
        · rename_i own
          exact (congrArg Prod.fst own.2).symm
        · rfl)
    exact sound_slices sound mapped.sliceOrder
      (fun r mem => Int.le_of_lt (Int.lt_add_one_of_le (mapped.sliceNumbers r mem))) mapped.sliceFiles
  · refine sound_slices sound ?_ ?_ ?_
    · exact List.pairwise_append.2 ⟨sound.sliceOrder, List.pairwise_singleton _ _, fun a ha b hb => by
        simp only [List.mem_singleton] at hb
        subst hb
        exact later a ha⟩
    · intro r mem
      rcases List.mem_append.1 mem with old | new
      · exact Int.le_of_lt (later r old)
      · simp_all
    · intro r mem
      rcases List.mem_append.1 mem with old | new
      · exact sound.sliceFiles r old
      · simp_all

theorem slot_overwritten {r c : Slice} {batch : String} {now : Instant} (here : r.slot = c.slot) :
    (overwritten c.content batch now r).slot = r.slot :=
  here.symm

theorem rowsAt_overwrite (s : Store) (c : Slice) (x : Slot) :
    (s.slices.map fun r => if r.batchId = c.batchId ∧ r.slot = c.slot then
        overwritten c.content c.lastSeen c.updatedAt r else r).filter (·.slot = x) =
      (s.rowsAt x).map fun r => if r.batchId = c.batchId ∧ r.slot = c.slot then
        overwritten c.content c.lastSeen c.updatedAt r else r := by
  apply filter_slot_map
  intro r
  split
  · rename_i own
    exact slot_overwritten own.2
  · rfl

theorem rowsAt_putSlice_other {s t : Store} {c : Slice} (done : s.putSlice c = .ok t) {x : Slot}
    (other : x ≠ c.slot) : t.rowsAt x = s.rowsAt x := by
  obtain ⟨-, ⟨-, rfl⟩ | ⟨-, rfl⟩⟩ := putSlice_cases done
  · refine (rowsAt_overwrite s c x).trans (List.map_congr_left fun r mem => ?_) |>.trans (List.map_id _)
    have here := (mem_rowsAt.1 mem).2
    rw [if_neg fun own => other (here.symm.trans own.2)]
    rfl
  · have elsewhere : ¬ ({ c with id := s.lastSlice + 1 } : Slice).slot = x := fun e => other e.symm
    simp [rowsAt, List.filter_append, elsewhere]

theorem written_putSlice {s t : Store} {c : Slice} (seen : c.lastSeen = c.batchId)
    (done : s.putSlice c = .ok t) :
    Written c.batchId c.content (s.rowsAt c.slot) (t.rowsAt c.slot) := by
  obtain ⟨-, ⟨⟨own, mem, writer, here⟩, rfl⟩ | ⟨foreign, rfl⟩⟩ := putSlice_cases done
  · have same : ∀ r ∈ s.rowsAt c.slot,
        (if r.batchId = c.batchId ∧ r.slot = c.slot then
          overwritten c.content c.lastSeen c.updatedAt r else r) =
        if r.batchId = c.batchId then overwritten c.content c.batchId c.updatedAt r else r := by
      intro r there
      simp [(mem_rowsAt.1 there).2, seen]
    have rows := (rowsAt_overwrite s c c.slot).trans (List.map_congr_left same)
    change Written _ _ _ (List.filter _ _)
    rw [rows]
    exact .overwrite c.updatedAt ⟨own, mem_rowsAt.2 ⟨mem, here⟩, writer⟩
  · have rows : Store.rowsAt { s with
        slices := s.slices ++ [{ c with id := s.lastSlice + 1 }], lastSlice := s.lastSlice + 1 }
        c.slot = s.rowsAt c.slot ++ [{ c with id := s.lastSlice + 1 }] := by
      simp [rowsAt, List.filter_append, Slice.slot]
    rw [rows]
    refine .append _ (fun r there => ?_) rfl rfl seen
    exact foreign r (mem_rowsAt.1 there).1 (mem_rowsAt.1 there).2

end Store

end SourceSlices
