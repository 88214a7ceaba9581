import SourceSlices.Proofs.BatchView
import SourceSlices.Proofs.SourceRuns

/-!
Batches that show something. A batch shows a slice exactly if some row has been written or confirmed
by it, and staging a file leaves such a row exactly if the result has chunks. So a run fills its batch
if it writes a file with chunks, and otherwise makes a batch that shows nothing.
-/
namespace SourceSlices

namespace Store

variable {s t : Store} {batch other : String}

/-- Some row has been written or confirmed by a batch. -/
def HasSlices (s : Store) (batch : String) : Prop := ∃ r ∈ s.slices, r.isSeenIn batch = true

theorem hasSlices_congr (same : t.slices = s.slices) : t.HasSlices batch ↔ s.HasSlices batch := by
  rw [HasSlices, HasSlices, same]

theorem visible_iff_hasSlices (sound : s.Sound) : s.visibleIn batch ≠ [] ↔ s.HasSlices batch := by
  constructor
  · intro visible
    obtain ⟨r, mem⟩ := List.exists_mem_of_ne_nil _ visible
    obtain ⟨there, -, seen⟩ := shown_spec ((mem_visibleIn sound).1 mem)
    exact ⟨r, there, seen⟩
  · rintro ⟨r, there, seen⟩
    have some : (s.rowsAt r.slot).filter (·.isSeenIn batch) ≠ [] :=
      List.ne_nil_of_mem (List.mem_filter.2 ⟨mem_rowsAt.2 ⟨there, rfl⟩, seen⟩)
    obtain ⟨v, shown⟩ : ∃ v, s.shown? batch r.slot = .some v :=
      ⟨_, List.getLast?_eq_some_getLast some⟩
    have slot := (shown_spec shown).2.1
    exact List.ne_nil_of_mem ((mem_visibleIn sound).2 (slot.symm ▸ shown))

theorem hasSlices_confirm {ids : List Int} (named : ∃ r ∈ s.slices, r.id ∈ ids) (batch : String)
    (now : Instant) : (s.confirm ids batch now).HasSlices batch := by
  obtain ⟨r, mem, named⟩ := named
  refine ⟨_, List.mem_map_of_mem mem, ?_⟩
  rw [if_pos (List.contains_iff_mem.2 named)]
  exact isSeenIn_iff.2 (Or.inr rfl)

theorem hasSlices_putSlice {c : Slice} (done : s.putSlice c = .ok t) : t.HasSlices c.batchId := by
  obtain ⟨-, ⟨⟨r, mem, writer, slot⟩, rfl⟩ | ⟨-, rfl⟩⟩ := putSlice_cases done
  · refine ⟨_, List.mem_map_of_mem mem, ?_⟩
    rw [if_pos ⟨writer, slot⟩]
    exact isSeenIn_iff.2 (Or.inl writer)
  · exact ⟨_, List.mem_append_right _ List.mem_cons_self, isSeenIn_iff.2 (Or.inl rfl)⟩

theorem Spares.hasSlices (spares : Spares batch s t) (away : other ≠ batch)
    (has : t.HasSlices other) : s.HasSlices other := by
  obtain ⟨v, mem, seen⟩ := has
  obtain ⟨r, there, -, -, before⟩ := spares.origin v mem other away seen
  exact ⟨r, there, before⟩

theorem Spares.wrote (spares : Spares batch s t) (away : other ≠ batch)
    (wrote : ∃ r ∈ s.slices, r.batchId = other) : ∃ r ∈ t.slices, r.batchId = other := by
  obtain ⟨r, mem, rfl⟩ := wrote
  obtain ⟨v, there, -, writer, -⟩ := spares.stays r mem away
  exact ⟨v, there, writer⟩

end Store

namespace Staging

open Store

variable {q : StageRequest} {now : Instant} {fileId : Int} {ids : SymbolIds} {s t : Store}
  {o o' : StageOutcome}

theorem hasSlices_putAll {rows : List Slice} {batch : String} (own : ∀ c ∈ rows, c.batchId = batch)
    (some : rows ≠ []) (done : putAll s rows = .ok t) : t.HasSlices batch := by
  induction rows generalizing s with
  | nil => exact absurd rfl some
  | cons c rest ih =>
    obtain ⟨u, put, others⟩ := putAll_cons_iff.1 done
    cases rest with
    | nil =>
      cases others
      exact own c List.mem_cons_self ▸ hasSlices_putSlice put
    | cons d more => exact ih (fun e mem => own e (List.mem_cons_of_mem _ mem)) (by simp) others

/-- Whether its parts are written or confirmed, a chunk leaves a row of the batch. -/
theorem hasSlices_writeChunk {g : ChunkGroup} (some : g.parts ≠ [])
    (done : writeChunk q now fileId ids s o g = .ok (t, o')) : t.HasSlices q.batchId := by
  obtain ⟨-, contents, made, written⟩ := writeChunk_cases done
  have contents_some : contents ≠ [] := fun none => some (by simpa [none] using made)
  obtain ⟨rows, found, rfl⟩ | ⟨-, first, put⟩ := written
  · have length := congrArg List.length (unchanged_some_iff.1 found).2
    have bound : 0 < rows.length := by
      rw [List.length_map] at length
      rw [length]
      exact List.length_pos_iff.2 contents_some
    obtain ⟨-, newest, -⟩ := unchanged_row found bound
    have there := (mem_rowsAt.1 (List.mem_of_getLast? newest)).1
    exact hasSlices_confirm ⟨_, there, List.mem_map_of_mem (List.getElem_mem bound)⟩ _ now
  · refine hasSlices_putAll (fun c mem => ?_) (by simpa using contents_some) put
    obtain ⟨content, -, rfl⟩ := List.mem_map.1 mem
    rfl

theorem hasSlices_writeChunks {groups : List ChunkGroup} (some : ∀ g ∈ groups, g.parts ≠ [])
    (done : writeChunks q now fileId ids groups s o = .ok (t, o')) :
    t.HasSlices q.batchId ↔ s.HasSlices q.batchId ∨ groups ≠ [] := by
  induction groups generalizing s o with
  | nil =>
    cases done
    simp
  | cons g rest ih =>
    simp only [writeChunks, bind_ok_iff] at done
    obtain ⟨⟨u, o1⟩, first, others⟩ := done
    rw [ih (fun h mem => some h (List.mem_cons_of_mem _ mem)) others]
    have here := hasSlices_writeChunk (some g List.mem_cons_self) first
    simp [here]

/-- Staging a file fills the batch exactly if the result has chunks. -/
theorem hasSlices_stage (sound : s.Sound) (done : stage s now q = .ok (t, o)) :
    t.HasSlices q.batchId ↔ s.HasSlices q.batchId ∨ q.result.chunks ≠ [] := by
  obtain ⟨groups, s1, fileId, s2, o2, ids, s3, grouped, ⟨f, -, file⟩, symbols, links, chunks⟩ :=
    stage_steps done
  obtain ⟨rfl, -⟩ := ChunkGroup.ofChunks_ok_iff.1 grouped
  obtain ⟨sound1, -, -, slices1, -⟩ := upsertFile_spec sound file
  obtain ⟨sound2, same2, -⟩ := writeSymbols_spec sound1 symbols
  have slices3 := (linkParents_spec sound2 links).2.1.slices
  have groups_some : ChunkGroup.all q.result.chunks ≠ [] ↔ q.result.chunks ≠ [] := by
    cases q.result.chunks with
    | nil => simp [ChunkGroup.all, ChunkGroup.idsOf]
    | cons c rest =>
      have known : c.chunkId ∈ ChunkGroup.idsOf (c :: rest) :=
        ChunkGroup.mem_idsOf.2 ⟨c, List.mem_cons_self, rfl⟩
      have some := List.ne_nil_of_mem known
      simpa [ChunkGroup.all] using some
  rw [hasSlices_writeChunks (fun g mem => ChunkGroup.parts_ne_nil mem) chunks, groups_some,
    hasSlices_congr ((slices3.trans same2.slices).trans slices1)]

end Staging

namespace StagedBatch

open Store

variable {tree : FileTree} {now : Instant} {batch : String} {g : Progress} {results : List ReadResult}

/-- A result that is listed brings slices exactly if it has chunks; one that is not brings nothing. -/
theorem hasSlices_add (tree : FileTree) (now : Instant) (batch : String) (sound : g.store.Sound)
    (x : ReadResult) :
    ((g.add tree now batch x).store = g.store ∧ (g.add tree now batch x).entries = g.entries) ∨
      ((g.add tree now batch x).entries = g.entries ++ [x.1] ∧
        ((g.add tree now batch x).store.HasSlices batch ↔
          g.store.HasSlices batch ∨ x.2.chunks ≠ [])) := by
  obtain ⟨e, result⟩ := x
  unfold Progress.add
  by_cases unread : (!result.errors.isEmpty) = true
  · simp only [unread, if_true]
    exact Or.inl ⟨rfl, rfl⟩
  · simp only [unread, if_false, Bool.false_eq_true]
    split
    · rename_i done
      refine Or.inr ⟨?_, Staging.hasSlices_stage sound done⟩
      simp only [Progress.entries, Progress.finish, List.map_append, List.map_cons, List.map_nil]
    · exact Or.inl ⟨rfl, rfl⟩

theorem hasSlices_addAll (regular : g.store.Regular) (distinct : (results.map Prod.fst).Nodup)
    (fresh : ∀ e ∈ results.map Prod.fst, e ∉ g.entries) :
    (addAll tree now batch g results).store.HasSlices batch ↔ g.store.HasSlices batch ∨
      ∃ x ∈ results, x.1 ∈ (addAll tree now batch g results).entries ∧ x.2.chunks ≠ [] := by
  induction results generalizing g with
  | nil => simp [addAll]
  | cons x rest ih =>
    have step := added tree now batch regular x
    have after := (step.leaves regular).regular
    obtain ⟨-, grows, origin⟩ := addAll_spec tree now batch rest after
    obtain ⟨apart, distinct'⟩ := List.nodup_cons.1 distinct
    have further := ih after distinct' fun e inside old => by
      rcases step.entries_iff.1 old with before | ⟨rfl, -⟩
      · exact fresh e (List.mem_cons_of_mem _ inside) before
      · exact apart inside
    -- No later result has the entry of `x`, so it is listed in the end exactly if it is listed now.
    have listed : x.1 ∈ (addAll tree now batch (g.add tree now batch x) rest).entries ↔
        x.1 ∈ (g.add tree now batch x).entries :=
      ⟨fun mem => (List.mem_append.1 (origin mem)).resolve_right apart, fun mem => grows mem⟩
    have new : x.1 ∉ g.entries := fresh x.1 List.mem_cons_self
    rw [addAll, List.foldl_cons, ← addAll, further, List.exists_mem_cons_iff, listed]
    obtain ⟨store, entries⟩ | ⟨entries, filled⟩ :=
      hasSlices_add tree now batch regular.sound x
    · rw [store, entries]
      simp [new]
    · rw [filled, entries]
      simp [or_assoc]

end StagedBatch

namespace Runner

open Store StagedBatch

variable {r : Runner} {s : Store} {p : Pass} {b : String}

/-- A call writes a file whose result has chunks. -/
def Fills (r : Runner) (s : Store) (p : Pass) : Prop :=
  ∃ x ∈ r.resultsOf p, x.1 ∈ r.writtenEntries s p ∧ x.2.chunks ≠ []

theorem hasSlices_next (regular : s.Regular) :
    (r.next s p).HasSlices p.batchId ↔ s.HasSlices p.batchId ∨ r.Fills s p := by
  obtain ⟨same, none⟩ | ⟨distinct, b, start, before, empty, after, listed⟩ :=
    next_cases (r := r) (s := s) (p := p)
  · simp [same, Fills, none]
  · rw [after, hasSlices_addAll (before ▸ regular_ensureBatch regular b) distinct (by simp [empty]),
      before, hasSlices_congr (slices_ensureBatch s b), Fills, listed]

theorem mem_of_hasSlices {passes : List Pass} (has : (r.storeAfter passes).HasSlices b) :
    b ∈ passes.map Pass.batchId := by
  induction passes using List.reverseRecOn with
  | nil =>
    obtain ⟨row, mem, -⟩ := has
    cases mem
  | append_singleton before p ih =>
    rw [List.map_append, List.mem_append]
    by_cases own : b = p.batchId
    · exact Or.inr (own ▸ List.mem_cons_self)
    · rw [storeAfter_snoc] at has
      have spares := (next_leaves (r := r) (p := p) (storeAfter_spec r before).1).spares
      exact Or.inl (ih (spares.hasSlices own has))

theorem hasSlices_fresh (before : List Pass) (fresh : p.batchId ∉ before.map Pass.batchId) :
    (r.storeAfter (before ++ [p])).HasSlices p.batchId ↔ r.Fills (r.storeAfter before) p := by
  rw [storeAfter_snoc, hasSlices_next (storeAfter_spec r before).1]
  exact or_iff_right fun has => fresh (mem_of_hasSlices has)

end Runner

end SourceSlices
