import SourceSlices.Proofs.SymbolTable

/-!
Writing one chunk. Either the newest versions of all its parts say what is to be written, and these
rows are confirmed, or every part is written and what the batch wrote beyond them is removed. All
other chunks stay as they are.
-/
namespace SourceSlices

/-- Two stores that differ in their slices only. -/
structure Store.SameButSlices (s t : Store) : Prop where
  batches : t.batches = s.batches
  files : t.files = s.files
  symbols : t.symbols = s.symbols

/-- The versions of the parts of one chunk, by the index of the part. -/
def Store.versions (s : Store) (fileId : Int) (chunkId : String) (i : Int) : List Slice :=
  s.rowsAt (fileId, chunkId, i)

/-- The newest row of a slot has been confirmed. -/
inductive Confirmed (batch : String) (now : Instant) (content : SliceContent) :
    List Slice → List Slice → Prop where
  | last (older : List Slice) (row : Slice) (holds : row.content = content) :
      Confirmed batch now content (older ++ [row]) (older ++ [Store.confirmed batch now row])

theorem confirmed_inv {batch : String} {now : Instant} {content : SliceContent}
    {before after : List Slice} (write : Confirmed batch now content before after) :
    ∃ older row, before = older ++ [row] ∧ row.content = content ∧
      after = older ++ [Store.confirmed batch now row] := by
  cases write with
  | last older row holds => exact ⟨older, row, rfl, holds, rfl⟩

theorem written_foreign {batch : String} {content : SliceContent} {before after : List Slice}
    (foreign : ∀ r ∈ before, r.batchId ≠ batch)
    (write : Store.Written batch content before after) :
    ∃ new : Slice, after = before ++ [new] ∧ new.content = content ∧ new.batchId = batch ∧
      new.lastSeen = batch := by
  cases write with
  | overwrite now own =>
    obtain ⟨r, mem, writer⟩ := own
    exact absurd writer (foreign r mem)
  | append new _ holds writer seen => exact ⟨new, rfl, holds, writer, seen⟩

/-- What writing a chunk under a batch makes of its versions. -/
inductive ChunkWrite (batch : String) (contents : List SliceContent)
    (before after : Int → List Slice) : Prop where
  | confirm (now : Instant)
      (parts : ∀ i (h : i < contents.length), Confirmed batch now contents[i] (before i) (after i))
      (others : ∀ i : Int, i < 0 ∨ contents.length ≤ i → after i = before i)
  | rewrite
      (changed : ∃ i, ∃ h : i < contents.length,
        (before i).getLast?.map (·.content) ≠ some contents[i])
      (parts : ∀ i (h : i < contents.length), Store.Written batch contents[i] (before i) (after i))
      (below : ∀ i : Int, i < 0 → after i = before i)
      (beyond : ∀ i : Int, contents.length ≤ i →
        after i = (before i).filter (·.batchId ≠ batch))

/-- Contents that stand in the slots of one chunk, each at the place of its index. -/
def Placed (fileId : Int) (chunkId : String) (contents : List SliceContent) : Prop :=
  ∀ i (h : i < contents.length), contents[i].slot = (fileId, chunkId, (i : Int))

theorem placed_slot_of_mem {fileId : Int} {chunkId : String} {contents : List SliceContent}
    (placed : Placed fileId chunkId contents) {c : SliceContent} (mem : c ∈ contents) :
    ∃ i : Nat, i < contents.length ∧ c.slot = (fileId, chunkId, (i : Int)) := by
  obtain ⟨i, bound, rfl⟩ := List.getElem_of_mem mem
  exact ⟨i, bound, placed i bound⟩

theorem placed_nodup {fileId : Int} {chunkId : String} {contents : List SliceContent}
    (placed : Placed fileId chunkId contents) : (contents.map (·.slot)).Nodup := by
  refine List.pairwise_iff_getElem.2 fun i j hi hj less same => ?_
  simp only [List.getElem_map] at same
  simp only [List.length_map] at hi hj
  rw [placed i hi, placed j hj] at same
  simp only [Prod.mk.injEq, true_and] at same
  omega

namespace Staging

open Store

variable {q : StageRequest} {now : Instant} {fileId : Int} {chunkId : String} {ids : SymbolIds}
  {s t : Store} {o o' : StageOutcome} {contents : List SliceContent}

theorem newest_eq (s : Store) (fileId : Int) (chunkId : String) (i : Nat) :
    newest? (s.chunkHistory fileId chunkId) i = (s.versions fileId chunkId i).getLast? := by
  simp only [newest?, chunkHistory, versions, rowsAt, List.filter_filter]
  congr 1
  apply List.filter_congr
  intro r _
  simp only [Slice.slot, Prod.mk.injEq]
  grind

theorem mapM_some_iff {α β : Type} {f : α → Option β} {l : List α} {r : List β} :
    l.mapM f = some r ↔ l.map f = r.map some := by
  induction l generalizing r with
  | nil => cases r <;> simp
  | cons a rest ih =>
    simp only [List.mapM_cons, Option.bind_eq_bind, Option.bind_eq_some_iff, ih, Option.pure_def,
      Option.some.injEq, List.map_cons]
    constructor
    · rintro ⟨b, hb, bs, hbs, rfl⟩
      simp [hb, hbs]
    · intro h
      cases r with
      | nil => simp at h
      | cons b bs =>
        simp only [List.map_cons, List.cons.injEq] at h
        exact ⟨b, h.1, bs, h.2, rfl⟩

theorem unchanged_some_iff {history rows : List Slice} :
    unchanged? history contents = some rows ↔
      (List.range contents.length).map (newest? history) = rows.map some ∧
        rows.map (·.content) = contents := by
  simp only [unchanged?, newest, Option.filter_eq_some_iff, mapM_some_iff, decide_eq_true_eq]

/-- A chunk is not confirmed only if the newest version of some part says something else. -/
theorem changed_of_unchanged_none {history : List Slice}
    (none : unchanged? history contents = none) :
    ∃ i, ∃ h : i < contents.length, (newest? history i).map (·.content) ≠ some contents[i] := by
  by_contra same
  push Not at same
  obtain ⟨rows, made⟩ : ∃ rows : List Slice,
      rows.map some = (List.range contents.length).map (newest? history) := by
    refine exists_of_all_made fun found mem => ?_
    obtain ⟨i, bound, rfl⟩ := List.mem_map.1 mem
    obtain ⟨r, there, -⟩ := Option.map_eq_some_iff.1 (same i (List.mem_range.1 bound))
    exact ⟨r, there.symm⟩
  have found := made.symm
  have equal : rows.map (·.content) = contents := by
    have length : rows.length = contents.length := by simpa using (congrArg List.length found).symm
    refine List.ext_getElem (by simpa using length) fun i hl hr => ?_
    have at_i := congrArg (·[i]?) found
    simp only [List.length_map] at hl
    simp only [List.getElem?_map, List.getElem?_range hr, Option.map_some,
      List.getElem?_eq_getElem hl, Option.some.injEq] at at_i
    have content := same i hr
    rw [at_i] at content
    simpa using content
  rw [unchanged_some_iff.2 ⟨found, equal⟩] at none
  cases none

/-- The rows that are confirmed are the newest of their slots, one in each. -/
theorem unchanged_row {rows : List Slice}
    (found : unchanged? (s.chunkHistory fileId chunkId) contents = some rows) {i : Nat}
    (bound : i < rows.length) :
    ∃ h : i < contents.length, (s.versions fileId chunkId i).getLast? = some rows[i] ∧
      rows[i].content = contents[i] := by
  obtain ⟨newest, equal⟩ := unchanged_some_iff.1 found
  have length : rows.length = contents.length := by simpa using congrArg List.length equal
  refine ⟨length ▸ bound, ?_, ?_⟩
  · have at_i := congrArg (·[i]?) newest
    simp only [List.getElem?_map, List.getElem?_range (length ▸ bound), Option.map_some,
      List.getElem?_eq_getElem bound, Option.some.injEq] at at_i
    rw [← at_i, newest_eq]
  · subst equal
    simp

theorem confirmed_row (sound : s.Sound) {rows : List Slice}
    (found : unchanged? (s.chunkHistory fileId chunkId) contents = some rows) {r : Slice}
    (mem : r ∈ s.slices) (named : r.id ∈ rows.map (·.id)) :
    ∃ i, ∃ h : i < rows.length, r = rows[i] ∧ r.slot = (fileId, chunkId, (i : Int)) := by
  obtain ⟨row, rowMem, same⟩ := List.mem_map.1 named
  obtain ⟨i, bound, rfl⟩ := List.getElem_of_mem rowMem
  obtain ⟨-, last, -⟩ := unchanged_row found bound
  obtain ⟨there, here⟩ := mem_rowsAt.1 (List.mem_of_getLast? last)
  have eq := eq_of_same_id sound mem there same.symm
  exact ⟨i, bound, eq, eq ▸ here⟩

/-- Confirming the newest rows of the parts of a chunk changes these rows. -/
theorem confirm_parts (sound : s.Sound) {rows : List Slice}
    (found : unchanged? (s.chunkHistory fileId chunkId) contents = some rows)
    (batch : String) (now : Instant) {i : Nat} (bound : i < contents.length) :
    Confirmed batch now contents[i] (s.versions fileId chunkId i)
      ((s.confirm (rows.map (·.id)) batch now).versions fileId chunkId i) := by
  have length : rows.length = contents.length := by
    simpa using congrArg List.length (unchanged_some_iff.1 found).2
  obtain ⟨_, last, holds⟩ := unchanged_row found (length ▸ bound : i < rows.length)
  obtain ⟨older, split⟩ := List.getLast?_eq_some_iff.1 last
  have ascending := rowsAt_ascending sound (fileId, chunkId, (i : Int))
  rw [show s.rowsAt (fileId, chunkId, (i : Int)) = _ from split] at ascending
  obtain ⟨-, -, below⟩ := List.pairwise_append.1 ascending
  -- Older rows of the slot have smaller numbers than the one that is confirmed.
  have old : ∀ r ∈ older,
      (if (rows.map (·.id)).contains r.id then confirmed batch now r else r) = r := by
    intro r mem
    rw [if_neg]
    intro named
    obtain ⟨there, here⟩ := mem_rowsAt.1 (split ▸ List.mem_append_left _ mem :
      r ∈ s.versions fileId chunkId i)
    obtain ⟨j, jBound, eq, slot⟩ := confirmed_row sound found there (List.contains_iff_mem.1 named)
    have less := below r mem _ (List.mem_singleton.2 rfl)
    rw [here] at slot
    simp only [Prod.mk.injEq, true_and, Int.ofNat_inj] at slot
    subst slot
    rw [eq] at less
    exact Int.lt_irrefl _ less
  have new : (rows.map (·.id)).contains rows[i].id :=
    List.contains_iff_mem.2 (List.mem_map_of_mem (List.getElem_mem _))
  unfold versions at split ⊢
  rw [rowsAt_confirm, split, List.map_append, (List.map_congr_left old).trans (List.map_id' _)]
  simp only [List.map_cons, List.map_nil, new, if_true]
  exact .last older _ holds

theorem confirm_others (sound : s.Sound) {rows : List Slice}
    (found : unchanged? (s.chunkHistory fileId chunkId) contents = some rows)
    (batch : String) (now : Instant) {x : Slot}
    (outside : ∀ i : Nat, i < contents.length → x ≠ (fileId, chunkId, (i : Int))) :
    (s.confirm (rows.map (·.id)) batch now).rowsAt x = s.rowsAt x := by
  have length : rows.length = contents.length := by
    simpa using congrArg List.length (unchanged_some_iff.1 found).2
  rw [rowsAt_confirm]
  refine (List.map_congr_left fun r mem => ?_).trans (List.map_id _)
  obtain ⟨there, here⟩ := mem_rowsAt.1 mem
  rw [if_neg]
  · rfl
  · intro named
    obtain ⟨i, bound, -, slot⟩ := confirmed_row sound found there (List.contains_iff_mem.1 named)
    exact outside i (length ▸ bound) (here.symm.trans slot)

/-- The row in which a part is written. -/
def freshRow (batch first : String) (now : Instant) (content : SliceContent) : Slice :=
  ⟨0, batch, content, now, now, first, batch⟩

theorem putAll_cons_iff {c : Slice} {rest : List Slice} :
    putAll s (c :: rest) = .ok t ↔ ∃ u, s.putSlice c = .ok u ∧ putAll u rest = .ok t := by
  simp only [putAll, bind_ok_iff, mapError_ok_iff]

theorem sound_putAll {rows : List Slice} (sound : s.Sound) (done : putAll s rows = .ok t) :
    t.Sound := by
  induction rows generalizing s with
  | nil =>
    cases done
    exact sound
  | cons c rest ih =>
    obtain ⟨u, put, others⟩ := putAll_cons_iff.1 done
    exact ih (sound_putSlice sound put) others

theorem putAll_tables {rows : List Slice} (done : putAll s rows = .ok t) : SameButSlices s t := by
  induction rows generalizing s with
  | nil =>
    cases done
    exact ⟨rfl, rfl, rfl⟩
  | cons c rest ih =>
    obtain ⟨u, put, others⟩ := putAll_cons_iff.1 done
    obtain ⟨batches, files, symbols⟩ := putSlice_tables put
    have same := ih others
    exact ⟨same.1.trans batches, same.2.trans files, same.3.trans symbols⟩

/-- Writing parts one after the other changes each of their slots and no others. -/
theorem putAll_effect {batch first : String} (distinct : (contents.map (·.slot)).Nodup)
    (done : putAll s (contents.map (freshRow batch first now)) = .ok t) :
    (∀ c ∈ contents, Written batch c (s.rowsAt c.slot) (t.rowsAt c.slot)) ∧
      ∀ x, (∀ c ∈ contents, x ≠ c.slot) → t.rowsAt x = s.rowsAt x := by
  induction contents generalizing s with
  | nil =>
    cases done
    exact ⟨by simp, fun _ _ => rfl⟩
  | cons c rest ih =>
    obtain ⟨u, put, others⟩ := putAll_cons_iff.1 done
    obtain ⟨apart, distinct'⟩ := List.nodup_cons.1 distinct
    have away (d : SliceContent) (mem : d ∈ rest) : d.slot ≠ c.slot :=
      fun same => apart (List.mem_map.2 ⟨d, mem, same⟩)
    obtain ⟨parts, outside⟩ := ih distinct' others
    refine ⟨?_, ?_⟩
    · intro d mem
      rcases List.mem_cons.1 mem with rfl | mem
      · rw [outside _ fun e emem => (away e emem).symm]
        exact written_putSlice rfl put
      · rw [← rowsAt_putSlice_other put (away d mem)]
        exact parts d mem
    · intro x other
      rw [outside x fun d mem => other d (List.mem_cons_of_mem _ mem)]
      exact rowsAt_putSlice_other put (other c List.mem_cons_self)

/-- What is written of a chunk: its newest rows are confirmed, or every part gets a row under the
first batch of the chunk. -/
theorem writeChunk_steps {g : ChunkGroup} (done : writeChunk q now fileId ids s o g = .ok (t, o')) :
    (∃ inserted reused, o' = { o with chunksInserted := inserted, chunksReused := reused }) ∧
      ∃ contents, g.parts.map (sliceContent q fileId ids) = contents.map .ok ∧
        ((∃ rows, unchanged? (s.chunkHistory fileId g.chunkId) contents = some rows ∧
            t = s.confirm (rows.map (·.id)) q.batchId now) ∨
          unchanged? (s.chunkHistory fileId g.chunkId) contents = none ∧
            putAll (s.dropParts q.batchId fileId g.chunkId contents.length)
              (contents.map
                (freshRow q.batchId (firstSeen q (s.chunkHistory fileId g.chunkId)) now)) = .ok t) := by
  simp only [writeChunk, bind_ok_iff] at done
  obtain ⟨contents, made, done⟩ := done
  cases kept : unchanged? (s.chunkHistory fileId g.chunkId) contents with
  | some rows =>
    simp only [kept] at done
    cases done
    exact ⟨⟨o.chunksInserted, _, rfl⟩, contents, mapM_ok_iff.1 made, Or.inl ⟨rows, kept, rfl⟩⟩
  | none =>
    simp only [kept, bind_ok_iff] at done
    obtain ⟨u, put, done⟩ := done
    cases done
    exact ⟨⟨_, o.chunksReused, rfl⟩, contents, mapM_ok_iff.1 made, Or.inr ⟨kept, put⟩⟩

/-- Writing a chunk, for purposes that the first batch of the rows does not matter to. -/
theorem writeChunk_cases {g : ChunkGroup} (done : writeChunk q now fileId ids s o g = .ok (t, o')) :
    (∃ inserted reused, o' = { o with chunksInserted := inserted, chunksReused := reused }) ∧
      ∃ contents, g.parts.map (sliceContent q fileId ids) = contents.map .ok ∧
        ((∃ rows, unchanged? (s.chunkHistory fileId g.chunkId) contents = some rows ∧
            t = s.confirm (rows.map (·.id)) q.batchId now) ∨
          unchanged? (s.chunkHistory fileId g.chunkId) contents = none ∧
            ∃ first, putAll (s.dropParts q.batchId fileId g.chunkId contents.length)
              (contents.map (freshRow q.batchId first now)) = .ok t) := by
  obtain ⟨counts, contents, made, kept | ⟨changed, put⟩⟩ := writeChunk_steps done
  · exact ⟨counts, contents, made, Or.inl kept⟩
  · exact ⟨counts, contents, made, Or.inr ⟨changed, _, put⟩⟩

theorem sound_writeChunk {g : ChunkGroup} (sound : s.Sound)
    (done : writeChunk q now fileId ids s o g = .ok (t, o')) : t.Sound := by
  obtain ⟨-, contents, -, ⟨rows, -, rfl⟩ | ⟨-, first, put⟩⟩ := writeChunk_cases done
  · exact sound_confirm sound _ _ _
  · exact sound_putAll (sound_dropParts sound _ _ _ _) put

theorem writeChunk_tables {g : ChunkGroup}
    (done : writeChunk q now fileId ids s o g = .ok (t, o')) :
    SameButSlices s t ∧ o'.fileId = o.fileId := by
  obtain ⟨⟨_, _, rfl⟩, contents, -, ⟨rows, -, rfl⟩ | ⟨-, first, put⟩⟩ := writeChunk_cases done
  · exact ⟨⟨rfl, rfl, rfl⟩, rfl⟩
  · have tables := putAll_tables put
    exact ⟨⟨tables.1, tables.2, tables.3⟩, rfl⟩

/-- The rows of a chunk when its newest versions are confirmed. -/
theorem confirm_write (sound : s.Sound) {rows : List Slice}
    (found : unchanged? (s.chunkHistory fileId chunkId) contents = some rows) (batch : String)
    (now : Instant) : ChunkWrite batch contents (s.versions fileId chunkId)
      ((s.confirm (rows.map (·.id)) batch now).versions fileId chunkId) := by
  refine .confirm now (fun i bound => confirm_parts sound found batch now bound) ?_
  intro i range
  refine confirm_others sound found batch now fun j bound same => ?_
  simp only [Prod.mk.injEq, true_and] at same
  omega

/-- The rows of a chunk when all its parts are written. -/
theorem rewrite_write {batch first : String} (placed : Placed fileId chunkId contents)
    (changed : unchanged? (s.chunkHistory fileId chunkId) contents = none)
    (put : putAll (s.dropParts batch fileId chunkId contents.length)
      (contents.map (freshRow batch first now)) = .ok t) :
    ChunkWrite batch contents (s.versions fileId chunkId) (t.versions fileId chunkId) := by
  obtain ⟨parts, outside⟩ := putAll_effect (placed_nodup placed) put
  have away (i : Int) (range : i < 0 ∨ (contents.length : Int) ≤ i) :
      ∀ c ∈ contents, (fileId, chunkId, i) ≠ c.slot := by
    intro c mem
    obtain ⟨j, bound, slot⟩ := placed_slot_of_mem placed mem
    rw [slot]
    simp only [ne_eq, Prod.mk.injEq, true_and]
    omega
  obtain ⟨i, bound, differs⟩ := changed_of_unchanged_none changed
  refine .rewrite ⟨i, bound, newest_eq s fileId chunkId i ▸ differs⟩ ?_ ?_ ?_
  · intro j bound
    have written := parts contents[j] (List.getElem_mem _)
    rw [placed j bound, rowsAt_dropParts, if_neg (by simp; omega)] at written
    exact written
  · intro j below
    unfold versions
    rw [outside _ (away j (Or.inl below)), rowsAt_dropParts, if_neg (by simp; omega)]
  · intro j beyond
    unfold versions
    rw [outside _ (away j (Or.inr beyond)), rowsAt_dropParts, if_pos ⟨rfl, rfl, beyond⟩]

theorem rewrite_others {batch first : String} (placed : Placed fileId chunkId contents)
    (put : putAll (s.dropParts batch fileId chunkId contents.length)
      (contents.map (freshRow batch first now)) = .ok t) {x : Slot}
    (other : ¬ (x.1 = fileId ∧ x.2.1 = chunkId)) : t.rowsAt x = s.rowsAt x := by
  have outside : ∀ c ∈ contents, x ≠ c.slot := by
    rintro c mem rfl
    obtain ⟨i, -, slot⟩ := placed_slot_of_mem placed mem
    exact other (by simp [slot])
  rw [(putAll_effect (placed_nodup placed) put).2 x outside, rowsAt_dropParts,
    if_neg fun both => other ⟨both.1, both.2.1⟩]

theorem writeChunk_effect {g : ChunkGroup} (sound : s.Sound)
    (placed : ∀ contents, g.parts.map (sliceContent q fileId ids) = contents.map .ok →
      Placed fileId g.chunkId contents)
    (done : writeChunk q now fileId ids s o g = .ok (t, o')) :
    ∃ contents, g.parts.map (sliceContent q fileId ids) = contents.map .ok ∧
      ChunkWrite q.batchId contents (s.versions fileId g.chunkId) (t.versions fileId g.chunkId) ∧
      ∀ x, ¬ (x.1 = fileId ∧ x.2.1 = g.chunkId) → t.rowsAt x = s.rowsAt x := by
  obtain ⟨-, contents, made, ⟨rows, found, rfl⟩ | ⟨changed, first, put⟩⟩ := writeChunk_cases done
  · refine ⟨contents, made, confirm_write sound found q.batchId now, ?_⟩
    intro x other
    refine confirm_others sound found q.batchId now fun i _ => ?_
    rintro rfl
    exact other ⟨rfl, rfl⟩
  · refine ⟨contents, made, rewrite_write (placed contents made) changed put, ?_⟩
    intro x other
    exact rewrite_others (placed contents made) put other

end Staging

end SourceSlices
