import SourceSlices.Proofs.BatchView
import SourceSlices.Proofs.StagingEffect

/-!
The rows that a result stands for: one for each part, ordered by chunk and index. A batch shows a
result exactly when it shows the rows of every chunk of the result and no other row of the file.
-/
namespace SourceSlices

/-- Parts ordered by chunk and index. -/
def HandlerResult.inOrder (r : HandlerResult) : List Chunk :=
  r.chunks.mergeSort fun a b =>
    a.chunkId < b.chunkId || (a.chunkId = b.chunkId && a.partIndex ≤ b.partIndex)

namespace Staging

variable {q : StageRequest} {fileId : Int} {ids : SymbolIds} {s t : Store}

theorem mem_inOrder {r : HandlerResult} {p : Chunk} : p ∈ r.inOrder ↔ p ∈ r.chunks := by
  simp [HandlerResult.inOrder]

theorem inOrder_sorted (r : HandlerResult) : r.inOrder.Pairwise fun a b =>
    a.chunkId < b.chunkId ∨ a.chunkId = b.chunkId ∧ a.partIndex ≤ b.partIndex := by
  refine (List.pairwise_mergeSort (fun a b c ab bc => ?_) (fun a b => ?_) r.chunks).imp fun h => ?_
  · simp only [Bool.or_eq_true, Bool.and_eq_true, decide_eq_true_eq] at *
    rcases ab with ab | ⟨ab, le⟩ <;> rcases bc with bc | ⟨bc, le'⟩
    · exact Or.inl (String.lt_trans ab bc)
    · exact Or.inl (bc ▸ ab)
    · exact Or.inl (ab ▸ bc)
    · exact Or.inr ⟨ab.trans bc, Nat.le_trans le le'⟩
  · simp only [Bool.or_eq_true, Bool.and_eq_true, decide_eq_true_eq]
    rcases Std.lt_trichotomy a.chunkId b.chunkId with less | same | more
    · exact Or.inl (Or.inl less)
    · rcases Nat.le_total a.partIndex b.partIndex with le | ge
      · exact Or.inl (Or.inr ⟨same, le⟩)
      · exact Or.inr (Or.inr ⟨same.symm, ge⟩)
    · exact Or.inr (Or.inl more)
  · simpa only [Bool.or_eq_true, Bool.and_eq_true, decide_eq_true_eq] using h

theorem parts_distinct {chunks : List Chunk} (complete : ∀ g ∈ ChunkGroup.all chunks, g.Complete) :
    (chunks.map fun p => (p.chunkId, p.partIndex)).Nodup := by
  refine List.pairwise_map.2 (List.pairwise_iff_forall_sublist.2 fun {a b} sub same => ?_)
  obtain ⟨chunk, part⟩ := Prod.mk.inj same
  have whole := complete _ (ChunkGroup.ofPart_mem (sub.subset List.mem_cons_self)).1
  have distinct : ((ChunkGroup.partsOf chunks a.chunkId).map (·.partIndex)).Nodup :=
    whole.numbered ▸ List.nodup_range
  have both := (sub.filter fun p => decide (p.chunkId = a.chunkId)).map (·.partIndex)
  have perm := (List.mergeSort_perm (chunks.filter (·.chunkId = a.chunkId))
    fun a b => decide (a.partIndex ≤ b.partIndex)).map (·.partIndex)
  have apart := (perm.nodup_iff.1 distinct).sublist both
  simp [← chunk, part] at apart

theorem inOrder_strict {r : HandlerResult} (complete : ∀ g ∈ ChunkGroup.all r.chunks, g.Complete) :
    r.inOrder.Pairwise fun a b =>
      a.chunkId < b.chunkId ∨ a.chunkId = b.chunkId ∧ a.partIndex < b.partIndex := by
  have perm : r.inOrder.Perm r.chunks := List.mergeSort_perm _ _
  have distinct := (perm.map fun p => (p.chunkId, p.partIndex)).nodup_iff.2 (parts_distinct complete)
  refine ((inOrder_sorted r).and (List.pairwise_map.1 distinct)).imp fun {a b} both => ?_
  rcases both.1 with less | ⟨chunk, le⟩
  · exact Or.inl less
  · refine Or.inr ⟨chunk, Nat.lt_of_le_of_ne le fun part => both.2 ?_⟩
    rw [chunk, part]

theorem count_partIndex {r : HandlerResult} (countable : Countable r)
    (complete : ∀ g ∈ ChunkGroup.all r.chunks, g.Complete) {p : Chunk} (mem : p ∈ r.chunks) :
    count p.partIndex = (p.partIndex : Int) := by
  obtain ⟨there, inside⟩ := ChunkGroup.ofPart_mem mem
  have index : p.partIndex ∈ List.range (ChunkGroup.partsOf r.chunks p.chunkId).length :=
    (complete _ there).numbered ▸ List.mem_map_of_mem inside
  have bound := countable p.chunkId
  rw [List.mem_range] at index
  exact count_of_le (by omega)

/-- The rows that a result stands for, in order. -/
def Rows (q : StageRequest) (fileId : Int) (ids : SymbolIds) (rows : List SliceContent) : Prop :=
  q.result.inOrder.map (sliceContent q fileId ids) = rows.map .ok

theorem rows_ordered (countable : Countable q.result)
    (complete : ∀ g ∈ ChunkGroup.all q.result.chunks, g.Complete) {rows : List SliceContent}
    (all : Rows q fileId ids rows) : rows.Pairwise SliceContent.Before := by
  have length := length_of_map_ok all
  have slots (i : Nat) (here : i < rows.length) (there : i < q.result.inOrder.length) :
      rows[i].chunkId = q.result.inOrder[i].chunkId ∧
        rows[i].partIndex = (q.result.inOrder[i].partIndex : Int) := by
    obtain ⟨slot, -⟩ := sliceContent_columns (getElem_of_map_ok all there here)
    rw [count_partIndex countable complete (mem_inOrder.1 (List.getElem_mem there))] at slot
    exact Prod.mk.inj (Prod.mk.inj slot).2
  refine List.pairwise_iff_getElem.2 fun i j hi hj less => ?_
  have before := List.pairwise_iff_getElem.1 (inOrder_strict complete) i j (length ▸ hi)
    (length ▸ hj) less
  obtain ⟨chunk, part⟩ := slots i hi (length ▸ hi)
  obtain ⟨chunk', part'⟩ := slots j hj (length ▸ hj)
  unfold SliceContent.Before
  rw [chunk, part, chunk', part']
  exact before.imp_right fun same => ⟨same.1, Int.ofNat_lt.2 same.2⟩

/-- A row that one of the parts of a result stands for. -/
def PartRow (q : StageRequest) (fileId : Int) (ids : SymbolIds) (c : SliceContent) : Prop :=
  ∃ g ∈ ChunkGroup.all q.result.chunks, ∃ contents, GroupRows q fileId ids g contents ∧ c ∈ contents

theorem row_of_part (each : ∀ g ∈ ChunkGroup.all q.result.chunks,
      ∃ contents, GroupRows q fileId ids g contents) {p : Chunk} (mem : p ∈ q.result.chunks) :
    ∃ c, sliceContent q fileId ids p = .ok c ∧ PartRow q fileId ids c := by
  obtain ⟨there, inside⟩ := ChunkGroup.ofPart_mem mem
  obtain ⟨contents, rows⟩ := each _ there
  obtain ⟨i, bound, same⟩ := List.getElem_of_mem inside
  have bound' : i < contents.length := (length_of_map_ok rows.each).symm ▸ bound
  have done := getElem_of_map_ok rows.each bound bound'
  rw [same] at done
  exact ⟨contents[i], done, _, there, contents, rows, List.getElem_mem bound'⟩

theorem partRow_iff (each : ∀ g ∈ ChunkGroup.all q.result.chunks,
      ∃ contents, GroupRows q fileId ids g contents) {c : SliceContent} :
    PartRow q fileId ids c ↔ ∃ p ∈ q.result.chunks, sliceContent q fileId ids p = .ok c := by
  constructor
  · rintro ⟨g, there, contents, rows, inside⟩
    obtain ⟨i, bound, rfl⟩ := List.getElem_of_mem inside
    have bound' : i < g.parts.length := length_of_map_ok rows.each ▸ bound
    have mem : g.parts[i] ∈ ChunkGroup.partsOf q.result.chunks g.chunkId :=
      (ChunkGroup.mem_all there).2 ▸ List.getElem_mem bound'
    exact ⟨g.parts[i], (ChunkGroup.mem_partsOf.1 mem).1, getElem_of_map_ok rows.each bound' bound⟩
  · rintro ⟨p, mem, done⟩
    obtain ⟨c', done', row⟩ := row_of_part each mem
    exact Except.ok.inj (done'.symm.trans done) ▸ row

theorem rows_exist (each : ∀ g ∈ ChunkGroup.all q.result.chunks,
      ∃ contents, GroupRows q fileId ids g contents) :
    ∃ rows, Rows q fileId ids rows ∧ ∀ c, c ∈ rows ↔ PartRow q fileId ids c := by
  obtain ⟨rows, made⟩ : ∃ rows : List SliceContent,
      rows.map .ok = q.result.inOrder.map (sliceContent q fileId ids) := by
    refine exists_of_all_made fun x mem => ?_
    obtain ⟨p, there, rfl⟩ := List.mem_map.1 mem
    obtain ⟨c, done, -⟩ := row_of_part each (mem_inOrder.1 there)
    exact ⟨c, done.symm⟩
  refine ⟨rows, made.symm, fun c => ?_⟩
  have mem : (Except.ok c : Except Error SliceContent) ∈ rows.map .ok ↔ c ∈ rows :=
    List.mem_map_of_injective fun _ _ => Except.ok.inj
  rw [← mem, made, List.mem_map, partRow_iff each]
  simp only [mem_inOrder]

theorem groupRows_unique {g : ChunkGroup} {contents contents' : List SliceContent}
    (rows : GroupRows q fileId ids g contents) (rows' : GroupRows q fileId ids g contents') :
    contents = contents' :=
  List.map_injective_iff.2 (fun _ _ => Except.ok.inj) (rows.each.symm.trans rows'.each)

/-- A batch shows the parts of a chunk in their places, and nothing in any other place. -/
structure ShowsChunk (batch : String) (contents : List SliceContent) (versions : Int → List Slice) :
    Prop where
  parts : ∀ i (h : i < contents.length),
    (shownAmong batch (versions i)).map (·.content) = some contents[i]
  others : ∀ i : Int, i < 0 ∨ contents.length ≤ i → shownAmong batch (versions i) = none

/-- A batch shows the rows of a result in their slots, and nothing in any other slot of the file. -/
def ShowsParts (t : Store) (q : StageRequest) (fileId : Int) (ids : SymbolIds) : Prop :=
  ∀ c, PartRow q fileId ids c ↔
    c.fileId = fileId ∧ (t.shown? q.batchId c.slot).map (·.content) = some c

theorem part_of_shown (shows : ShowsParts t q fileId ids) {id : String} {i : Int} {r : Slice}
    (row : shownAmong q.batchId (t.versions fileId id i) = some r) :
    ∃ g ∈ ChunkGroup.all q.result.chunks, ∃ contents, GroupRows q fileId ids g contents ∧
      g.chunkId = id ∧ ∃ j : Nat, j < contents.length ∧ i = j := by
  obtain ⟨-, slot, -⟩ := Store.shown_spec (s := t) (x := (fileId, id, i)) row
  have shown : (t.shown? q.batchId r.content.slot).map (·.content) = some r.content := by
    rw [← Slice.slot_eq, slot, Store.shown?]
    exact congrArg (Option.map _) row
  obtain ⟨g, there, contents, own, inside⟩ := (shows r.content).2 ⟨congrArg Prod.fst slot, shown⟩
  obtain ⟨j, bound, slot'⟩ := placed_slot_of_mem own.placed inside
  have keys := slot'.symm.trans slot
  simp only [Prod.mk.injEq, true_and] at keys
  exact ⟨g, there, contents, own, keys.1, j, bound, keys.2.symm⟩

theorem showsChunk_of_parts (shows : ShowsParts t q fileId ids) {g : ChunkGroup}
    (there : g ∈ ChunkGroup.all q.result.chunks) {contents : List SliceContent}
    (own : GroupRows q fileId ids g contents) :
    ShowsChunk q.batchId contents (t.versions fileId g.chunkId) where
  parts i bound := by
    have here := ((shows _).1 ⟨g, there, contents, own, List.getElem_mem bound⟩).2
    rw [own.placed i bound] at here
    exact here
  others i range := by
    cases row : shownAmong q.batchId (t.versions fileId g.chunkId i) with
    | none => rfl
    | some r =>
      obtain ⟨g', there', contents', own', key, j, bound, index⟩ := part_of_shown shows row
      obtain rfl := ChunkGroup.eq_of_same_id there' there key
      obtain rfl := groupRows_unique own own'
      omega

theorem nothing_of_parts (shows : ShowsParts t q fileId ids) {id : String}
    (other : id ∉ ChunkGroup.idsOf q.result.chunks) (i : Int) :
    shownAmong q.batchId (t.versions fileId id i) = none := by
  cases row : shownAmong q.batchId (t.versions fileId id i) with
  | none => rfl
  | some r =>
    obtain ⟨g, there, contents, own, key, -⟩ := part_of_shown shows row
    exact absurd (key ▸ (ChunkGroup.mem_all there).1) other

theorem mem_of_showsChunk {c : SliceContent} {contents : List SliceContent}
    {versions : Int → List Slice} (view : ShowsChunk q.batchId contents versions)
    (shown : (shownAmong q.batchId (versions c.partIndex)).map (·.content) = some c) :
    c ∈ contents := by
  by_cases range : c.partIndex < 0 ∨ contents.length ≤ c.partIndex
  · rw [view.others c.partIndex range] at shown
    cases shown
  · obtain ⟨i, index⟩ := Int.eq_ofNat_of_zero_le (by omega : 0 ≤ c.partIndex)
    have bound : i < contents.length := by omega
    rw [index, view.parts i bound] at shown
    exact Option.some.inj shown ▸ List.getElem_mem bound

theorem parts_of_shows (each : ∀ g ∈ ChunkGroup.all q.result.chunks,
      ∃ contents, GroupRows q fileId ids g contents)
    (chunks : ∀ g ∈ ChunkGroup.all q.result.chunks, ∀ contents, GroupRows q fileId ids g contents →
      ShowsChunk q.batchId contents (t.versions fileId g.chunkId))
    (others : ∀ id, id ∉ ChunkGroup.idsOf q.result.chunks → ∀ i,
      shownAmong q.batchId (t.versions fileId id i) = none) : ShowsParts t q fileId ids := by
  intro c
  constructor
  · rintro ⟨g, there, contents, own, inside⟩
    obtain ⟨i, bound, rfl⟩ := List.getElem_of_mem inside
    have slot := own.placed i bound
    exact ⟨congrArg Prod.fst slot, slot ▸ (chunks g there contents own).parts i bound⟩
  · rintro ⟨file, shown⟩
    have slot : c.slot = (fileId, c.chunkId, c.partIndex) := file ▸ rfl
    rw [slot] at shown
    change (shownAmong q.batchId (t.versions fileId c.chunkId c.partIndex)).map _ = _ at shown
    by_cases inside : c.chunkId ∈ ChunkGroup.idsOf q.result.chunks
    · have there : ChunkGroup.mk c.chunkId _ ∈ ChunkGroup.all q.result.chunks :=
        List.mem_map_of_mem inside
      obtain ⟨contents, own⟩ := each _ there
      exact ⟨_, there, contents, own, mem_of_showsChunk (chunks _ there contents own) shown⟩
    · rw [others _ inside] at shown
      cases shown

/-- A batch shows exactly the rows of a result if it shows each of its chunks and no other chunk of
the file. -/
theorem shows_iff (sound : t.Sound) (countable : Countable q.result)
    (complete : ∀ g ∈ ChunkGroup.all q.result.chunks, g.Complete)
    (each : ∀ g ∈ ChunkGroup.all q.result.chunks, ∃ contents, GroupRows q fileId ids g contents) :
    Rows q fileId ids ((t.fileSlices q.batchId fileId).map (·.content)) ↔
      (∀ g ∈ ChunkGroup.all q.result.chunks, ∀ contents, GroupRows q fileId ids g contents →
        ShowsChunk q.batchId contents (t.versions fileId g.chunkId)) ∧
      ∀ id, id ∉ ChunkGroup.idsOf q.result.chunks → ∀ i,
        shownAmong q.batchId (t.versions fileId id i) = none := by
  obtain ⟨rows, all, members⟩ := rows_exist each
  have ordered := rows_ordered countable complete all
  have same : Rows q fileId ids ((t.fileSlices q.batchId fileId).map (·.content)) ↔
      (t.fileSlices q.batchId fileId).map (·.content) = rows := by
    constructor
    · intro view
      exact List.map_injective_iff.2 (fun _ _ => Except.ok.inj) (view.symm.trans all)
    · intro view
      exact view ▸ all
  rw [same, Store.fileSlices_contents_iff sound ordered]
  simp only [members]
  constructor
  · intro shows
    exact ⟨fun g there contents own => showsChunk_of_parts shows there own,
      fun id other i => nothing_of_parts shows other i⟩
  · rintro ⟨chunks, others⟩
    exact parts_of_shows each chunks others

end Staging

end SourceSlices
