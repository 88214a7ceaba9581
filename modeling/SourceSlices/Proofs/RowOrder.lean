import Mathlib.Order.Bounds.Defs
import SourceSlices.Proofs.ExactForest

/-!
Rows in any order. Slices that stand at different places are put together to the same trees whatever
order they come in: the parts of a chunk are sorted by their indices and the chunks by file, place and
id, and neither order leaves a tie. So the roots of the trees and the children of every node ascend.
-/
namespace SourceSlices

/-! ### Ends of a list -/

theorem least?_eq_min? (l : List Int) : least? l = l.min? := by
  have step : (fun a b : Int => if b < a then b else a) = min := by
    funext a b
    rw [Int.min_def]
    split <;> split <;> omega
  cases l with
  | nil => rfl
  | cons n rest => rw [least?, step, List.min?_cons']

theorem greatest?_eq_max? (l : List Int) : greatest? l = l.max? := by
  have step : (fun a b : Int => if a < b then b else a) = max := by
    funext a b
    rw [Int.max_def]
    split <;> split <;> omega
  cases l with
  | nil => rfl
  | cons n rest => rw [greatest?, step, List.max?_cons']

theorem total_eq_foldr (l : List Int) : total l = l.foldr (· + ·) 0 := by
  induction l with
  | nil => rfl
  | cons n rest ih => rw [total, ih, List.foldr_cons]

namespace WholeChunk

variable {rows rows' : List Slice} {c : WholeChunk}

theorem least?_parts_iff (column : SliceContent → Option Int) (n : Int) :
    least? (rows.filterMap fun r => column r.content) = some n ↔
      IsLeast {m | ∃ r ∈ rows, column r.content = some m} n := by
  rw [least?_eq_min?, List.min?_eq_some_iff]
  simp only [List.mem_filterMap]
  rfl

theorem greatest?_parts_iff (column : SliceContent → Option Int) (n : Int) :
    greatest? (rows.filterMap fun r => column r.content) = some n ↔
      IsGreatest {m | ∃ r ∈ rows, column r.content = some m} n := by
  rw [greatest?_eq_max?, List.max?_eq_some_iff]
  simp only [List.mem_filterMap]
  rfl

/-! ### One chunk -/

/-- Order by file, place and id, without ties. -/
def StrictlyBefore (a b : WholeChunk) : Prop :=
  a.fileId < b.fileId ∨ a.fileId = b.fileId ∧
    (a.position < b.position ∨ a.position = b.position ∧ a.chunkId < b.chunkId)

theorem strictlyBefore_of_before {a b : WholeChunk} (le : a.before b = true) (apart : a.key ≠ b.key) :
    a.StrictlyBefore b := by
  rcases before_iff.1 le with less | ⟨file, less | ⟨place, id⟩⟩
  · exact Or.inl less
  · exact Or.inr ⟨file, Or.inl less⟩
  · refine Or.inr ⟨file, Or.inr ⟨place, Std.not_le.1 fun back => apart ?_⟩⟩
    exact Prod.ext file (String.le_antisymm id back)

/-- A chunk whose columns are those of its parts, in the order of their indices. -/
structure Joined (c : WholeChunk) : Prop where
  ascending : c.parts.Pairwise (·.content.partIndex < ·.content.partIndex)
  text : c.text = String.join (c.parts.map (·.content.text))
  tokenCount : c.tokenCount = (c.parts.map (·.content.tokenCount)).foldr (· + ·) 0
  startLine : ∀ n, c.startLine = some n ↔ IsLeast {m | ∃ r ∈ c.parts, r.content.startLine = some m} n
  endLine : ∀ n, c.endLine = some n ↔ IsGreatest {m | ∃ r ∈ c.parts, r.content.endLine = some m} n
  startByte : ∀ n, c.startByte = some n ↔ IsLeast {m | ∃ r ∈ c.parts, r.content.startByte = some m} n
  endByte : ∀ n, c.endByte = some n ↔ IsGreatest {m | ∃ r ∈ c.parts, r.content.endByte = some m} n

theorem inOrder_of_perm (distinct : (rows.map (·.content.partIndex)).Nodup) (perm : rows.Perm rows') :
    inOrder rows = inOrder rows' := by
  have mine : (inOrder rows).Perm rows := List.mergeSort_perm _ _
  have other : (inOrder rows').Perm rows' := List.mergeSort_perm _ _
  refine List.Perm.eq_of_pairwise ?_ (inOrder_sorted rows) (inOrder_sorted rows')
    (mine.trans (perm.trans other.symm))
  intro a b ha hb ab ba
  have same : a.content.partIndex = b.content.partIndex := by omega
  exact List.inj_on_of_nodup_map distinct (mine.subset ha) (perm.symm.subset (other.subset hb)) same

theorem ofParts_of_inOrder (same : inOrder rows = inOrder rows') : ofParts rows = ofParts rows' := by
  unfold inOrder at same
  unfold ofParts
  rw [same]

theorem joined_of_ofParts (distinct : (rows.map (·.content.partIndex)).Nodup)
    (done : ofParts rows = .ok c) : c.Joined := by
  have perm : (inOrder rows).Perm rows := List.mergeSort_perm _ _
  have apart : (inOrder rows).Pairwise fun a b => a.content.partIndex ≠ b.content.partIndex :=
    List.pairwise_map.1 ((perm.map _).nodup_iff.2 distinct)
  -- Sorted indices that are distinct ascend without ties.
  have ascending : (inOrder rows).Pairwise (·.content.partIndex < ·.content.partIndex) := by
    apply ((inOrder_sorted rows).and apart).imp
    intro a b both
    have := both.1
    have := both.2
    omega
  cases sorted : inOrder rows with
  | nil =>
    rw [inOrder] at sorted
    simp only [ofParts, sorted] at done
    cases done
  | cons first rest =>
    rw [sorted] at ascending
    rw [inOrder] at sorted
    simp only [ofParts, sorted, bind_ok_iff] at done
    obtain ⟨m, read, done⟩ := done
    cases done
    constructor
    · exact ascending
    · rfl
    · exact total_eq_foldr _
    · exact least?_parts_iff (·.startLine)
    · exact greatest?_parts_iff (·.endLine)
    · exact least?_parts_iff (·.startByte)
    · exact greatest?_parts_iff (·.endByte)

end WholeChunk

/-- Roots that ascend, and children that ascend below every node. -/
inductive ChunkTree.Ordered : List ChunkTree → Prop where
  | forest {ts : List ChunkTree} (roots : ts.Pairwise fun t u => t.chunk.StrictlyBefore u.chunk)
      (below : ∀ t ∈ ts, Ordered t.children) : Ordered ts

namespace Recomposition

open WholeChunk

variable {rows rows' : List Slice} {chunks : List WholeChunk}

/-! ### All chunks -/

theorem index_nodup (distinct : (rows.map Slice.slot).Nodup) (key : ChunkKey) :
    ((partsOf rows key).map (·.content.partIndex)).Nodup := by
  have apart : (partsOf rows key).Pairwise fun a b => a.slot ≠ b.slot :=
    (List.pairwise_map.1 distinct).filter _
  apply List.pairwise_map.2
  apply apart.imp_of_mem
  intro a b ha hb different same
  obtain ⟨file, id⟩ := Prod.mk.inj ((mem_partsOf.1 ha).2.trans (mem_partsOf.1 hb).2.symm)
  exact different (Prod.ext file (Prod.ext id same))

theorem ofParts_of_perm (distinct : (rows.map Slice.slot).Nodup) (perm : rows.Perm rows')
    (key : ChunkKey) : ofParts (partsOf rows key) = ofParts (partsOf rows' key) :=
  ofParts_of_inOrder (inOrder_of_perm (index_nodup distinct key) (perm.filter _))

theorem chunkKeys_perm (perm : rows.Perm rows') : (chunkKeys rows).Perm (chunkKeys rows') := by
  refine (List.perm_ext_iff_of_nodup (nodup_eraseDups _) (nodup_eraseDups _)).2 fun key => ?_
  change key ∈ chunkKeys rows ↔ key ∈ chunkKeys rows'
  simp only [mem_chunkKeys, perm.mem_iff]

theorem sort_of_perm {found found' : List WholeChunk} (apart : (found.map key).Nodup)
    (perm : found.Perm found') : found.mergeSort before = found'.mergeSort before := by
  have sorted (l : List WholeChunk) : (l.mergeSort before).Pairwise fun a b => a.before b = true := by
    apply List.pairwise_mergeSort
    · intro a b c
      exact before_trans
    · exact before_total
  have mine := List.mergeSort_perm found before
  have other := List.mergeSort_perm found' before
  refine List.Perm.eq_of_pairwise ?_ (sorted found) (sorted found')
    (mine.trans (perm.trans other.symm))
  intro a b ha hb ab ba
  exact List.inj_on_of_nodup_map apart (mine.subset ha) (perm.symm.subset (other.subset hb))
    (before_antisymm ab ba)

/-- The chunks of rows are the same in whatever order the rows come. -/
theorem gather_of_perm (distinct : (rows.map Slice.slot).Nodup) (perm : rows.Perm rows')
    (done : gather rows = .ok chunks) : gather rows' = .ok chunks := by
  unfold gather at done ⊢
  cases made : (groups rows).mapM ofParts with
  | error e => simp [made, Except.map] at done
  | ok found =>
    simp only [made, Except.map, Except.ok.injEq] at done
    have all := mapM_ok_iff.1 made
    rw [groups_eq, List.map_map] at all
    have same : (chunkKeys rows').map (ofParts ∘ partsOf rows') =
        (chunkKeys rows').map (ofParts ∘ partsOf rows) := by
      apply List.map_congr_left
      intro key _
      exact (ofParts_of_perm distinct perm key).symm
    have moved : ((chunkKeys rows').map (ofParts ∘ partsOf rows')).Perm (found.map .ok) := by
      rw [same, ← all]
      exact ((chunkKeys_perm perm).map _).symm
    obtain ⟨found', all'⟩ : ∃ found' : List WholeChunk,
        found'.map .ok = (chunkKeys rows').map (ofParts ∘ partsOf rows') := by
      apply exists_of_all_made
      intro x mem
      obtain ⟨c, -, own⟩ := List.mem_map.1 (moved.subset mem)
      exact ⟨c, own⟩
    have again : found'.Perm found := by
      rw [← all'] at moved
      exact (List.map_perm_map_iff fun a b same => Except.ok.inj same).1 moved
    -- Keys of chunks are distinct, so there is only one order in which they are sorted.
    have apart : (found'.map key).Nodup := by
      have := (gathered made).apart
      rw [((List.mergeSort_perm found before).map key).nodup_iff] at this
      exact (again.map key).nodup_iff.2 this
    have made' : (groups rows').mapM ofParts = .ok found' := by
      rw [mapM_ok_iff, groups_eq, List.map_map, all']
    rw [made', ← done]
    exact congrArg Except.ok (sort_of_perm apart again)

theorem joined_of_gather (distinct : (rows.map Slice.slot).Nodup) (done : gather rows = .ok chunks)
    {c : WholeChunk} (mem : c ∈ chunks) : c.Joined := by
  unfold gather at done
  cases made : (groups rows).mapM ofParts with
  | error e => simp [made, Except.map] at done
  | ok found =>
    simp only [made, Except.map, Except.ok.injEq] at done
    have all := mapM_ok_iff.1 made
    rw [groups_eq, List.map_map] at all
    have there : c ∈ found := (List.mergeSort_perm found before).subset (done ▸ mem)
    have own : Except.ok c ∈ (chunkKeys rows).map (ofParts ∘ partsOf rows) :=
      all ▸ List.mem_map_of_mem there
    obtain ⟨key, -, one⟩ := List.mem_map.1 own
    exact joined_of_ofParts (index_nodup distinct key) one

/-! ### The trees -/

theorem recompose_of_perm (distinct : (rows.map Slice.slot).Nodup) (perm : rows.Perm rows')
    {trees : List ChunkTree} (done : recompose rows = .ok trees) : recompose rows' = .ok trees := by
  obtain ⟨chunks, parents, made, rest⟩ := recompose_ok_iff.1 done
  exact recompose_ok_iff.2 ⟨chunks, parents, gather_of_perm distinct perm made, rest⟩

theorem childrenOf_ascending (parents : List (Option Nat)) (parent : Option Nat) :
    (childrenOf parents parent).Pairwise (· < ·) :=
  List.pairwise_lt_range.filter _

theorem Gathered.strict (gathered : Gathered rows chunks) :
    chunks.Pairwise fun a b => a.StrictlyBefore b := by
  have apart : chunks.Pairwise fun a b => a.key ≠ b.key := List.pairwise_map.1 gathered.apart
  apply (gathered.sorted.and apart).imp
  intro a b both
  exact strictlyBefore_of_before both.1 both.2

/-- The trees below ascending places are ordered. -/
theorem ordered_assemble {parents : List (Option Nat)} (length : parents.length = chunks.length)
    (strict : chunks.Pairwise fun a b => a.StrictlyBefore b) (fuel : Nat) {level : List Nat}
    (ascending : level.Pairwise (· < ·)) (bound : ∀ i ∈ level, i < chunks.length) :
    ChunkTree.Ordered
      (level.flatMap (assemble chunks.toArray (layout parents chunks.length) fuel)) := by
  -- Level by level: the children of a place are found in ascending order.
  induction fuel generalizing level with
  | zero =>
    have none : level.flatMap (assemble chunks.toArray (layout parents chunks.length) 0) = [] := by
      simp [List.flatMap_eq_nil_iff, assemble]
    rw [none]
    apply ChunkTree.Ordered.forest .nil
    intro t mem
    cases mem
  | succ fuel ih =>
    have node {i : Nat} (mem : i ∈ level) :=
      assemble_some (List.getElem?_eq_getElem (bound i mem)) parents fuel
    constructor
    · apply List.pairwise_flatMap.2
      constructor
      · intro i mem
        rw [node mem]
        exact List.pairwise_singleton _ _
      · apply ascending.imp_of_mem
        intro i j hi hj less t ht u hu
        rw [node hi, List.mem_singleton] at ht
        rw [node hj, List.mem_singleton] at hu
        subst ht
        subst hu
        exact List.pairwise_iff_getElem.1 strict i j _ _ less
    · intro t mem
      obtain ⟨i, here, inside⟩ := List.mem_flatMap.1 mem
      rw [node here, List.mem_singleton] at inside
      subst inside
      apply ih (childrenOf_ascending parents (some i))
      intro c child
      exact length ▸ (List.getElem?_eq_some_iff.1 (mem_childrenOf.1 child)).1

/-- Slices that stand at different places can be put together in every order or in none, and then to
the same trees. Their roots and the children of every node ascend by file, place and id, and every node
holds what its parts say. -/
theorem recompose_any_order (distinct : (rows.map Slice.slot).Nodup) (perm : rows.Perm rows') :
    (Succeeds (recompose rows) ↔ Succeeds (recompose rows')) ∧
      ∀ trees, recompose rows = .ok trees → recompose rows' = .ok trees ∧ ChunkTree.Ordered trees ∧
        ∀ c ∈ ChunkTree.forest trees, c.Joined ∧ c.parts.Perm (partsOf rows c.key) := by
  have distinct' : (rows'.map Slice.slot).Nodup := (perm.map _).nodup_iff.1 distinct
  constructor
  · constructor
    · rintro ⟨trees, done⟩
      exact ⟨trees, recompose_of_perm distinct perm done⟩
    · rintro ⟨trees, done⟩
      exact ⟨trees, recompose_of_perm distinct' perm.symm done⟩
  intro trees done
  have assembled := assembled_of_recompose done
  obtain ⟨chunks, parents, made, links, acyclic, rfl⟩ := recompose_ok_iff.1 done
  have length := length_of_map_ok links
  have all : ChunkTree.sizes (grown chunks parents (chunks.length + 1)) = chunks.length :=
    (sizes_grown_iff length (inside_of_links links) (by omega)).2 acyclic
  refine ⟨recompose_of_perm distinct perm done, ?_, ?_⟩
  · apply ordered_assemble length (gathered_of_gather made).strict
    · exact childrenOf_ascending parents none
    · intro i root
      exact length ▸ (List.getElem?_eq_some_iff.1 (mem_childrenOf.1 root)).1
  · intro c mem
    have there : c ∈ chunks := (forest_perm length rfl all).subset mem
    exact ⟨joined_of_gather distinct made there, assembled.parts c mem⟩

/-- The rows of a page with a style, the last one first. -/
theorem page_from_its_end : (pageRows.map Slice.slot).Nodup ∧ pageRows.Perm pageRows.reverse ∧
    ∃ trees, recompose pageRows = .ok trees ∧ recompose pageRows.reverse = .ok trees ∧
      ChunkTree.Ordered trees ∧
        ∀ c ∈ ChunkTree.forest trees, c.Joined ∧ c.parts.Perm (partsOf pageRows c.key) := by
  have distinct : (pageRows.map Slice.slot).Nodup := by decide
  have perm : pageRows.Perm pageRows.reverse := (List.reverse_perm pageRows).symm
  obtain ⟨trees, done⟩ := (recompose_succeeds_iff distinct).2 wellLinked_pageRows
  exact ⟨distinct, perm, trees, done, (recompose_any_order distinct perm).2 trees done⟩

end Recomposition

end SourceSlices
