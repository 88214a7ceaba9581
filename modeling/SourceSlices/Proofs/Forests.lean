import Mathlib.Data.List.Nodup
import Mathlib.Data.List.Perm.Subperm
import SourceSlices.Recomposition

/-!
Trees made from links to parents. A walk from the roots downwards meets no place twice, since a place
has one parent and so one distance from its root. A walk that has met as many places as there are has
met all of them.
-/
namespace SourceSlices

namespace ChunkTree

mutual

/-- The chunks of a tree, each before what hangs below it. -/
def chunks : ChunkTree → List WholeChunk
  | .node c cs => c :: forest cs

def forest : List ChunkTree → List WholeChunk
  | [] => []
  | t :: rest => t.chunks ++ forest rest

end

mutual

theorem length_chunks (t : ChunkTree) : t.chunks.length = t.size := by
  cases t with
  | node c cs => simp [chunks, size, length_forest cs]

theorem length_forest (ts : List ChunkTree) : (forest ts).length = sizes ts := by
  cases ts with
  | nil => rfl
  | cons t rest => simp [forest, sizes, length_chunks t, length_forest rest]

end

theorem forest_append (ts us : List ChunkTree) : forest (ts ++ us) = forest ts ++ forest us := by
  induction ts with
  | nil => rfl
  | cons t rest ih => simp [forest, ih]

theorem forest_flatMap {α : Type} (l : List α) (f : α → List ChunkTree) :
    forest (l.flatMap f) = l.flatMap fun a => forest (f a) := by
  induction l with
  | nil => rfl
  | cons a rest ih => simp [forest_append, ih]

end ChunkTree

namespace Recomposition

variable {parents : List (Option Nat)} {fuel : Nat}

theorem mem_childrenOf {parent : Option Nat} {i : Nat} :
    i ∈ childrenOf parents parent ↔ parents[i]? = some parent := by
  simp only [childrenOf, List.mem_filter, List.mem_range, decide_eq_true_eq, and_iff_right_iff_imp]
  intro there
  exact (List.getElem?_eq_some_iff.1 there).1

theorem nodup_childrenOf (parents : List (Option Nat)) (parent : Option Nat) :
    (childrenOf parents parent).Nodup :=
  List.nodup_range.filter _

/-- The places that are met on the way down from one. -/
def walk (parents : List (Option Nat)) : Nat → Nat → List Nat
  | 0, _ => []
  | fuel + 1, i => i :: (childrenOf parents (some i)).flatMap (walk parents fuel)

/-- The place so many links above one. -/
def rise (parents : List (Option Nat)) : Nat → Nat → Option Nat
  | 0, x => some x
  | n + 1, x => (rise parents n x).bind fun i => (parents[i]?).join

/-- The number of links between a place and its root. -/
inductive Depth (parents : List (Option Nat)) : Nat → Nat → Prop where
  | root {i : Nat} (top : parents[i]? = some none) : Depth parents i 0
  | child {i p d : Nat} (link : parents[i]? = some (some p)) (deep : Depth parents p d) :
      Depth parents i (d + 1)

theorem depth_unique {i d e : Nat} (hd : Depth parents i d) (he : Depth parents i e) : d = e := by
  induction hd generalizing e with
  | root top =>
    cases he with
    | root => rfl
    | child link => simp [top] at link
  | child link deep ih =>
    cases he with
    | root top => simp [top] at link
    | child link' deep' =>
      obtain rfl : _ = _ := by simpa [link] using link'
      rw [ih deep']

theorem mem_walk {i x : Nat} (mem : x ∈ walk parents fuel i) : ∃ n, rise parents n x = some i := by
  induction fuel generalizing i with
  | zero => cases mem
  | succ fuel ih =>
    rcases List.mem_cons.1 mem with rfl | mem
    · exact ⟨0, rfl⟩
    · obtain ⟨c, child, inside⟩ := List.mem_flatMap.1 mem
      obtain ⟨n, up⟩ := ih inside
      exact ⟨n + 1, by simp [rise, up, mem_childrenOf.1 child]⟩

theorem depth_of_rise {n x i d : Nat} (up : rise parents n x = some i) (deep : Depth parents i d) :
    Depth parents x (d + n) := by
  induction n generalizing i d with
  | zero =>
    obtain rfl := Option.some.inj up
    exact deep
  | succ n ih =>
    obtain ⟨c, upper, link⟩ := Option.bind_eq_some_iff.1 up
    have deep' := ih upper (.child (Option.join_eq_some_iff.1 link) deep)
    rwa [Nat.add_right_comm] at deep'

theorem eq_of_common {i j x d : Nat} (hi : Depth parents i d) (hj : Depth parents j d)
    (mi : x ∈ walk parents fuel i) (mj : x ∈ walk parents fuel j) : i = j := by
  obtain ⟨n, up⟩ := mem_walk mi
  obtain ⟨m, up'⟩ := mem_walk mj
  have same := depth_unique (depth_of_rise up hi) (depth_of_rise up' hj)
  obtain rfl : n = m := by omega
  exact Option.some.inj (up.symm.trans up')

theorem nodup_walks {level : List Nat} {d : Nat} (distinct : level.Nodup)
    (deep : ∀ i ∈ level, Depth parents i d) : (level.flatMap (walk parents fuel)).Nodup := by
  induction fuel generalizing level d with
  | zero =>
    have none : level.flatMap (walk parents 0) = [] := by
      simp [List.flatMap_eq_nil_iff, walk]
    exact none ▸ List.nodup_nil
  | succ fuel ih =>
    refine List.nodup_flatMap.2 ⟨fun i mem => ?_, distinct.imp_of_mem fun {i j} hi hj apart => ?_⟩
    · have children (c : Nat) (child : c ∈ childrenOf parents (some i)) : Depth parents c (d + 1) :=
        .child (mem_childrenOf.1 child) (deep i mem)
      refine List.nodup_cons.2 ⟨fun again => ?_, ih (nodup_childrenOf _ _) children⟩
      obtain ⟨c, child, inside⟩ := List.mem_flatMap.1 again
      obtain ⟨n, up⟩ := mem_walk inside
      have := depth_unique (deep i mem) (depth_of_rise up (children c child))
      omega
    · intro x xi xj
      exact apart (eq_of_common (deep i hi) (deep j hj) xi xj)

theorem walk_lt {i x : Nat} (bound : i < parents.length) (mem : x ∈ walk parents fuel i) :
    x < parents.length := by
  induction fuel generalizing i with
  | zero => cases mem
  | succ fuel ih =>
    rcases List.mem_cons.1 mem with rfl | mem
    · exact bound
    · obtain ⟨c, child, inside⟩ := List.mem_flatMap.1 mem
      exact ih (List.getElem?_eq_some_iff.1 (mem_childrenOf.1 child)).1 inside

/-- The places below which chunks hang, as `recompose` lays them out. -/
def layout (parents : List (Option Nat)) (n : Nat) : Array (List Nat) :=
  ((List.range n).map fun i => childrenOf parents (some i)).toArray

theorem forest_assemble {chunks : List WholeChunk} (length : parents.length = chunks.length)
    {i : Nat} (bound : i < chunks.length) :
    ChunkTree.forest (assemble chunks.toArray (layout parents chunks.length) fuel i) =
      (walk parents fuel i).filterMap (chunks[·]?) := by
  induction fuel generalizing i with
  | zero => rfl
  | succ fuel ih =>
    have below : (layout parents chunks.length)[i]?.getD [] = childrenOf parents (some i) := by
      simp [layout, bound]
    simp only [assemble, List.getElem?_toArray, List.getElem?_eq_getElem bound, below,
      ChunkTree.forest, ChunkTree.chunks, List.append_nil, walk, List.filterMap_cons,
      ChunkTree.forest_flatMap, List.filterMap_flatMap]
    refine congrArg _ (List.flatMap_congr fun c child => ih ?_)
    exact length ▸ (List.getElem?_eq_some_iff.1 (mem_childrenOf.1 child)).1

theorem filterMap_range (chunks : List WholeChunk) :
    (List.range chunks.length).filterMap (chunks[·]?) = chunks := by
  have each : (List.range chunks.length).map (chunks[·]?) = chunks.map some := by
    refine List.ext_getElem (by simp) fun i _ _ => ?_
    simp
  calc (List.range chunks.length).filterMap (chunks[·]?)
      = ((List.range chunks.length).map (chunks[·]?)).filterMap id := by rw [List.filterMap_map]; rfl
    _ = chunks := by rw [each, List.filterMap_map]; exact List.filterMap_some

/-- The places that are met on the way down from the roots. -/
def places (parents : List (Option Nat)) (fuel : Nat) : List Nat :=
  (childrenOf parents none).flatMap (walk parents fuel)

theorem nodup_places (parents : List (Option Nat)) (fuel : Nat) : (places parents fuel).Nodup :=
  nodup_walks (nodup_childrenOf _ _) fun _ root => .root (mem_childrenOf.1 root)

theorem places_subset (parents : List (Option Nat)) (fuel : Nat) :
    places parents fuel ⊆ List.range parents.length := by
  intro x mem
  obtain ⟨i, root, below⟩ := List.mem_flatMap.1 mem
  exact List.mem_range.2 (walk_lt (List.getElem?_eq_some_iff.1 (mem_childrenOf.1 root)).1 below)

theorem forest_places {chunks : List WholeChunk} (length : parents.length = chunks.length) :
    ChunkTree.forest ((childrenOf parents none).flatMap
        (assemble chunks.toArray (layout parents chunks.length) fuel)) =
      (places parents fuel).filterMap (chunks[·]?) := by
  rw [places, ChunkTree.forest_flatMap, List.filterMap_flatMap]
  refine List.flatMap_congr fun i root => forest_assemble length ?_
  exact length ▸ (List.getElem?_eq_some_iff.1 (mem_childrenOf.1 root)).1

/-- Trees that hold as many chunks as there are hold each of them once. -/
theorem forest_perm {chunks : List WholeChunk} (length : parents.length = chunks.length)
    {trees : List ChunkTree}
    (made : trees = (childrenOf parents none).flatMap
      (assemble chunks.toArray (layout parents chunks.length) fuel))
    (all : ChunkTree.sizes trees = chunks.length) : (ChunkTree.forest trees).Perm chunks := by
  have met : ChunkTree.forest trees = (places parents fuel).filterMap (chunks[·]?) :=
    made ▸ forest_places length
  have inside : places parents fuel ⊆ List.range chunks.length := length ▸ places_subset parents fuel
  have enough : (List.range chunks.length).length ≤ (places parents fuel).length := by
    have := List.length_filterMap_le (chunks[·]?) (places parents fuel)
    rw [← met, ChunkTree.length_forest, all] at this
    simpa using this
  have perm := (List.subperm_of_subset (nodup_places parents fuel) inside).perm_of_length_le enough
  rw [met]
  exact (perm.filterMap _).trans (List.Perm.of_eq (filterMap_range chunks))

end Recomposition

end SourceSlices
