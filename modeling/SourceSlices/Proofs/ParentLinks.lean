import Mathlib.Data.Fintype.EquivFin
import Mathlib.Logic.Relation
import SourceSlices.Proofs.Forests

/-!
Links to parents without a cycle. In a finite list of places, the links have no cycle exactly when
every place has a root above it, and exactly then the walk from the roots meets every place. In the
trees made by the walk every place that has a parent stands directly below it.
-/
namespace SourceSlices

/-- Without a cycle, what holds of one of finitely many things as soon as it holds of those above it
holds of all of them. -/
theorem induction_of_acyclic {α : Type} {l : List α} {rel : α → α → Prop}
    (acyclic : ∀ a, ¬ Relation.TransGen rel a a) {P : α → Prop}
    (next : ∀ a ∈ l, (∀ b ∈ l, rel a b → P b) → P a) {a : α} (mem : a ∈ l) : P a := by
  let above (p i : Fin l.length) : Prop := Relation.TransGen rel l[i] l[p]
  have : IsTrans (Fin l.length) above := ⟨fun _ _ _ qp pi => pi.trans qp⟩
  have : Std.Irrefl above := ⟨fun i again => acyclic _ again⟩
  have founded : WellFounded above := Finite.wellFounded_of_trans_of_irrefl above
  obtain ⟨i, bound, rfl⟩ := List.getElem_of_mem mem
  apply founded.induction (C := fun i => P l[i]) ⟨i, bound⟩
  intro i ih
  apply next _ (List.getElem_mem i.isLt)
  intro b there link
  obtain ⟨p, bound, rfl⟩ := List.getElem_of_mem there
  exact ih ⟨p, bound⟩ (.single link)

/-- Links that go down in rank form no cycle. -/
theorem acyclic_of_rank {α : Type} {rel : α → α → Prop} (rank : α → Nat)
    (lower : ∀ a b, rel a b → rank b < rank a) (a : α) : ¬ Relation.TransGen rel a a := by
  have below {a b : α} (above : Relation.TransGen rel a b) : rank b < rank a := by
    induction above with
    | single link => exact lower _ _ link
    | tail _ link ih => exact Nat.lt_trans (lower _ _ link) ih
  intro again
  exact Nat.lt_irrefl _ (below again)

namespace ChunkTree

mutual

/-- The pairs of a chunk and another one that hangs directly below it. -/
def links : ChunkTree → List (WholeChunk × WholeChunk)
  | .node c cs => cs.map (fun t => (c, t.chunk)) ++ forestLinks cs

def forestLinks : List ChunkTree → List (WholeChunk × WholeChunk)
  | [] => []
  | t :: rest => t.links ++ forestLinks rest

end

theorem mem_forestLinks {ts : List ChunkTree} {e : WholeChunk × WholeChunk} :
    e ∈ forestLinks ts ↔ ∃ t ∈ ts, e ∈ t.links := by
  induction ts with
  | nil => simp [forestLinks]
  | cons t rest ih => simp [forestLinks, ih]

end ChunkTree

namespace Recomposition

variable {parents : List (Option Nat)} {fuel : Nat}

/-- A place hangs directly below another one. -/
def Link (parents : List (Option Nat)) (i p : Nat) : Prop := parents[i]? = some (some p)

theorem link_lt {i p : Nat} (link : Link parents i p) : i < parents.length :=
  (List.getElem?_eq_some_iff.1 link).1

theorem link_unique {i p q : Nat} (one : Link parents i p) (other : Link parents i q) : p = q := by
  simpa using one.symm.trans other

/-- No link leads out of the list. -/
def Inside (parents : List (Option Nat)) : Prop := ∀ i p, Link parents i p → p < parents.length

/-- No place is above itself. -/
def Acyclic (parents : List (Option Nat)) : Prop := ∀ i, ¬ Relation.TransGen (Link parents) i i

def Rooted (parents : List (Option Nat)) : Prop := ∀ i, i < parents.length → ∃ d, Depth parents i d

/-! ### Places with a root above them -/

theorem rooted_of_acyclic (inside : Inside parents) (acyclic : Acyclic parents) : Rooted parents := by
  intro i bound
  apply induction_of_acyclic (l := List.range parents.length) acyclic (P := fun i => ∃ d, Depth parents i d)
  · intro i mem ih
    have here : i < parents.length := List.mem_range.1 mem
    cases link : parents[i] with
    | none => exact ⟨0, .root (by simp [here, link])⟩
    | some p =>
      have linked : Link parents i p := by simp [Link, here, link]
      obtain ⟨d, deep⟩ := ih p (List.mem_range.2 (inside i p linked)) linked
      exact ⟨d + 1, .child linked deep⟩
  · exact List.mem_range.2 bound

theorem lower_of_above {i p d : Nat} (above : Relation.TransGen (Link parents) i p)
    (deep : Depth parents i d) : ∃ e, e < d ∧ Depth parents p e := by
  induction above with
  | single link =>
    cases deep with
    | root top => simp [Link, top] at link
    | child link' deep' =>
      obtain rfl := link_unique link link'
      exact ⟨_, Nat.lt_succ_self _, deep'⟩
  | tail _ link ih =>
    obtain ⟨e, less, deep'⟩ := ih
    cases deep' with
    | root top => simp [Link, top] at link
    | child link' deep'' =>
      obtain rfl := link_unique link link'
      exact ⟨_, Nat.lt_of_succ_lt less, deep''⟩

theorem acyclic_of_rooted (rooted : Rooted parents) : Acyclic parents := by
  intro i again
  have bound : i < parents.length := by
    obtain ⟨p, link, -⟩ := Relation.TransGen.head'_iff.1 again
    exact link_lt link
  obtain ⟨d, deep⟩ := rooted i bound
  obtain ⟨e, less, deep'⟩ := lower_of_above again deep
  exact Nat.ne_of_lt less (depth_unique deep' deep)

theorem acyclic_iff_rooted (inside : Inside parents) : Acyclic parents ↔ Rooted parents :=
  ⟨rooted_of_acyclic inside, acyclic_of_rooted⟩

theorem exists_depth {i d : Nat} (deep : Depth parents i d) {e : Nat} (le : e ≤ d) :
    ∃ x, x < parents.length ∧ Depth parents x e := by
  induction deep with
  | root top =>
    obtain rfl := Nat.le_zero.1 le
    exact ⟨_, (List.getElem?_eq_some_iff.1 top).1, .root top⟩
  | child link deep ih =>
    rcases Nat.lt_or_eq_of_le le with less | rfl
    · exact ih (Nat.le_of_lt_succ less)
    · exact ⟨_, link_lt link, .child link deep⟩

theorem depth_lt {i d : Nat} (deep : Depth parents i d) : d < parents.length := by
  choose place bound own using fun e : Fin (d + 1) => exists_depth deep (Nat.le_of_lt_succ e.isLt)
  have distinct : Function.Injective fun e => (⟨place e, bound e⟩ : Fin parents.length) := by
    intro e f same
    have depth_e := own e
    rw [Fin.mk.inj same] at depth_e
    exact Fin.ext (depth_unique depth_e (own f))
  have few := Fintype.card_le_of_injective _ distinct
  rwa [Fintype.card_fin, Fintype.card_fin] at few

/-! ### The walk -/

theorem walk_next {i p x : Nat} (met : p ∈ walk parents fuel i) (link : Link parents x p) :
    x ∈ walk parents (fuel + 1) i := by
  induction fuel generalizing i with
  | zero => cases met
  | succ fuel ih =>
    refine List.mem_cons_of_mem _ (List.mem_flatMap.2 ?_)
    rcases List.mem_cons.1 met with rfl | met
    · exact ⟨x, mem_childrenOf.2 link, List.mem_cons_self⟩
    · obtain ⟨c, child, inside⟩ := List.mem_flatMap.1 met
      exact ⟨c, child, ih inside⟩

theorem walk_mono {i x more : Nat} (met : x ∈ walk parents fuel i) (le : fuel ≤ more) :
    x ∈ walk parents more i := by
  induction fuel generalizing i more with
  | zero => cases met
  | succ fuel ih =>
    obtain ⟨more, rfl⟩ := Nat.exists_eq_succ_of_ne_zero (by omega : more ≠ 0)
    rcases List.mem_cons.1 met with rfl | met
    · exact List.mem_cons_self
    · obtain ⟨c, child, inside⟩ := List.mem_flatMap.1 met
      exact List.mem_cons_of_mem _
        (List.mem_flatMap.2 ⟨c, child, ih inside (Nat.le_of_succ_le_succ le)⟩)

theorem met_of_depth {i d : Nat} (deep : Depth parents i d) :
    ∃ root ∈ childrenOf parents none, i ∈ walk parents (d + 1) root := by
  induction deep with
  | root top => exact ⟨_, mem_childrenOf.2 top, List.mem_cons_self⟩
  | child link deep ih =>
    obtain ⟨root, top, met⟩ := ih
    exact ⟨root, top, walk_next met link⟩

theorem mem_places_iff (enough : parents.length ≤ fuel) {i : Nat} :
    i ∈ places parents fuel ↔ ∃ d, Depth parents i d := by
  constructor
  · intro met
    obtain ⟨root, top, below⟩ := List.mem_flatMap.1 met
    obtain ⟨n, up⟩ := mem_walk below
    exact ⟨_, depth_of_rise up (.root (mem_childrenOf.1 top))⟩
  · rintro ⟨d, deep⟩
    obtain ⟨root, top, met⟩ := met_of_depth deep
    have := depth_lt deep
    exact List.mem_flatMap.2 ⟨root, top, walk_mono met (by omega)⟩

/-- The walk meets as many places as there are if and only if the links have no cycle. -/
theorem length_places_iff (inside : Inside parents) (enough : parents.length ≤ fuel) :
    (places parents fuel).length = parents.length ↔ Acyclic parents := by
  have distinct := nodup_places parents fuel
  have within := places_subset parents fuel
  rw [acyclic_iff_rooted inside]
  constructor
  · intro all i bound
    have perm := (List.subperm_of_subset distinct within).perm_of_length_le (by simp [all])
    exact (mem_places_iff enough).1 (perm.mem_iff.2 (List.mem_range.2 bound))
  · intro rooted
    have met : List.range parents.length ⊆ places parents fuel := fun i mem =>
      (mem_places_iff enough).2 (rooted i (List.mem_range.1 mem))
    have perm := (List.perm_ext_iff_of_nodup distinct List.nodup_range).2
      fun i => ⟨fun mem => within mem, fun mem => met mem⟩
    simpa using perm.length_eq

/-! ### Trees -/

variable {chunks : List WholeChunk} {a b : WholeChunk} {i x p : Nat}

/-- The trees that the walk makes of chunks. -/
def grown (chunks : List WholeChunk) (parents : List (Option Nat)) (fuel : Nat) : List ChunkTree :=
  (childrenOf parents none).flatMap (assemble chunks.toArray (layout parents chunks.length) fuel)

theorem sizes_grown (length : parents.length = chunks.length) :
    ChunkTree.sizes (grown chunks parents fuel) = (places parents fuel).length := by
  rw [← ChunkTree.length_forest, grown, forest_places length, List.filterMap_length_eq_length]
  intro i met
  have bound := List.mem_range.1 (places_subset parents fuel met)
  simp [← length, bound]

/-- The trees hold all chunks if and only if the links have no cycle. -/
theorem sizes_grown_iff (length : parents.length = chunks.length) (inside : Inside parents)
    (enough : parents.length ≤ fuel) :
    ChunkTree.sizes (grown chunks parents fuel) = chunks.length ↔ Acyclic parents := by
  rw [sizes_grown length, ← length, length_places_iff inside enough]

theorem assemble_some (here : chunks[i]? = some a) (parents : List (Option Nat)) (fuel : Nat) :
    assemble chunks.toArray (layout parents chunks.length) (fuel + 1) i =
      [.node a ((childrenOf parents (some i)).flatMap
        (assemble chunks.toArray (layout parents chunks.length) fuel))] := by
  obtain ⟨bound, same⟩ := List.getElem?_eq_some_iff.1 here
  simp [assemble, same, layout, bound]

theorem node_assemble (here : chunks[i]? = some a) (parents : List (Option Nat)) (fuel : Nat) :
    ∃ below, ChunkTree.node a below ∈
      assemble chunks.toArray (layout parents chunks.length) (fuel + 1) i := by
  rw [assemble_some here]
  exact ⟨_, List.mem_singleton.2 rfl⟩

theorem link_assemble (met : x ∈ walk parents fuel i) (link : Link parents x p) (lower : x ≠ i)
    (length : parents.length = chunks.length) (bound : i < chunks.length)
    (parent : chunks[p]? = some a) (child : chunks[x]? = some b) :
    (a, b) ∈ ChunkTree.forestLinks
      (assemble chunks.toArray (layout parents chunks.length) fuel i) := by
  induction fuel generalizing i with
  | zero => cases met
  | succ fuel ih =>
    obtain ⟨c, below, inside⟩ := List.mem_flatMap.1 ((List.mem_cons.1 met).resolve_left lower)
    rw [assemble_some (List.getElem?_eq_getElem bound)]
    simp only [ChunkTree.forestLinks, ChunkTree.links, List.append_nil, List.mem_append]
    by_cases here : x = c
    · subst here
      obtain rfl : p = i := link_unique link (mem_childrenOf.1 below)
      obtain ⟨fuel, rfl⟩ : ∃ more, fuel = more + 1 := by
        refine Nat.exists_eq_succ_of_ne_zero fun none => ?_
        rw [none] at inside
        cases inside
      obtain rfl := Option.some.inj ((List.getElem?_eq_getElem bound).symm.trans parent)
      obtain ⟨cs, node⟩ := node_assemble child parents fuel
      exact Or.inl (List.mem_map.2 ⟨_, List.mem_flatMap.2 ⟨x, below, node⟩, rfl⟩)
    · have bound' : c < chunks.length :=
        length ▸ (List.getElem?_eq_some_iff.1 (mem_childrenOf.1 below)).1
      obtain ⟨t, mem, linked⟩ := ChunkTree.mem_forestLinks.1 (ih inside here bound')
      exact Or.inr (ChunkTree.mem_forestLinks.2 ⟨t, List.mem_flatMap.2 ⟨c, below, mem⟩, linked⟩)

theorem link_grown (length : parents.length = chunks.length) (met : x ∈ places parents fuel)
    (link : Link parents x p) (parent : chunks[p]? = some a) (child : chunks[x]? = some b) :
    (a, b) ∈ ChunkTree.forestLinks (grown chunks parents fuel) := by
  obtain ⟨root, top, below⟩ := List.mem_flatMap.1 met
  have bound : root < chunks.length :=
    length ▸ (List.getElem?_eq_some_iff.1 (mem_childrenOf.1 top)).1
  have lower : x ≠ root := by
    rintro rfl
    simp [Link, mem_childrenOf.1 top] at link
  obtain ⟨t, mem, linked⟩ := ChunkTree.mem_forestLinks.1
    (link_assemble below link lower length bound parent child)
  exact ChunkTree.mem_forestLinks.2 ⟨t, List.mem_flatMap.2 ⟨root, top, mem⟩, linked⟩

theorem root_grown (top : parents[i]? = some none) (here : chunks[i]? = some a) :
    a ∈ (grown chunks parents (fuel + 1)).map ChunkTree.chunk := by
  obtain ⟨below, node⟩ := node_assemble here parents fuel
  exact List.mem_map.2 ⟨_, List.mem_flatMap.2 ⟨i, mem_childrenOf.2 top, node⟩, rfl⟩

end Recomposition

end SourceSlices
