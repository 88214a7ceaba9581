import SourceSlices.Manifest
import SourceSlices.Proofs.JsonReadback
import SourceSlices.Proofs.MetadataKeys

/-!
Members of an object that belong to others. They are kept in the order of their keys, on every level, and
once they are in that order nothing changes them any more: what is taken out of an object and put into a
new one is taken out of that as it is.
-/
namespace SourceSlices

namespace SortedMap

variable {α : Type} {m : SortedMap α} {e : String × α} {l : List (String × α)}

theorem mem_foldl_insert (mem : e ∈ (l.foldl (fun m e => m.insert e.1 e.2) m).entries) :
    e ∈ m.entries ∨ e ∈ l := by
  induction l generalizing m with
  | nil => exact .inl mem
  | cons x rest ih =>
    rcases ih mem with old | later
    · rcases mem_insertEntry old with rfl | old
      · exact .inr List.mem_cons_self
      · exact .inl old
    · exact .inr (List.mem_cons_of_mem _ later)

theorem mem_ofList (mem : e ∈ (ofList l).entries) : e ∈ l := by
  rcases mem_foldl_insert mem with none | mem
  · cases none
  · exact mem

theorem find?_eq_some_iff {key : String} {a : α} : m.find? key = some a ↔ (key, a) ∈ m.entries := by
  obtain ⟨l, ascending⟩ := m
  constructor
  · intro found
    obtain ⟨e, there, rfl⟩ := Option.map_eq_some_iff.1 found
    have own : e.1 = key := by simpa using List.find?_some there
    exact own ▸ List.mem_of_find?_eq_some there
  · intro mem
    induction l with
    | nil => cases mem
    | cons e rest ih =>
      obtain ⟨less, tail⟩ := List.pairwise_cons.1 ascending
      rcases List.mem_cons.1 mem with rfl | mem
      · simp [find?]
      · have other : e.1 ≠ key := fun same => String.lt_irrefl _ (same ▸ less _ mem)
        simpa [find?, other] using ih tail mem

theorem ext_find? {n : SortedMap α} (same : ∀ key, m.find? key = n.find? key) : m = n := by
  have apart {l : List (String × α)} (ascending : Ascending l) : l.Nodup :=
    List.Pairwise.imp (fun {d e} less (same : d = e) => String.lt_irrefl _ (same ▸ less)) ascending
  have perm : m.entries.Perm n.entries :=
    (List.perm_ext_iff_of_nodup (apart m.ascending) (apart n.ascending)).2 fun e => by
      rw [← Prod.mk.eta (p := e), ← find?_eq_some_iff, ← find?_eq_some_iff, same]
  exact ext_entries (perm.eq_of_pairwise
    (fun _ _ _ _ less more => (String.lt_irrefl _ (String.lt_trans less more)).elim) m.ascending n.ascending)

theorem ofList_entries (m : SortedMap α) : ofList m.entries = m := foldl_insert_entries m

end SortedMap

namespace Json

mutual

theorem depth_sorted : (v : Json) → v.sorted.depth ≤ v.depth
  | .null | .bool _ | .int _ | .float _ | .str _ => Nat.le_refl _
  | .arr items => Nat.succ_le_succ (depth_sortedItems items)
  | .obj members => Nat.succ_le_succ (depthMembers_le.2 fun e mem =>
      depth_sortedMembers members e (SortedMap.mem_ofList mem))

theorem depth_sortedItems : (items : List Json) → depthItems (sortedItems items) ≤ depthItems items
  | [] => Nat.le_refl _
  | v :: rest => Nat.max_le.2 ⟨Nat.le_trans (depth_sorted v) (Nat.le_max_left _ _),
      Nat.le_trans (depth_sortedItems rest) (Nat.le_max_right _ _)⟩

theorem depth_sortedMembers : (members : List (String × Json)) →
    ∀ e ∈ sortedMembers members, e.2.depth ≤ depthMembers members
  | [], e, mem => by cases mem
  | (k, v) :: rest, e, mem => by
    rcases List.mem_cons.1 mem with rfl | mem
    · exact Nat.le_trans (depth_sorted v) (Nat.le_max_left _ _)
    · exact Nat.le_trans (depth_sortedMembers rest e mem) (Nat.le_max_right _ _)

end

theorem sortedMembers_own {members : List (String × Json)} (each : ∀ e ∈ members, e.2.sorted = e.2) :
    sortedMembers members = members := by
  induction members with
  | nil => rfl
  | cons e rest ih =>
    obtain ⟨own, others⟩ := List.forall_mem_cons.1 each
    rw [sortedMembers, own, ih others]

mutual

theorem sorted_sorted : (v : Json) → v.sorted.sorted = v.sorted
  | .null | .bool _ | .int _ | .float _ | .str _ => rfl
  | .arr items => by rw [sorted, sorted, sortedItems_sorted items]
  | .obj members => by
    rw [sorted, sorted, sortedMembers_own fun e mem =>
      sortedMembers_sorted members e (SortedMap.mem_ofList mem), SortedMap.ofList_entries]

theorem sortedItems_sorted : (items : List Json) → sortedItems (sortedItems items) = sortedItems items
  | [] => rfl
  | v :: rest => by rw [sortedItems, sortedItems, sorted_sorted v, sortedItems_sorted rest]

theorem sortedMembers_sorted : (members : List (String × Json)) →
    ∀ e ∈ sortedMembers members, e.2.sorted = e.2
  | [], e, mem => by cases mem
  | (k, v) :: rest, e, mem => by
    rcases List.mem_cons.1 mem with rfl | mem
    · exact sorted_sorted v
    · exact sortedMembers_sorted rest e mem

end

variable {key : String} {n : Nat} {v w : Json} {found : Option Json} {others : SortedMap Json}

/-- Members that have been taken out of an object next to the one of a key. -/
structure Foreign (key : String) (n : Nat) (others : SortedMap Json) : Prop where
  apart : ∀ e ∈ others.entries, e.1 ≠ key
  sorted : ∀ e ∈ others.entries, e.2.sorted = e.2
  depth : ∀ e ∈ others.entries, e.2.depth ≤ n

theorem foreign_empty (key : String) (n : Nat) : Foreign key n ∅ :=
  ⟨fun _ mem => (by cases mem), fun _ mem => (by cases mem), fun _ mem => (by cases mem)⟩

theorem mem_sortedMembers {e : String × Json} {members : List (String × Json)}
    (mem : e ∈ sortedMembers members) : ∃ d ∈ members, d.1 = e.1 := by
  induction members with
  | nil => cases mem
  | cons d rest ih =>
    rcases List.mem_cons.1 mem with rfl | mem
    · exact ⟨d, List.mem_cons_self, rfl⟩
    · obtain ⟨d', there, same⟩ := ih mem
      exact ⟨d', List.mem_cons_of_mem _ there, same⟩

/-- What is taken out of an object. -/
theorem foreign_of_taken (taken : takeMember? key w = some (found, others)) (deep : w.depth ≤ n + 1) :
    Foreign key n others ∧ ∀ v, found = some v → v.depth ≤ n := by
  cases w with
  | obj members =>
    have deep : ∀ e ∈ members, e.2.depth ≤ n := depthMembers_le.1 (Nat.le_of_succ_le_succ deep)
    have foreign : Foreign key n (SortedMap.ofList (sortedMembers (members.filter (·.1 ≠ key)))) := by
      refine ⟨fun e mem => ?_, fun e mem => ?_, fun e mem => ?_⟩
      · obtain ⟨d, there, same⟩ := mem_sortedMembers (SortedMap.mem_ofList mem)
        exact same ▸ of_decide_eq_true (List.mem_filter.1 there).2
      · exact sortedMembers_sorted _ e (SortedMap.mem_ofList mem)
      · exact Nat.le_trans (depth_sortedMembers _ e (SortedMap.mem_ofList mem))
          (depthMembers_le.2 fun d there => deep d (List.mem_of_mem_filter there))
    simp only [takeMember?] at taken
    split at taken
    · cases taken
      exact ⟨foreign, fun v none => by cases none⟩
    · rename_i k v' own
      cases taken
      refine ⟨foreign, fun v same => Option.some.inj same ▸ deep (k, v') ?_⟩
      exact List.mem_of_mem_filter (own ▸ List.mem_singleton_self _)
    · cases taken
  | _ => cases taken

theorem takeMember_withMember_own (foreign : Foreign key n others) (value : Option Json) :
    takeMember? key (withMember key value others) = some (value, others) := by
  have kept : others.entries.filter (·.1 ≠ key) = others.entries :=
    List.filter_eq_self.2 fun e mem => decide_eq_true (foreign.apart e mem)
  have none : others.entries.filter (·.1 = key) = [] :=
    List.filter_eq_nil_iff.2 fun e mem => by simpa using foreign.apart e mem
  cases value with
  | none =>
    simp only [withMember, takeMember?, Option.map_none, Option.toList_none, List.nil_append, kept, none,
      sortedMembers_own foreign.sorted, SortedMap.ofList_entries]
  | some v =>
    simp only [withMember, takeMember?, Option.map_some, Option.toList_some, List.singleton_append,
      List.filter_cons, ne_eq, not_true_eq_false, decide_false, Bool.false_eq_true, if_false, decide_true,
      if_true, kept, none, sortedMembers_own foreign.sorted, SortedMap.ofList_entries]

theorem depth_withMember (foreign : Foreign key n others) {value : Option Json}
    (own : ∀ v ∈ value, v.depth ≤ n) : (withMember key value others).depth ≤ n + 1 := by
  refine Nat.succ_le_succ (depthMembers_le.2 fun e mem => ?_)
  rcases List.mem_append.1 mem with mem | mem
  · obtain ⟨v, there, rfl⟩ := Option.map_eq_some_iff.1 (Option.mem_toList.1 mem)
    exact own v there
  · exact foreign.depth e mem

theorem readsAs_withMember {value : Option Json} (own : ∀ v ∈ value, ReadsAs v v)
    (echo : ∀ v ∈ others.values, ReadsAs v v) :
    ReadsAs (withMember key value others) (withMember key value others) := by
  refine .obj rfl (List.forall₂_same.2 fun v mem => ?_)
  obtain ⟨e, listed, rfl⟩ := List.mem_map.1 mem
  rcases List.mem_append.1 listed with first | other
  · obtain ⟨v, there, rfl⟩ := Option.map_eq_some_iff.1 (Option.mem_toList.1 first)
    exact own v there
  · exact echo e.2 (List.mem_map_of_mem other)

end Json

end SourceSlices
