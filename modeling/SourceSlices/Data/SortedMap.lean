/-!
Finite maps with text keys, listed in ascending order of their keys. Two maps with the same
entries are equal, because the order is part of the type.
-/
namespace SourceSlices

/-- Each key is smaller than all keys after it. -/
def Ascending {α : Type} (entries : List (String × α)) : Prop :=
  entries.Pairwise fun a b => a.1 < b.1

structure SortedMap (α : Type) where
  entries : List (String × α)
  ascending : Ascending entries

namespace SortedMap

variable {α β : Type}

instance [DecidableEq α] : DecidableEq (SortedMap α) := fun a b =>
  if h : a.entries = b.entries then
    isTrue (by cases a; cases b; simp_all)
  else isFalse fun e => h (by rw [e])

def empty : SortedMap α := ⟨[], List.Pairwise.nil⟩

instance : Inhabited (SortedMap α) := ⟨empty⟩
instance : EmptyCollection (SortedMap α) := ⟨empty⟩

def find? (m : SortedMap α) (key : String) : Option α :=
  (m.entries.find? (·.1 == key)).map (·.2)

def contains (m : SortedMap α) (key : String) : Bool := m.entries.any (·.1 == key)

def keys (m : SortedMap α) : List String := m.entries.map (·.1)

def values (m : SortedMap α) : List α := m.entries.map (·.2)

def isEmpty (m : SortedMap α) : Bool := m.entries.isEmpty

/-- Puts a key into an ascending list, in place of an equal one. -/
def insertEntry (key : String) (value : α) : List (String × α) → List (String × α)
  | [] => [(key, value)]
  | e :: rest =>
    if key < e.1 then (key, value) :: e :: rest
    else if key = e.1 then (key, value) :: rest
    else e :: insertEntry key value rest

theorem mem_insertEntry {key : String} {value : α} {e : String × α} {l : List (String × α)}
    (h : e ∈ insertEntry key value l) : e = (key, value) ∨ e ∈ l := by
  induction l with
  | nil => simp_all [insertEntry]
  | cons x rest ih =>
    simp only [insertEntry] at h
    split at h
    · simpa using h
    · split at h
      · rcases List.mem_cons.1 h with h | h
        · exact Or.inl h
        · exact Or.inr (List.mem_cons_of_mem _ h)
      · rcases List.mem_cons.1 h with h | h
        · exact Or.inr (h ▸ List.mem_cons_self)
        · rcases ih h with h | h
          · exact Or.inl h
          · exact Or.inr (List.mem_cons_of_mem _ h)

theorem ascending_insertEntry (key : String) (value : α) {l : List (String × α)}
    (h : Ascending l) : Ascending (insertEntry key value l) := by
  induction l with
  | nil => simp [insertEntry, Ascending]
  | cons x rest ih =>
    have first : ∀ e ∈ rest, x.1 < e.1 := fun e he => (List.pairwise_cons.1 h).1 e he
    have tail : Ascending rest := (List.pairwise_cons.1 h).2
    simp only [insertEntry]
    split
    · rename_i less
      refine List.pairwise_cons.2 ⟨fun e he => ?_, h⟩
      rcases List.mem_cons.1 he with rfl | he
      · exact less
      · exact String.lt_trans less (first e he)
    · split
      · rename_i same
        refine List.pairwise_cons.2 ⟨fun e he => ?_, tail⟩
        simpa [same] using first e he
      · rename_i notLess notSame
        refine List.pairwise_cons.2 ⟨fun e he => ?_, ih tail⟩
        rcases mem_insertEntry he with rfl | he
        · exact Std.not_le.1 fun le =>
            notSame (String.le_antisymm le (Std.not_lt.1 notLess))
        · exact first e he

def insert (m : SortedMap α) (key : String) (value : α) : SortedMap α :=
  ⟨insertEntry key value m.entries, ascending_insertEntry key value m.ascending⟩

def ofList (entries : List (String × α)) : SortedMap α :=
  entries.foldl (fun m e => m.insert e.1 e.2) empty

def erase (m : SortedMap α) (key : String) : SortedMap α :=
  ⟨m.entries.filter (·.1 != key), m.ascending.sublist List.filter_sublist⟩

/-- Adds the entries of the second map, which win over those of the first. -/
def union (m other : SortedMap α) : SortedMap α :=
  other.entries.foldl (fun m e => m.insert e.1 e.2) m

/-- Changes every value and keeps the keys. -/
def mapValues (m : SortedMap α) (f : α → β) : SortedMap β :=
  ⟨m.entries.map fun e => (e.1, f e.2), by
    have := m.ascending
    exact List.pairwise_map.2 this⟩

end SortedMap

end SourceSlices
