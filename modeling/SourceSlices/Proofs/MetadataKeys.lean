import SourceSlices.Chunk
import SourceSlices.Proofs.MetadataText

/-!
What a key holds after another is put or removed, and metadata whose numbers have 64 bits.
-/
namespace SourceSlices

namespace SortedMap

variable {α : Type} {m : SortedMap α} {key other : String}

theorem find?_insertEntry_self (key : String) (value : α) (l : List (String × α)) :
    (insertEntry key value l).find? (·.1 == key) = some (key, value) := by
  induction l with
  | nil => simp [insertEntry]
  | cons e rest ih =>
    simp only [insertEntry]
    split
    · simp
    · split
      · simp
      · rename_i different
        have skip : (e.1 == key) = false := beq_false_of_ne (Ne.symm different)
        rw [List.find?_cons, skip]
        exact ih

theorem find?_insertEntry_ne (different : key ≠ other) (value : α) (l : List (String × α)) :
    (insertEntry other value l).find? (·.1 == key) = l.find? (·.1 == key) := by
  have skip : (other == key) = false := beq_false_of_ne different.symm
  induction l with
  | nil => simp [insertEntry, skip]
  | cons e rest ih =>
    simp only [insertEntry]
    split
    · rw [List.find?_cons, skip]
    · split
      · rename_i same
        rw [List.find?_cons, List.find?_cons, ← same, skip]
      · rw [List.find?_cons, List.find?_cons, ih]

theorem find?_insert_self (m : SortedMap α) (key : String) (value : α) :
    (m.insert key value).find? key = some value := by
  rw [find?, insert, find?_insertEntry_self]
  rfl

theorem find?_insert_ne (different : key ≠ other) (value : α) :
    (m.insert other value).find? key = m.find? key := by
  rw [find?, insert, find?_insertEntry_ne different, find?]

theorem find?_erase_ne (different : key ≠ other) : (m.erase other).find? key = m.find? key := by
  have kept : (fun e : String × α => decide ((e.1 != other) = true ∧ (e.1 == key) = true)) =
      fun e => e.1 == key := by
    funext e
    by_cases same : e.1 = key
    · simp [same, different]
    · simp [same]
  simp only [find?, erase, List.find?_filter, kept]

theorem find?_erase_self (m : SortedMap α) (key : String) : (m.erase key).find? key = none := by
  have gone : (fun e : String × α => decide ((e.1 != key) = true ∧ (e.1 == key) = true)) =
      fun _ => false := by
    funext e
    by_cases same : e.1 = key <;> simp [same]
  simp only [find?, erase, List.find?_filter, gone]
  simp

theorem find?_foldl_insert {l : List (String × α)} (ascending : Ascending l) (m : SortedMap α) :
    (l.foldl (fun m e => m.insert e.1 e.2) m).find? key =
      ((l.find? (·.1 == key)).map (·.2)).or (m.find? key) := by
  induction l generalizing m with
  | nil => rfl
  | cons e rest ih =>
    obtain ⟨less, tail⟩ := List.pairwise_cons.1 ascending
    rw [List.foldl_cons, ih tail]
    by_cases same : e.1 = key
    · have later : rest.find? (·.1 == key) = none := by
        refine List.find?_eq_none.2 fun x mem here => ?_
        have := less x mem
        rw [same, eq_of_beq here] at this
        exact String.lt_irrefl _ this
      rw [List.find?_cons, later, same, find?_insert_self]
      simp
    · rw [List.find?_cons, beq_false_of_ne same, find?_insert_ne (Ne.symm same)]

/-- Of several entries under a key the last one counts. -/
theorem find?_ofList (l : List (String × α)) (key : String) :
    (ofList l).find? key = (l.reverse.find? (·.1 == key)).map (·.2) := by
  have run (m : SortedMap α) : (l.foldl (fun m e => m.insert e.1 e.2) m).find? key =
      ((l.reverse.find? (·.1 == key)).map (·.2)).or (m.find? key) := by
    induction l generalizing m with
    | nil => rfl
    | cons e rest ih =>
      rw [List.foldl_cons, ih, List.reverse_cons, List.find?_append]
      by_cases same : e.1 = key
      · rw [same, find?_insert_self]
        cases rest.reverse.find? (·.1 == key) <;> simp [same]
      · rw [find?_insert_ne (Ne.symm same)]
        simp [same]
  exact (run empty).trans Option.or_none

theorem find?_union (m other : SortedMap α) (key : String) :
    (m.union other).find? key = (other.find? key).or (m.find? key) :=
  find?_foldl_insert other.ascending m

end SortedMap

namespace Metadata

variable {m : Metadata} {key other : String}

theorem find?_put_ne (different : key ≠ other) (value : MetaValue) :
    (m.put other value).find? key = m.find? key :=
  SortedMap.find?_insert_ne different value

theorem int?_put_ne (different : key ≠ other) (value : MetaValue) :
    (m.put other value).int? key = m.int? key := by
  rw [int?, find?_put_ne different, int?]

theorem find?_putLines_ne (first : key ≠ "start_line") (last : key ≠ "end_line") (lines : LineIndex)
    (start stop : Nat) : (m.putLines lines start stop).find? key = m.find? key := by
  change ((m.put "start_line" _).put "end_line" _).find? key = m.find? key
  rw [find?_put_ne last, find?_put_ne first]

theorem str?_putStr_self (m : Metadata) (key value : String) :
    (m.putStr key value).str? key = some value := by
  rw [str?, putStr, put, SortedMap.find?_insert_self]
  rfl

theorem str?_putStr_ne (different : key ≠ other) (value : String) :
    (m.putStr other value).str? key = m.str? key := by
  rw [str?, putStr, find?_put_ne different, str?]

theorem fits_empty : Metadata.empty.Fits := by
  intro e mem
  cases mem

theorem fits_put {value : MetaValue} (small : m.Fits) (own : value.Fits) :
    (m.put key value).Fits := by
  intro e mem
  rcases SortedMap.mem_insertEntry mem with rfl | mem
  · exact own
  · exact small e mem

theorem fits_putStr (small : m.Fits) (key value : String) : (m.putStr key value).Fits :=
  fits_put small trivial

theorem fits_putBool (small : m.Fits) (key : String) (b : Bool) : (m.putBool key b).Fits :=
  fits_put small trivial

theorem fits_putNat (small : m.Fits) (key : String) (n : Nat) : (m.putNat key n).Fits := by
  refine fits_put small (MetaValue.fits_iff.2 ⟨?_, ?_⟩)
  · simp only [MetaValue.intMax]
    omega
  · exact Int.min_le_right _ _

theorem fits_putLines (small : m.Fits) (lines : LineIndex) (start stop : Nat) :
    (m.putLines lines start stop).Fits :=
  fits_putNat (fits_putNat small _ _) _ _

theorem int?_putNat (m : Metadata) (key : String) (n : Nat) :
    (m.putNat key n).int? key = some (min (n : Int) MetaValue.intMax) := by
  rw [int?, putNat, put, SortedMap.find?_insert_self]
  rfl

end Metadata

end SourceSlices
