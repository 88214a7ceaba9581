import Mathlib.Data.List.Induction
import SourceSlices.Proofs.ChunkGroups

/-!
The lists of chunks that are accepted: those in which every chunk id has the part indices from zero on,
each once, and no part records another number of parts. In which order the parts come, and how those of
different chunks are mixed, does not matter.
-/
namespace SourceSlices

/-! ### Recorded numbers -/

namespace MetaValue

/-- A decimal number with an optional sign. -/
inductive Numeral : List Char → Int → Prop where
  | plain {ds : List Char} (some : ds ≠ []) (digits : ∀ d ∈ ds, d.isDigit = true) :
      Numeral ds (Nat.ofDigitChars 10 ds 0)
  | plus {ds : List Char} (some : ds ≠ []) (digits : ∀ d ∈ ds, d.isDigit = true) :
      Numeral ('+' :: ds) (Nat.ofDigitChars 10 ds 0)
  | minus {ds : List Char} (some : ds ≠ []) (digits : ∀ d ∈ ds, d.isDigit = true) :
      Numeral ('-' :: ds) (-(Nat.ofDigitChars 10 ds 0 : Int))

/-- What a value means as a number: text counts if it is a numeral of 64 bits between blanks. -/
inductive Means : MetaValue → Int → Prop where
  | int (i : Int) : Means (.int i) i
  | bool (b : Bool) : Means (.bool b) (if b then 1 else 0)
  | str {s : String} {i : Int} (numeral : Numeral (Text.trim s.toList) i) (small : fits i = true) :
      Means (.str s) i

variable {cs ds : List Char} {i : Int} {n : Nat}

theorem digitsValue_iff : digitsValue ds = some n ↔
    ds ≠ [] ∧ (∀ d ∈ ds, d.isDigit = true) ∧ n = Nat.ofDigitChars 10 ds 0 := by
  have value : ds.foldl (fun n d => n * 10 + (d.toNat - 48)) 0 = Nat.ofDigitChars 10 ds 0 := by
    simp only [Nat.ofDigitChars, Nat.mul_comm]
    rfl
  rw [digitsValue, value]
  split
  · rename_i none
    simp only [Bool.or_eq_true, List.isEmpty_iff, Bool.not_eq_true', List.all_eq_false] at none
    constructor
    · intro done
      cases done
    · intro digits
      rcases none with empty | ⟨d, mem, other⟩
      · exact absurd empty digits.1
      · exact absurd (digits.2.1 d mem) other
  · rename_i digits
    simp only [Bool.or_eq_true, List.isEmpty_iff, Bool.not_eq_true', not_or, Bool.not_eq_false,
      List.all_eq_true] at digits
    constructor
    · intro done
      exact ⟨digits.1, digits.2, (Option.some.inj done).symm⟩
    · intro done
      rw [done.2.2]

theorem not_digit_sign {c : Char} (sign : c = '+' ∨ c = '-') : c.isDigit = false := by
  rcases sign with rfl | rfl
  · rfl
  · rfl

theorem numeral_iff : Numeral cs i ↔
    (∃ ds n, cs = '-' :: ds ∧ digitsValue ds = some n ∧ i = -(n : Int)) ∨
    (∃ ds n, cs = '+' :: ds ∧ digitsValue ds = some n ∧ i = n) ∨
    ∃ n, digitsValue cs = some n ∧ i = n := by
  constructor
  · intro numeral
    cases numeral with
    | plain some digits => exact .inr (.inr ⟨_, digitsValue_iff.2 ⟨some, digits, rfl⟩, rfl⟩)
    | plus some digits => exact .inr (.inl ⟨_, _, rfl, digitsValue_iff.2 ⟨some, digits, rfl⟩, rfl⟩)
    | minus some digits => exact .inl ⟨_, _, rfl, digitsValue_iff.2 ⟨some, digits, rfl⟩, rfl⟩
  · rintro (⟨ds, n, rfl, done, rfl⟩ | ⟨ds, n, rfl, done, rfl⟩ | ⟨n, done, rfl⟩)
    · obtain ⟨some, digits, rfl⟩ := digitsValue_iff.1 done
      exact .minus some digits
    · obtain ⟨some, digits, rfl⟩ := digitsValue_iff.1 done
      exact .plus some digits
    · obtain ⟨some, digits, rfl⟩ := digitsValue_iff.1 done
      exact .plain some digits

theorem digitsValue_sign {c : Char} (sign : c = '+' ∨ c = '-') : digitsValue (c :: ds) = none := by
  cases done : digitsValue (c :: ds) with
  | none => rfl
  | some n =>
    have digit := (digitsValue_iff.1 done).2.1 c List.mem_cons_self
    rw [not_digit_sign sign] at digit
    cases digit

theorem parseInt_iff : parseInt cs = some i ↔ Numeral cs i ∧ fits i = true := by
  unfold parseInt
  rw [Option.filter_eq_some_iff, numeral_iff]
  apply and_congr_left
  intro _
  split
  · rename_i ds
    cases done : digitsValue ds <;> simp [digitsValue_sign, done, eq_comm]
  · rename_i ds
    cases done : digitsValue ds <;> simp [digitsValue_sign, done, eq_comm]
  · rename_i minus plus
    have other (ds : List Char) : cs ≠ '-' :: ds ∧ cs ≠ '+' :: ds := ⟨minus ds, plus ds⟩
    cases done : digitsValue cs <;> simp [other, eq_comm]

theorem int?_iff {v : MetaValue} : v.int? = some i ↔ v.Means i := by
  constructor
  · intro done
    cases v with
    | bool b =>
      cases done
      exact .bool b
    | int i =>
      cases done
      exact .int i
    | str s =>
      obtain ⟨numeral, small⟩ := parseInt_iff.1 done
      exact .str numeral small
    | list items => cases done
  · intro means
    cases means with
    | int => rfl
    | bool => rfl
    | str numeral small => exact parseInt_iff.2 ⟨numeral, small⟩

end MetaValue

/-! ### Order of first appearance -/

/-- The different members of a list come in the order in which they first appear. -/
theorem eraseDups_firstSeen {α : Type} [BEq α] [LawfulBEq α] (l : List α) :
    l.eraseDups.Pairwise fun a b => l.idxOf a < l.idxOf b := by
  induction l using List.reverseRecOn with
  | nil => exact .nil
  | append_singleton l a ih =>
    have earlier {b : α} (mem : b ∈ l.eraseDups) : (l ++ [a]).idxOf b = l.idxOf b :=
      List.idxOf_append_of_mem (List.mem_eraseDups.1 mem)
    have kept : l.eraseDups.Pairwise fun b c => (l ++ [a]).idxOf b < (l ++ [a]).idxOf c := by
      apply ih.imp_of_mem
      intro b c hb hc less
      rwa [earlier hb, earlier hc]
    rw [List.eraseDups_append]
    by_cases known : a ∈ l
    · have none : [a].removeAll l = [] := by simp [List.removeAll, known]
      rw [none]
      simpa using kept
    · have new : ([a].removeAll l).eraseDups = [a] := by
        simp [List.removeAll, known, List.eraseDups_cons]
      have last : (l ++ [a]).idxOf a = l.length := by simp [List.idxOf_append, known]
      rw [new, List.pairwise_append]
      refine ⟨kept, List.pairwise_singleton _ a, ?_⟩
      intro b hb c hc
      obtain rfl : c = a := by simpa using hc
      rw [earlier hb, last]
      exact List.idxOf_lt_length_of_mem (List.mem_eraseDups.1 hb)

/-! ### Chunks that are accepted -/

namespace ChunkGroup

/-- All parts of a chunk, in any order. -/
structure Entire (parts : List Chunk) : Prop where
  indices : (parts.map (·.partIndex)).Perm (List.range parts.length)
  totals : ∀ p ∈ parts, ∀ v, p.metadata.find? "part_total" = some v →
    ∀ n, v.Means n → n = (parts.length : Int)

/-- One group for each chunk id of a list, in the order in which the ids first appear, each with the
parts of its id in the order of their indices. -/
structure Grouped (chunks : List Chunk) (groups : List ChunkGroup) : Prop where
  firstSeen : groups.Pairwise fun g h =>
    (chunks.map (·.chunkId)).idxOf g.chunkId < (chunks.map (·.chunkId)).idxOf h.chunkId
  ids : ∀ id, (∃ g ∈ groups, g.chunkId = id) ↔ ∃ p ∈ chunks, p.chunkId = id
  own : ∀ g ∈ groups, g.parts.Perm (chunks.filter (·.chunkId = g.chunkId))
  ascending : ∀ g ∈ groups, g.parts.Pairwise (·.partIndex < ·.partIndex)
  once : (groups.flatMap (·.parts)).Perm chunks

variable {chunks others parts : List Chunk} {groups : List ChunkGroup} {id : String}

theorem Entire.perm {parts' : List Chunk} (entire : Entire parts) (perm : parts.Perm parts') :
    Entire parts' := by
  have length := perm.length_eq
  constructor
  · rw [← length]
    exact (perm.map _).symm.trans entire.indices
  · intro p mem v recorded n means
    rw [← length]
    exact entire.totals p (perm.mem_iff.2 mem) v recorded n means

theorem partsOf_perm (chunks : List Chunk) (id : String) :
    (partsOf chunks id).Perm (chunks.filter (·.chunkId = id)) :=
  List.mergeSort_perm _ _

theorem partsOf_sorted (chunks : List Chunk) (id : String) :
    (partsOf chunks id).Pairwise (·.partIndex ≤ ·.partIndex) := by
  have sorted : (partsOf chunks id).Pairwise fun a b => decide (a.partIndex ≤ b.partIndex) = true :=
    List.pairwise_mergeSort (by intro a b c; simp only [decide_eq_true_eq]; omega)
      (by intro a b; simp only [Bool.or_eq_true, decide_eq_true_eq]; omega) _
  exact sorted.imp of_decide_eq_true

theorem entire_iff : Entire parts ↔ (parts.map (·.partIndex)).Perm (List.range parts.length) ∧
    ∀ p ∈ parts, ∀ n ∈ p.metadata.int? "part_total", n = (parts.length : Int) := by
  have recorded (p : Chunk) (n : Int) : n ∈ p.metadata.int? "part_total" ↔
      ∃ v, p.metadata.find? "part_total" = some v ∧ v.Means n := by
    simp only [Option.mem_def, Metadata.int?, Option.bind_eq_some_iff, MetaValue.int?_iff]
  simp only [recorded]
  constructor
  · intro entire
    refine ⟨entire.indices, ?_⟩
    rintro p mem n ⟨v, found, means⟩
    exact entire.totals p mem v found n means
  · intro both
    refine ⟨both.1, ?_⟩
    intro p mem v found n means
    exact both.2 p mem n ⟨v, found, means⟩

instance (parts : List Chunk) : Decidable (Entire parts) := decidable_of_iff _ entire_iff.symm

/-- Parts in ascending order are numbered by their places exactly if they are all there. -/
theorem complete_iff_entire (sorted : parts.Pairwise (·.partIndex ≤ ·.partIndex)) :
    Complete ⟨id, parts⟩ ↔ Entire parts := by
  rw [entire_iff]
  constructor
  · intro whole
    exact ⟨.of_eq whole.numbered, whole.totals⟩
  · intro entire
    refine ⟨?_, entire.2⟩
    have ascending : (parts.map (·.partIndex)).Pairwise (· ≤ ·) := List.pairwise_map.2 sorted
    have numbers : (List.range parts.length).Pairwise (· ≤ ·) :=
      List.pairwise_lt_range.imp Nat.le_of_lt
    exact entire.1.eq_of_pairwise (fun _ _ _ _ => Nat.le_antisymm) ascending numbers

/-- An id that does not occur has no parts, so there is nothing to ask of it. -/
theorem entire_iff_ids : (∀ id, Entire (chunks.filter (·.chunkId = id))) ↔
    ∀ id ∈ idsOf chunks, Entire (chunks.filter (·.chunkId = id)) := by
  constructor
  · intro each id _
    exact each id
  · intro each id
    by_cases known : id ∈ idsOf chunks
    · exact each id known
    · have none : chunks.filter (·.chunkId = id) = [] := by
        apply List.filter_eq_nil_iff.2
        intro p mem same
        exact known (mem_idsOf.2 ⟨p, mem, of_decide_eq_true same⟩)
      rw [none]
      decide

theorem all_complete_iff : (∀ g ∈ all chunks, g.Complete) ↔
    ∀ id, Entire (chunks.filter (·.chunkId = id)) := by
  rw [entire_iff_ids, all, List.forall_mem_map]
  apply forall₂_congr
  intro id _
  rw [complete_iff_entire (partsOf_sorted chunks id)]
  have perm := partsOf_perm chunks id
  exact ⟨fun entire => entire.perm perm, fun entire => entire.perm perm.symm⟩

theorem succeeds_iff : Succeeds (ofChunks chunks) ↔ ∀ id, Entire (chunks.filter (·.chunkId = id)) := by
  rw [← all_complete_iff]
  constructor
  · rintro ⟨groups, done⟩
    exact (ofChunks_ok_iff.1 done).2
  · intro whole
    exact ⟨all chunks, ofChunks_ok_iff.2 ⟨rfl, whole⟩⟩

theorem grouped_of_ok (done : ofChunks chunks = .ok groups) : Grouped chunks groups := by
  obtain ⟨rfl, whole⟩ := ofChunks_ok_iff.1 done
  constructor
  · rw [all, List.pairwise_map]
    exact eraseDups_firstSeen _
  · intro id
    rw [← mem_idsOf]
    simp [all]
  · intro g mem
    rw [(mem_all mem).2]
    exact partsOf_perm chunks g.chunkId
  · intro g mem
    exact ascending_of_complete (whole g mem)
  · exact parts_perm chunks

theorem succeeds_of_perm (perm : chunks.Perm others) (done : Succeeds (ofChunks chunks)) :
    Succeeds (ofChunks others) := by
  rw [succeeds_iff] at done ⊢
  intro id
  exact (done id).perm (perm.filter _)

/-- A list of chunks is accepted exactly if each chunk is entire in it, whichever order it has. Its groups
then hold every chunk once, by chunk ids as they first appear and by indices within a group. -/
theorem ofChunks_accepts (chunks : List Chunk) :
    (Succeeds (ofChunks chunks) ↔ ∀ id, Entire (chunks.filter (·.chunkId = id))) ∧
    (∀ groups, ofChunks chunks = .ok groups → Grouped chunks groups) ∧
    ∀ others, chunks.Perm others → (Succeeds (ofChunks chunks) ↔ Succeeds (ofChunks others)) := by
  refine ⟨succeeds_iff, fun groups done => grouped_of_ok done, ?_⟩
  intro others perm
  exact ⟨succeeds_of_perm perm, succeeds_of_perm perm.symm⟩

/-- A part that records how many there are in one of the ways in which a number can be recorded. -/
def counted (id : String) (index : Nat) (total : MetaValue) : Chunk where
  chunkId := id
  text := id
  startOffset := 0
  endOffset := 0
  partIndex := index
  metadata := Metadata.empty.put "part_total" total

/-- Two chunks, the first of them from its end and interrupted by the other one. -/
def mixed : List Chunk :=
  [counted "list" 1 (.str " +2 "), counted "line" 0 (.bool true), counted "list" 0 (.int 2)]

theorem mixed_accepted : ∃ groups, ofChunks mixed = .ok groups ∧ Grouped mixed groups ∧
    mixed.Perm mixed.reverse ∧ Succeeds (ofChunks mixed.reverse) := by
  have entire : ∀ id ∈ idsOf mixed, Entire (mixed.filter (·.chunkId = id)) := by decide +kernel
  obtain ⟨accepted, grouped, permuted⟩ := ofChunks_accepts mixed
  obtain ⟨groups, done⟩ := accepted.2 (entire_iff_ids.2 entire)
  have perm := mixed.reverse_perm.symm
  exact ⟨groups, done, grouped groups done, perm, (permuted _ perm).1 ⟨groups, done⟩⟩

end ChunkGroup

end SourceSlices
