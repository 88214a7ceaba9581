import SourceSlices.Metadata
import SourceSlices.Proofs.JsonText

/-!
Metadata is read back as it was written: the canonical text of a map whose numbers have 64 bits is
the text of that map and of no other.
-/
namespace SourceSlices

/-- What follows the first of several texts between commas, up to a closing character. -/
def tailText (closing : Char) : List (List Char) → List Char
  | [] => [closing]
  | x :: rest => ',' :: (x ++ tailText closing rest)

/-- Texts between commas, up to a closing character. -/
def closedText (closing : Char) : List (List Char) → List Char
  | [] => [closing]
  | x :: rest => x ++ tailText closing rest

theorem intercalate_closed (closing : Char) (items : List String) :
    (String.intercalate "," items).toList ++ [closing] =
      closedText closing (items.map String.toList) := by
  rw [String.toList_intercalate]
  cases items with
  | nil => rfl
  | cons x rest =>
    simp only [List.map_cons, closedText]
    generalize x.toList = x
    induction rest generalizing x with
    | nil => simp [List.intercalate, tailText]
    | cons y rest ih =>
      simp only [List.map_cons, List.intercalate_cons_cons, tailText, List.append_assoc, ih]
      rfl

/-! ### Values -/

theorem MetaValue.fits_iff {i : Int} :
    MetaValue.fits i = true ↔ -9223372036854775808 ≤ i ∧ i ≤ 9223372036854775807 := by
  unfold MetaValue.fits
  rw [Bool.and_eq_true, decide_eq_true_eq, decide_eq_true_eq]
  rfl

namespace Json

theorem skipSpace_cons {c : Char} (solid : isSpace c = false) (rest : List Char) :
    skipSpace (c :: rest) = c :: rest := by
  simp [skipSpace, solid]

theorem isSpace_of_isDigit {c : Char} (digit : c.isDigit = true) : isSpace c = false := by
  simp only [isSpace, Bool.or_eq_false_iff, decide_eq_false_iff_not]
  refine ⟨⟨⟨?_, ?_⟩, ?_⟩, ?_⟩ <;> rintro rfl <;> simp at digit

attribute [local simp] readValue in
theorem readValue_digit {c : Char} (digit : c.isDigit = true) (fuel depth : Nat) (rest : List Char) :
    readValue (fuel + 1) depth (c :: rest) = readNumber false (c :: rest) := by
  rw [readValue, skipSpace_cons (isSpace_of_isDigit digit)]
  split
  all_goals first
    | (rename_i same; obtain ⟨rfl, rfl⟩ := List.cons.inj same; simp_all)
    | simp_all

/-- The text of an integer is read as its sign and its digits. -/
theorem readValue_number (i : Int) (fuel depth : Nat) (rest : List Char) :
    readValue (fuel + 1) depth ((toString i).toList ++ rest) =
      readNumber (decide (i < 0)) (Nat.toDigits 10 i.natAbs ++ rest) := by
  rw [Int.toString_eq_repr, Int.repr_eq_if]
  split
  · rename_i nonneg
    obtain ⟨c, ds, split⟩ := List.exists_cons_of_ne_nil (Nat.toDigits_ne_nil (n := i.natAbs) (b := 10))
    have digit : c.isDigit = true := isDigit_toDigits (split ▸ List.mem_cons_self)
    have same : i.toNat = i.natAbs := by omega
    rw [Nat.toList_repr, same, split, List.cons_append, readValue_digit digit,
      decide_eq_false (Int.not_lt.2 nonneg)]
  · rename_i negative
    have same : (-i).toNat = i.natAbs := by omega
    rw [String.toList_append, Nat.toList_repr, List.append_assoc, same,
      decide_eq_true (Int.not_le.1 negative)]
    change readValue (fuel + 1) depth ('-' :: (Nat.toDigits 10 i.natAbs ++ rest)) = _
    rw [readValue, skipSpace_cons (by decide)]
    rfl

theorem readValue_int {i : Int} (fits : MetaValue.fits i = true) {rest : List Char}
    (stops : Stops rest) (fuel depth : Nat) :
    readValue (fuel + 1) depth ((toString i).toList ++ rest) = .ok (.int i, rest) := by
  rw [MetaValue.fits_iff] at fits
  rw [readValue_number, readNumber_toDigits stops _ (by simp only [wordMax]; omega),
    afterWhole_stops stops]
  by_cases negative : i < 0
  · have positive : ¬ i.natAbs = 0 := by omega
    have small : i.natAbs ≤ 9223372036854775808 := by omega
    have value : -(i.natAbs : Int) = i := by omega
    simp only [negative, decide_true, if_true, positive, if_false, small, value]
  · have value : (i.natAbs : Int) = i := by omega
    simp only [negative, decide_false, Bool.false_eq_true, if_false, value]

theorem readValue_str (s : String) (fuel depth : Nat) (rest : List Char) :
    readValue (fuel + 1) depth ((quote s).toList ++ rest) = .ok (.str s, rest) := by
  rw [quote_toList, List.cons_append, List.append_assoc, readValue, skipSpace_cons (by decide)]
  simp only [List.cons_append, List.nil_append, readString_quoted, bind, Except.bind]

theorem readValue_bool (b : Bool) (fuel depth : Nat) (rest : List Char) :
    readValue (fuel + 1) depth (((Json.bool b).compact).toList ++ rest) = .ok (.bool b, rest) := by
  cases b <;> simp [compact, readValue, skipSpace, isSpace, keyword]

theorem readItems_first (fuel depth : Nat) (s : String) (cs : List Char) :
    readItems (fuel + 1) depth true ((quote s).toList ++ cs) = (do
      let (v, rest) ← readValue fuel depth ((quote s).toList ++ cs)
      let (more, rest) ← readItems fuel depth false rest
      .ok (v :: more, rest)) := by
  rw [quote_toList, List.cons_append, readItems, skipSpace_cons (by decide)]
  simp

theorem readItems_next (fuel depth : Nat) (s : String) (cs : List Char) :
    readItems (fuel + 1) depth false (',' :: ((quote s).toList ++ cs)) = (do
      let (v, rest) ← readValue fuel depth ((quote s).toList ++ cs)
      let (more, rest) ← readItems fuel depth false rest
      .ok (v :: more, rest)) := by
  have quoted := skipSpace_cons (show isSpace '"' = false by decide)
  rw [quote_toList, List.cons_append, readItems, skipSpace_cons (by decide)]
  simp [quoted]

theorem readItems_tail (items : List String) {fuel : Nat} (enough : items.length < fuel)
    (depth : Nat) (rest : List Char) :
    readItems (fuel + 1) depth false
        (tailText ']' ((items.map quote).map String.toList) ++ rest) =
      .ok (items.map .str, rest) := by
  induction items generalizing fuel with
  | nil => simp [tailText, readItems, skipSpace, isSpace]
  | cons s items ih =>
    obtain ⟨fuel, rfl⟩ := Nat.exists_eq_succ_of_ne_zero (Nat.ne_of_gt (Nat.zero_lt_of_lt enough))
    simp only [List.map_cons, tailText, List.cons_append, List.append_assoc]
    rw [readItems_next, readValue_str]
    simp only [bind, Except.bind, ih (Nat.lt_of_succ_lt_succ enough)]

theorem readItems_closed (items : List String) {fuel : Nat} (enough : items.length < fuel)
    (depth : Nat) (rest : List Char) :
    readItems (fuel + 1) depth true
        (closedText ']' ((items.map quote).map String.toList) ++ rest) =
      .ok (items.map .str, rest) := by
  cases items with
  | nil => simp [closedText, readItems, skipSpace, isSpace]
  | cons s items =>
    obtain ⟨fuel, rfl⟩ := Nat.exists_eq_succ_of_ne_zero (Nat.ne_of_gt (Nat.zero_lt_of_lt enough))
    simp only [List.map_cons, closedText, List.append_assoc]
    rw [readItems_first, readValue_str]
    simp only [bind, Except.bind, readItems_tail items (Nat.lt_of_succ_lt_succ enough)]

theorem compactItems_str (items : List String) : compactItems (items.map .str) = items.map quote := by
  induction items with
  | nil => rfl
  | cons s items ih => simp [compactItems, compact, ih]

theorem compact_strings (items : List String) :
    ((strings items).compact).toList = '[' :: closedText ']' ((items.map quote).map String.toList) := by
  simp only [strings, compact, compactItems_str, String.toList_append]
  rw [← intercalate_closed, List.append_assoc]
  rfl

theorem readValue_strings (items : List String) {fuel : Nat} (enough : items.length < fuel)
    (depth : Nat) (rest : List Char) :
    readValue (fuel + 2) (depth + 1) ((strings items).compact.toList ++ rest) =
      .ok (strings items, rest) := by
  rw [compact_strings, List.cons_append, readValue, skipSpace_cons (by decide)]
  simp only [readItems_closed items enough, bind, Except.bind, strings]

end Json

theorem length_le_tailText (closing : Char) (items : List (List Char)) :
    items.length < (tailText closing items).length := by
  induction items with
  | nil => simp [tailText]
  | cons x rest ih =>
    simp only [tailText, List.length_cons, List.length_append]
    omega

theorem length_le_closedText (closing : Char) (items : List (List Char)) :
    items.length ≤ (closedText closing items).length := by
  cases items with
  | nil => simp
  | cons x rest =>
    have := length_le_tailText closing rest
    simp only [closedText, List.length_cons, List.length_append]
    omega

namespace MetaValue

/-- A number has 64 bits. -/
def Fits : MetaValue → Prop
  | .int i => fits i = true
  | _ => True

theorem readValue_compact {v : MetaValue} (small : v.Fits) {rest : List Char} (stops : Json.Stops rest)
    (depth : Nat) :
    Json.readValue (2 * (v.toJson.compact.toList ++ rest).length + 2) (depth + 1)
        (v.toJson.compact.toList ++ rest) = .ok (v.toJson, rest) := by
  cases v with
  | bool b => exact Json.readValue_bool b _ _ rest
  | int i => exact Json.readValue_int small stops _ _
  | str s => exact Json.readValue_str s _ _ rest
  | list items =>
    refine Json.readValue_strings items ?_ depth rest
    have := length_le_closedText ']' ((items.map Json.quote).map String.toList)
    simp only [toJson, Json.compact_strings, List.length_append, List.length_cons,
      List.length_map] at this ⊢
    omega

theorem strings_map (items : List String) : strings? (items.map .str) = some items := by
  induction items with
  | nil => rfl
  | cons s items ih => simp [strings?, ih]

theorem ofJson_toJson {v : MetaValue} (small : v.Fits) : ofJson? v.toJson = some v := by
  cases v with
  | bool b => rfl
  | int i => simp [toJson, ofJson?, show fits i = true from small]
  | str s => rfl
  | list items => simp [toJson, Json.strings, ofJson?, strings_map]

/-- A number of more than 64 bits is read as something else, if at all. -/
theorem ofJson_unfit {v : MetaValue} (large : ¬ v.Fits) {rest : List Char} (stops : Json.Stops rest)
    {fuel depth : Nat} {j : Json} {rest' : List Char}
    (done : Json.readValue (fuel + 1) depth (v.toJson.compact.toList ++ rest) = .ok (j, rest')) :
    ofJson? j = none := by
  cases v with
  | int i =>
    have outside : i < -9223372036854775808 ∨ 9223372036854775807 < i := by
      have unfit : ¬ fits i = true := large
      rw [fits_iff] at unfit
      omega
    change Json.readValue (fuel + 1) depth ((toString i).toList ++ rest) = _ at done
    rw [Json.readValue_number] at done
    -- Beyond a word the number is read as a double, below it as a number out of range.
    by_cases long : Json.wordMax < i.natAbs
    · obtain ⟨f, rfl⟩ := Json.readNumber_long stops _ long done
      rfl
    · rw [Json.readNumber_toDigits stops _ (Nat.not_lt.1 long), Json.afterWhole_stops stops] at done
      by_cases negative : i < 0
      · have positive : ¬ i.natAbs = 0 := by omega
        have beyond : ¬ i.natAbs ≤ 9223372036854775808 := by omega
        simp only [negative, decide_true, if_true, positive, beyond, if_false] at done
        cases done
        rfl
      · have value : (i.natAbs : Int) = i := by omega
        simp only [negative, decide_false, Bool.false_eq_true, if_false, value] at done
        cases done
        exact if_neg large
  | bool b => exact absurd trivial large
  | str s => exact absurd trivial large
  | list items => exact absurd trivial large

end MetaValue

/-! ### Maps -/

namespace SortedMap

variable {α : Type}

theorem ext_entries {m n : SortedMap α} (same : m.entries = n.entries) : m = n := by
  cases m
  cases n
  cases same
  rfl

theorem insertEntry_last {key : String} {value : α} {l : List (String × α)}
    (above : ∀ e ∈ l, e.1 < key) : insertEntry key value l = l ++ [(key, value)] := by
  induction l with
  | nil => rfl
  | cons e rest ih =>
    obtain ⟨less, others⟩ := List.forall_mem_cons.1 above
    have notBefore : ¬ key < e.1 := fun more => String.lt_irrefl _ (String.lt_trans less more)
    have other : key ≠ e.1 := fun same => String.lt_irrefl _ (same ▸ less)
    simp only [insertEntry, notBefore, if_false, other, ih others, List.cons_append]

theorem foldl_insert {l : List (String × α)} {m : SortedMap α} (ascending : Ascending (m.entries ++ l)) :
    (l.foldl (fun m e => m.insert e.1 e.2) m).entries = m.entries ++ l := by
  induction l generalizing m with
  | nil => simp
  | cons e rest ih =>
    have above : ∀ d ∈ m.entries, d.1 < e.1 := fun d mem =>
      (List.pairwise_append.1 ascending).2.2 d mem e List.mem_cons_self
    have put : (m.insert e.1 e.2).entries = m.entries ++ [e] := insertEntry_last above
    have next : Ascending ((m.insert e.1 e.2).entries ++ rest) := by
      rw [put, List.append_assoc]
      exact ascending
    rw [List.foldl_cons, ih next, put, List.append_assoc]
    rfl

theorem foldl_insert_entries (m : SortedMap α) :
    m.entries.foldl (fun m e => m.insert e.1 e.2) empty = m :=
  ext_entries (foldl_insert (m := empty) m.ascending)

end SortedMap

namespace Metadata

/-- All numbers have 64 bits. -/
def Fits (m : Metadata) : Prop := ∀ e ∈ m.entries, e.2.Fits

def memberText (e : String × MetaValue) : String := Json.quote e.1 ++ ":" ++ e.2.toJson.compact

theorem compactMembers_entries (entries : List (String × MetaValue)) :
    Json.compactMembers (entries.map fun e => (e.1, e.2.toJson)) = entries.map memberText := by
  induction entries with
  | nil => rfl
  | cons e rest ih => simp [Json.compactMembers, memberText, ih]

theorem canonical_toList (m : Metadata) :
    m.canonical.toList = '\x7b' :: closedText '\x7d' ((m.entries.map memberText).map String.toList) := by
  simp only [canonical, toJson, Json.compact, compactMembers_entries, String.toList_append]
  rw [← intercalate_closed, List.append_assoc]
  rfl

theorem memberText_toList (e : String × MetaValue) : (memberText e).toList =
    '"' :: (e.1.toList.flatMap Json.escapeChar ++ '"' :: ':' :: e.2.toJson.compact.toList) := by
  simp [memberText, Json.quote_toList]

theorem stops_tailText (items : List (List Char)) : Json.Stops (tailText '\x7d' items) := by
  cases items <;> simp [tailText, Json.Stops]

variable {e : String × MetaValue} {m : Metadata} {fuel : Nat} {more : List Char}

/-- The value of a member whose key has been read, and the members behind it. -/
def readMember (fuel : Nat) (m : Metadata) (key : String) (cs : List Char) :
    Except Json.Fault (Metadata × List Char) :=
  match Json.readValue (2 * cs.length + 2) (Json.maxDepth - 1) cs with
  | .error e => .error e
  | .ok (v, rest) =>
    match MetaValue.ofJson? v with
    | none => .error .data
    | some v => readMembers fuel false (m.put key v) rest

theorem readMembers_first (e : String × MetaValue) (m : Metadata) (fuel : Nat) (more : List Char) :
    readMembers (fuel + 1) true m ((memberText e).toList ++ more) =
      readMember fuel m e.1 (e.2.toJson.compact.toList ++ more) := by
  have colon := Json.skipSpace_cons (show Json.isSpace ':' = false by decide)
  rw [memberText_toList, List.cons_append, List.append_assoc, readMembers,
    Json.skipSpace_cons (by decide)]
  simp only [List.cons_append]
  simp only [Char.reduceEq, imp_false, not_false_eq_true, Json.readString_quoted, colon,
    Bool.not_true, Bool.false_and, Bool.false_eq_true, if_false, if_true]
  rfl

theorem readMembers_next (e : String × MetaValue) (m : Metadata) (fuel : Nat) (more : List Char) :
    readMembers (fuel + 1) false m (',' :: ((memberText e).toList ++ more)) =
      readMember fuel m e.1 (e.2.toJson.compact.toList ++ more) := by
  have colon := Json.skipSpace_cons (show Json.isSpace ':' = false by decide)
  have quoted := Json.skipSpace_cons (show Json.isSpace '"' = false by decide)
  rw [memberText_toList, List.cons_append, List.append_assoc, readMembers,
    Json.skipSpace_cons (by decide)]
  simp only [List.cons_append]
  simp only [Char.reduceEq, imp_false, not_false_eq_true, quoted, Json.readString_quoted, colon,
    bne_self_eq_false, Bool.and_false, Bool.false_eq_true, if_false]
  rfl

theorem readMember_compact (small : e.2.Fits) (stops : Json.Stops more) :
    readMember fuel m e.1 (e.2.toJson.compact.toList ++ more) =
      readMembers fuel false (m.put e.1 e.2) more := by
  have value := MetaValue.readValue_compact small stops 125
  simp only [readMember, Json.maxDepth, value, MetaValue.ofJson_toJson small]

theorem fits_of_readMember (stops : Json.Stops more) {result : Metadata × List Char}
    (done : readMember fuel m e.1 (e.2.toJson.compact.toList ++ more) = .ok result) : e.2.Fits := by
  by_cases small : e.2.Fits
  · exact small
  · unfold readMember at done
    split at done
    · cases done
    · rename_i value
      rw [MetaValue.ofJson_unfit small stops value] at done
      cases done

theorem readMembers_tail {entries : List (String × MetaValue)} (small : ∀ e ∈ entries, e.2.Fits)
    (enough : entries.length < fuel) :
    readMembers fuel false m (tailText '\x7d' ((entries.map memberText).map String.toList)) =
      .ok (entries.foldl (fun m e => m.insert e.1 e.2) m, []) := by
  obtain ⟨fuel, rfl⟩ := Nat.exists_eq_succ_of_ne_zero (Nat.ne_of_gt (Nat.zero_lt_of_lt enough))
  induction entries generalizing m fuel with
  | nil => simp [tailText, readMembers, Json.skipSpace, Json.isSpace]
  | cons e rest ih =>
    obtain ⟨own, others⟩ := List.forall_mem_cons.1 small
    simp only [List.length_cons] at enough
    obtain ⟨fuel, rfl⟩ := Nat.exists_eq_succ_of_ne_zero (by omega : fuel ≠ 0)
    simp only [List.map_cons, tailText]
    rw [readMembers_next, readMember_compact own (stops_tailText _), ih others fuel (by omega)]
    rfl

theorem fits_of_readMembers {entries : List (String × MetaValue)} {result : Metadata × List Char}
    (done : readMembers fuel false m (tailText '\x7d' ((entries.map memberText).map String.toList)) =
      .ok result) : ∀ e ∈ entries, e.2.Fits := by
  induction entries generalizing m fuel with
  | nil => simp
  | cons e rest ih =>
    cases fuel with
    | zero => cases done
    | succ fuel =>
      simp only [List.map_cons, tailText] at done
      rw [readMembers_next] at done
      have own := fits_of_readMember (stops_tailText _) done
      rw [readMember_compact own (stops_tailText _)] at done
      exact List.forall_mem_cons.2 ⟨own, ih done⟩

/-- Metadata is read back from its canonical text. -/
theorem read_canonical {m : Metadata} (small : m.Fits) : read m.canonical = .ok m := by
  have count := length_le_closedText '\x7d' ((m.entries.map memberText).map String.toList)
  simp only [List.length_map] at count
  rw [read, canonical_toList]
  simp only [Json.skipSpace_cons (show Json.isSpace '\x7b' = false by decide)]
  have members : readMembers
      (('\x7b' :: closedText '\x7d' ((m.entries.map memberText).map String.toList)).length + 1) true
      empty (closedText '\x7d' ((m.entries.map memberText).map String.toList)) = .ok (m, []) := by
    have whole := SortedMap.foldl_insert_entries m
    unfold Fits at small
    generalize m.entries = entries at *
    cases entries with
    | nil =>
      rw [← whole]
      rfl
    | cons e rest =>
      obtain ⟨own, others⟩ := List.forall_mem_cons.1 small
      simp only [List.length_cons] at count ⊢
      simp only [List.map_cons, closedText] at count ⊢
      rw [readMembers_first, readMember_compact own (stops_tailText _),
        readMembers_tail others (by omega)]
      exact congrArg (fun m => Except.ok (m, [])) whole
  rw [members]
  rfl

/-- Numbers of more than 64 bits cannot be read back. -/
theorem fits_of_read {m m' : Metadata} (done : read m.canonical = .ok m') : m.Fits := by
  rw [read, canonical_toList] at done
  simp only [Json.skipSpace_cons (show Json.isSpace '\x7b' = false by decide), bind, Except.bind] at done
  unfold Fits
  generalize m.entries = entries at *
  cases entries with
  | nil => simp
  | cons e rest =>
    simp only [List.map_cons, closedText, readMembers_first] at done
    split at done
    · cases done
    · rename_i members
      have own := fits_of_readMember (stops_tailText _) members
      rw [readMember_compact own (stops_tailText _)] at members
      exact List.forall_mem_cons.2 ⟨own, fits_of_readMembers members⟩

theorem read_canonical_iff {m m' : Metadata} : read m.canonical = .ok m' ↔ m.Fits ∧ m' = m := by
  constructor
  · intro done
    have small := fits_of_read done
    exact ⟨small, Except.ok.inj (done.symm.trans (read_canonical small))⟩
  · rintro ⟨small, rfl⟩
    exact read_canonical small

end Metadata

end SourceSlices
