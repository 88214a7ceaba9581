import SourceSlices.Proofs.FlatForest
import SourceSlices.Proofs.JsonTokens

/-!
A value is read from the beginning of a text whatever follows, and so are the items of an array and the
members of an object. What stands behind them, such as blanks at the end, can therefore be cut off.
-/
namespace SourceSlices.Json

variable {cs r : List Char} {v : Json}

/-- The blanks before a character can be told from it whatever follows. -/
theorem skipSpace_split {c : Char} {rest : List Char} (done : skipSpace cs = c :: rest) :
    isSpace c = false ∧ ∃ z, cs = z ++ c :: rest ∧ ∀ rest', skipSpace (z ++ c :: rest') = c :: rest' := by
  induction cs with
  | nil => cases done
  | cons d cs ih =>
    by_cases space : isSpace d = true
    · rw [skipSpace, List.dropWhile_cons_of_pos space] at done
      obtain ⟨solid, z, rfl, skip⟩ := ih done
      refine ⟨solid, d :: z, rfl, fun rest' => ?_⟩
      rw [List.cons_append, skipSpace, List.dropWhile_cons_of_pos space]
      exact skip rest'
    · rw [Bool.not_eq_true] at space
      rw [skipSpace_cons space] at done
      obtain ⟨rfl, rfl⟩ := List.cons.inj done
      exact ⟨space, [], rfl, fun rest' => skipSpace_cons space rest'⟩

theorem isSpace_of_skipSpace_nil (none : skipSpace cs = []) : ∀ c ∈ cs, isSpace c = true := by
  have same := List.takeWhile_append_dropWhile (p := isSpace) (l := cs)
  rw [show cs.dropWhile isSpace = [] from none, List.append_nil] at same
  exact fun c mem => List.all_eq_true.1 List.all_takeWhile c (same.symm ▸ mem)

theorem skipSpace_idem (cs : List Char) : skipSpace (skipSpace cs) = skipSpace cs := by
  cases done : skipSpace cs with
  | nil => rfl
  | cons c rest => exact skipSpace_cons (skipSpace_split done).1 rest

theorem readValue_skip (fuel depth : Nat) (cs : List Char) :
    readValue (fuel + 1) depth (skipSpace cs) = readValue (fuel + 1) depth cs := by
  rw [readValue, readValue, skipSpace_idem]

/-- What every value read with some fuel takes, and with how much fuel it is taken again. -/
def ValueTakes (fuel : Nat) : Prop := ∀ depth cs v r, readValue fuel depth cs = .ok (v, r) →
  ∃ y, cs = y ++ r ∧ y ≠ [] ∧ ∀ enough, 2 * y.length + 1 ≤ enough →
    TakesBefore (readValue enough depth) y v r

def ItemsTake (fuel : Nat) : Prop := ∀ depth first cs items r,
  readItems fuel depth first cs = .ok (items, r) →
    ∃ y, cs = y ++ r ∧ y ≠ [] ∧ ∀ enough, 2 * y.length + 2 ≤ enough →
      Takes (readItems enough depth first) y items

def MembersTake (fuel : Nat) : Prop := ∀ depth first cs members r,
  readMembers fuel depth first cs = .ok (members, r) →
    ∃ y, cs = y ++ r ∧ y ≠ [] ∧ ∀ enough, 2 * y.length + 2 ≤ enough →
      Takes (readMembers enough depth first) y members

variable {fuel depth : Nat}

/-- Behind its first character a value is taken whatever follows, once there is fuel enough. -/
def TakenBehind (depth : Nat) (c : Char) (rest : List Char) (v : Json) (r : List Char) : Prop :=
  ∃ y, rest = y ++ r ∧ ∀ enough, 2 * y.length + 3 ≤ enough →
    TakesBefore (readValue enough depth) (c :: y) v r

theorem takenBehind {c : Char} {y : List Char} (takes : ∀ enough, 2 * y.length + 2 ≤ enough →
    ∀ r', Alike r r' → readValue (enough + 1) depth (c :: (y ++ r')) = .ok (v, r')) :
    TakenBehind depth c (y ++ r) v r := by
  refine ⟨y, rfl, fun enough fits r' same => ?_⟩
  obtain ⟨enough, rfl⟩ := Nat.exists_eq_succ_of_ne_zero (by omega : enough ≠ 0)
  exact takes enough (by omega) r' same

theorem keyword_behind {c : Char} {value : Json} {ks rest : List Char}
    (branch : ∀ enough r', readValue (enough + 1) depth (c :: r') = keyword value ks r')
    (done : keyword value ks rest = .ok (v, r)) : TakenBehind depth c rest v r := by
  obtain ⟨rfl, takes⟩ := keyword_takes done
  apply takenBehind
  intro enough _ r' _
  rw [branch]
  exact takes r'

theorem minus_behind {rest : List Char} (done : readNumber true rest = .ok (v, r)) :
    TakenBehind depth '-' rest v r := by
  obtain ⟨y, rfl, -, takes⟩ := readNumber_takes done
  apply takenBehind
  intro enough _ r' same
  rw [readValue, skipSpace_cons (by decide)]
  exact takes r' same

theorem digit_behind {c : Char} {rest : List Char} (digit : c.isDigit = true)
    (done : readNumber false (c :: rest) = .ok (v, r)) : TakenBehind depth c rest v r := by
  obtain ⟨y, split, some, takes⟩ := readNumber_takes done
  -- The number has taken the digit as its first character.
  obtain ⟨d, y, rfl⟩ := List.exists_cons_of_ne_nil some
  obtain ⟨rfl, rfl⟩ := List.cons.inj split
  apply takenBehind
  intro enough _ r' same
  rw [readValue_digit digit]
  exact takes r' same

theorem quote_behind {s : String} {rest : List Char} (done : readString rest = .ok (s, r)) :
    TakenBehind depth '"' rest (.str s) r := by
  obtain ⟨y, rfl, takes⟩ := readString_takes done
  apply takenBehind
  intro enough _ r' _
  rw [readValue, skipSpace_cons (by decide)]
  simp only [takes r', bind, Except.bind]

theorem bracket_behind (items : ItemsTake fuel) {xs : List Json} {rest : List Char}
    (done : readItems fuel depth true rest = .ok (xs, r)) :
    TakenBehind (depth + 1) '[' rest (.arr xs) r := by
  obtain ⟨y, rfl, -, takes⟩ := items _ _ _ _ _ done
  apply takenBehind
  intro enough fits r' _
  rw [readValue, skipSpace_cons (by decide)]
  simp only [takes enough fits r', bind, Except.bind]

theorem brace_behind (members : MembersTake fuel) {xs : List (String × Json)} {rest : List Char}
    (done : readMembers fuel depth true rest = .ok (xs, r)) :
    TakenBehind (depth + 1) '\x7b' rest (.obj xs) r := by
  obtain ⟨y, rfl, -, takes⟩ := members _ _ _ _ _ done
  apply takenBehind
  intro enough fits r' _
  rw [readValue, skipSpace_cons (by decide)]
  simp only [takes enough fits r', bind, Except.bind]

/-- A value behind its blanks, by its first character. -/
theorem readValue_solid (items : ItemsTake fuel) (members : MembersTake fuel) {c : Char}
    {rest : List Char} (solid : isSpace c = false)
    (done : readValue (fuel + 1) depth (c :: rest) = .ok (v, r)) : TakenBehind depth c rest v r := by
  rw [readValue, skipSpace_cons solid] at done
  split at done
  · rename_i same
    cases same
  all_goals try (rename_i same; obtain ⟨rfl, rfl⟩ := List.cons.inj same)
  · exact keyword_behind (fun _ _ => by rw [readValue, skipSpace_cons solid]; rfl) done
  · exact keyword_behind (fun _ _ => by rw [readValue, skipSpace_cons solid]; rfl) done
  · exact keyword_behind (fun _ _ => by rw [readValue, skipSpace_cons solid]; rfl) done
  · exact minus_behind done
  · simp only [bind_ok_iff] at done
    obtain ⟨⟨s, rest'⟩, text, done⟩ := done
    cases done
    exact quote_behind text
  · split at done
    · cases done
    · simp only [bind_ok_iff] at done
      obtain ⟨⟨xs, rest'⟩, inner, done⟩ := done
      cases done
      exact bracket_behind items inner
  · split at done
    · cases done
    · simp only [bind_ok_iff] at done
      obtain ⟨⟨xs, rest'⟩, inner, done⟩ := done
      cases done
      exact brace_behind members inner
  · split at done
    · rename_i digit
      exact digit_behind digit done
    · cases done

theorem valueTakes_succ (items : ItemsTake fuel) (members : MembersTake fuel) :
    ValueTakes (fuel + 1) := by
  intro depth cs v r done
  cases begins : skipSpace cs with
  | nil =>
    rw [← readValue_skip, begins, readValue] at done
    cases done
  | cons c rest =>
    rw [← readValue_skip, begins] at done
    obtain ⟨solid, z, rfl, skip⟩ := skipSpace_split begins
    obtain ⟨y, rfl, takes⟩ := readValue_solid items members solid done
    refine ⟨z ++ c :: y, by simp, by simp, fun enough fits r' same => ?_⟩
    simp only [List.length_append, List.length_cons] at fits
    obtain ⟨enough, rfl⟩ := Nat.exists_eq_succ_of_ne_zero (by omega : enough ≠ 0)
    rw [List.append_assoc, List.cons_append, ← readValue_skip, skip]
    exact takes _ (by omega) r' same

/-! ### Items and members -/

/-- Where the next item or member begins: behind the opening bracket, or behind a comma. -/
def nextText (first : Bool) (cs : List Char) : List Char :=
  if first then skipSpace cs
  else
    match skipSpace cs with
    | ',' :: rest => skipSpace rest
    | _ => []

theorem nextText_split {first : Bool} {c : Char} {rest : List Char} (done : nextText first cs = c :: rest) :
    ∃ z, cs = z ++ c :: rest ∧ ∀ rest', nextText first (z ++ c :: rest') = c :: rest' := by
  unfold nextText at done
  split at done
  · rename_i begins
    subst begins
    obtain ⟨-, z, rfl, skip⟩ := skipSpace_split done
    exact ⟨z, rfl, skip⟩
  · rename_i later
    split at done
    · rename_i behind comma
      obtain ⟨-, z, rfl, skip⟩ := skipSpace_split comma
      obtain ⟨-, z', rfl, skip'⟩ := skipSpace_split done
      refine ⟨z ++ ',' :: z', by simp, fun rest' => ?_⟩
      rw [nextText, if_neg later, List.append_assoc, List.cons_append, skip]
      exact skip' rest'
    · cases done

/-- An item and those behind it. -/
def readItem (fuel depth : Nat) (cs : List Char) : Except Fault (List Json × List Char) := do
  let (v, rest) ← readValue fuel depth cs
  let (more, rest) ← readItems fuel depth false rest
  .ok (v :: more, rest)

theorem nextText_cases {first : Bool} {c : Char} {rest : List Char} (begins : skipSpace cs = c :: rest)
    (goes : ¬ (!first && c != ',') = true) :
    nextText first cs = if first then c :: rest else skipSpace rest := by
  cases first with
  | true => simp [nextText, begins]
  | false =>
    obtain rfl : c = ',' := by simpa using goes
    simp [nextText, begins]

theorem readItems_stop {first : Bool} {rest : List Char} (closed : skipSpace cs = ']' :: rest) :
    readItems (fuel + 1) depth first cs = .ok ([], rest) := by
  simp only [readItems, closed]

theorem readItems_goOn {first : Bool} {c : Char} {rest : List Char} (begins : nextText first cs = c :: rest)
    (goes : c ≠ ']') : readItems (fuel + 1) depth first cs = readItem fuel depth (c :: rest) := by
  cases first with
  | true =>
    have own : skipSpace cs = c :: rest := begins
    simp [readItems, own, goes, readItem]
  | false =>
    simp only [nextText, Bool.false_eq_true, if_false] at begins
    split at begins
    · rename_i comma
      simp [readItems, comma, begins, goes, readItem]
    · cases begins

/-- Items come to an end, or one more is read. -/
theorem readItems_cases {first : Bool} {xs : List Json}
    (done : readItems (fuel + 1) depth first cs = .ok (xs, r)) :
    (skipSpace cs = ']' :: r ∧ xs = []) ∨ ∃ c rest, nextText first cs = c :: rest ∧ c ≠ ']' ∧
      readItem fuel depth (c :: rest) = .ok (xs, r) := by
  rw [readItems] at done
  split at done
  · cases done
  · rename_i closed
    cases done
    exact Or.inl ⟨closed, rfl⟩
  · rename_i begins
    split at done
    · cases done
    · rename_i goes
      dsimp only at done
      rw [← nextText_cases begins goes] at done
      split at done
      · cases done
      · cases done
      · rename_i some other
        cases next : nextText first cs with
        | nil => exact absurd next some
        | cons c rest =>
          rw [next] at done
          exact Or.inr ⟨c, rest, rfl, fun same => other rest (same ▸ next), done⟩

theorem itemsTake_succ (value : ValueTakes fuel) (items : ItemsTake fuel) : ItemsTake (fuel + 1) := by
  intro depth first cs xs r read
  rcases readItems_cases read with ⟨closed, rfl⟩ | ⟨c, rest, begins, goes, done⟩
  · obtain ⟨-, z, rfl, skip⟩ := skipSpace_split closed
    refine ⟨z ++ [']'], by simp, by simp, fun enough fits r' => ?_⟩
    obtain ⟨enough, rfl⟩ := Nat.exists_eq_succ_of_ne_zero (by omega : enough ≠ 0)
    rw [List.append_assoc, List.singleton_append]
    exact readItems_stop (skip r')
  · obtain ⟨z, rfl, next⟩ := nextText_split begins
    simp only [readItem, bind_ok_iff] at done
    obtain ⟨⟨v, rest1⟩, own, ⟨more, rest2⟩, others, done⟩ := done
    cases done
    obtain ⟨y, split, some, takes⟩ := value _ _ _ _ own
    obtain ⟨y', rfl, some', takes'⟩ := items _ _ _ _ _ others
    obtain ⟨d, y, rfl⟩ := List.exists_cons_of_ne_nil some
    obtain ⟨rfl, rfl⟩ := List.cons.inj split
    have length := List.length_pos_iff.2 some'
    refine ⟨z ++ c :: (y ++ y'), by simp, by simp, fun enough fits r' => ?_⟩
    simp only [List.length_append, List.length_cons] at fits
    obtain ⟨enough, rfl⟩ := Nat.exists_eq_succ_of_ne_zero (by omega : enough ≠ 0)
    have item := takes enough (by simp only [List.length_cons]; omega) _ (alike_some some' _ r')
    rw [List.append_assoc, List.cons_append, readItems_goOn (next _) goes, readItem, List.append_assoc,
      ← List.cons_append, item]
    simp only [bind, Except.bind, takes' enough (by omega) r']

/-- A member whose key begins with a quotation mark, and those behind it. -/
def readMember (fuel depth : Nat) (cs : List Char) : Except Fault (List (String × Json) × List Char) := do
  let (k, rest) ← readString cs
  match skipSpace rest with
  | [] => .error .eof
  | ':' :: rest => do
    let (v, rest) ← readValue fuel depth rest
    let (more, rest) ← readMembers fuel depth false rest
    .ok ((k, v) :: more, rest)
  | _ => .error .malformed

theorem readMembers_stop {first : Bool} {rest : List Char} (closed : skipSpace cs = '\x7d' :: rest) :
    readMembers (fuel + 1) depth first cs = .ok ([], rest) := by
  simp only [readMembers, closed]

theorem readMembers_goOn {first : Bool} {rest : List Char} (begins : nextText first cs = '"' :: rest) :
    readMembers (fuel + 1) depth first cs = readMember fuel depth rest := by
  cases first with
  | true =>
    have own : skipSpace cs = '"' :: rest := begins
    simp [readMembers, own]
    rfl
  | false =>
    simp only [nextText, Bool.false_eq_true, if_false] at begins
    split at begins
    · rename_i comma
      simp [readMembers, comma, begins]
      rfl
    · cases begins

/-- Members come to an end, or one more is read. -/
theorem readMembers_cases {first : Bool} {xs : List (String × Json)}
    (done : readMembers (fuel + 1) depth first cs = .ok (xs, r)) :
    (skipSpace cs = '\x7d' :: r ∧ xs = []) ∨
      ∃ rest, nextText first cs = '"' :: rest ∧ readMember fuel depth rest = .ok (xs, r) := by
  rw [readMembers] at done
  split at done
  · cases done
  · rename_i closed
    cases done
    exact Or.inl ⟨closed, rfl⟩
  · rename_i begins
    split at done
    · cases done
    · rename_i goes
      dsimp only at done
      rw [← nextText_cases begins goes] at done
      split at done
      · cases done
      · rename_i rest next
        exact Or.inr ⟨rest, next, done⟩
      · cases done

theorem membersTake_succ (value : ValueTakes fuel) (members : MembersTake fuel) :
    MembersTake (fuel + 1) := by
  intro depth first cs xs r read
  rcases readMembers_cases read with ⟨closed, rfl⟩ | ⟨rest, begins, done⟩
  · obtain ⟨-, z, rfl, skip⟩ := skipSpace_split closed
    refine ⟨z ++ ['\x7d'], by simp, by simp, fun enough fits r' => ?_⟩
    obtain ⟨enough, rfl⟩ := Nat.exists_eq_succ_of_ne_zero (by omega : enough ≠ 0)
    rw [List.append_assoc, List.singleton_append]
    exact readMembers_stop (skip r')
  · obtain ⟨z, rfl, next⟩ := nextText_split begins
    simp only [readMember, bind_ok_iff] at done
    obtain ⟨⟨k, rest0⟩, key, done⟩ := done
    obtain ⟨w, rfl, takesKey⟩ := readString_takes key
    dsimp only at done
    split at done
    · cases done
    · rename_i rest1 colon
      simp only [bind_ok_iff] at done
      obtain ⟨⟨v, rest2⟩, own, ⟨more, rest3⟩, others, done⟩ := done
      cases done
      obtain ⟨-, u, rfl, skip⟩ := skipSpace_split colon
      obtain ⟨y, rfl, -, takes⟩ := value _ _ _ _ own
      obtain ⟨y', rfl, some', takes'⟩ := members _ _ _ _ _ others
      refine ⟨z ++ '"' :: (w ++ (u ++ ':' :: (y ++ y'))), by simp, by simp, fun enough fits r' => ?_⟩
      simp only [List.length_append, List.length_cons] at fits
      obtain ⟨enough, rfl⟩ := Nat.exists_eq_succ_of_ne_zero (by omega : enough ≠ 0)
      have item := takes enough (by omega) _ (alike_some some' _ r')
      simp only [List.append_assoc, List.cons_append]
      rw [readMembers_goOn (next _), readMember, takesKey]
      simp only [bind, Except.bind, skip, item, takes' enough (by omega) r']
    · cases done

theorem takes_all (fuel : Nat) : ValueTakes fuel ∧ ItemsTake fuel ∧ MembersTake fuel := by
  induction fuel with
  | zero =>
    refine ⟨fun depth cs v r done => ?_, fun depth first cs xs r done => ?_,
      fun depth first cs xs r done => ?_⟩
    · rw [readValue] at done
      cases done
    · rw [readItems] at done
      cases done
    · rw [readMembers] at done
      cases done
  | succ fuel ih =>
    obtain ⟨value, items, members⟩ := ih
    exact ⟨valueTakes_succ items members, itemsTake_succ value items, membersTake_succ value members⟩

end SourceSlices.Json

namespace SourceSlices

namespace Text

theorem trim_around {first last : Char} {before after : List Char} (inner : List Char)
    (blank : ∀ c ∈ before, isBlank c = true) (blank' : ∀ c ∈ after, isBlank c = true)
    (solid : isBlank first = false) (solid' : isBlank last = false) :
    trim (before ++ first :: (inner ++ [last]) ++ after) = first :: (inner ++ [last]) := by
  have start : (before ++ first :: (inner ++ [last]) ++ after).dropWhile isBlank =
      first :: (inner ++ [last]) ++ after := by
    rw [List.append_assoc, List.dropWhile_append_of_pos blank, List.cons_append,
      List.dropWhile_cons_of_neg (by simp [solid])]
  have stop : (first :: (inner ++ [last]) ++ after).reverse.dropWhile isBlank =
      (first :: (inner ++ [last])).reverse := by
    rw [List.reverse_append, List.dropWhile_append_of_pos fun c mem => blank' c (List.mem_reverse.1 mem),
      ← List.cons_append, List.reverse_append, List.reverse_singleton, List.singleton_append,
      List.dropWhile_cons_of_neg (by simp [solid'])]
  rw [trim, trimWhere, trimStartWhere, start, trimEndWhere, stop, List.reverse_reverse]

theorem isBlank_of_isSpace {c : Char} (space : Json.isSpace c = true) : isBlank c = true := by
  simp only [Json.isSpace, Bool.or_eq_true, decide_eq_true_eq] at space
  obtain ((rfl | rfl) | rfl) | rfl := space <;> decide

end Text

namespace Metadata

open Json

variable {fuel : Nat} {first : Bool} {m n : Metadata} {cs r : List Char}

/-- A member whose key begins with a quotation mark, and those behind it. -/
def readEntry (fuel : Nat) (m : Metadata) (cs : List Char) : Except Json.Fault (Metadata × List Char) :=
  match Json.readString cs with
  | .error e => .error e
  | .ok (k, rest) =>
    match Json.skipSpace rest with
    | [] => .error .eof
    | ':' :: rest => readMember fuel m k rest
    | _ => .error .malformed

theorem readMembers_stop {rest : List Char} (closed : Json.skipSpace cs = '\x7d' :: rest) :
    readMembers (fuel + 1) first m cs = .ok (m, rest) := by
  simp only [readMembers, closed]

theorem readMembers_goOn {rest : List Char} (begins : nextText first cs = '"' :: rest) :
    readMembers (fuel + 1) first m cs = readEntry fuel m rest := by
  cases first with
  | true =>
    have own : Json.skipSpace cs = '"' :: rest := begins
    simp [readMembers, own, readEntry]
    rfl
  | false =>
    simp only [nextText, Bool.false_eq_true, if_false] at begins
    split at begins
    · rename_i comma
      simp [readMembers, comma, begins, readEntry]
      rfl
    · cases begins

/-- Members come to an end, or one more is read. -/
theorem readMembers_cases (done : readMembers (fuel + 1) first m cs = .ok (n, r)) :
    (Json.skipSpace cs = '\x7d' :: r ∧ n = m) ∨
      ∃ rest, nextText first cs = '"' :: rest ∧ readEntry fuel m rest = .ok (n, r) := by
  rw [readMembers] at done
  split at done
  · cases done
  · rename_i closed
    cases done
    exact Or.inl ⟨closed, rfl⟩
  · rename_i begins
    split at done
    · cases done
    · rename_i goes
      rw [← nextText_cases begins goes] at done
      split at done
      · cases done
      · rename_i rest next
        exact Or.inr ⟨rest, next, done⟩
      · cases done

/-- An entry takes a part of the text, whatever follows, and the members behind it are read into the map that
holds it. -/
theorem readEntry_split (done : readEntry fuel m cs = .ok (n, r)) : ∃ m' e rest, cs = e ++ rest ∧
    readMembers fuel false m' rest = .ok (n, r) ∧ ∀ enough rest', Alike rest rest' →
      readEntry enough m (e ++ rest') = readMembers enough false m' rest' := by
  unfold readEntry at done
  split at done
  · cases done
  · rename_i k rest key
    obtain ⟨w, rfl, takesKey⟩ := readString_takes key
    split at done
    · cases done
    · rename_i rest colon
      obtain ⟨-, u, rfl, skip⟩ := skipSpace_split colon
      unfold readMember at done
      split at done
      · cases done
      · rename_i v rest own
        obtain ⟨y, rfl, -, takes⟩ := (takes_all _).1 _ _ _ _ own
        split at done
        · cases done
        · rename_i v' value
          refine ⟨m.put k v', w ++ (u ++ ':' :: y), rest, by simp, done, fun enough rest' same => ?_⟩
          simp only [List.append_assoc, List.cons_append]
          rw [readEntry, takesKey]
          simp only [skip, readMember]
          rw [takes _ (by simp only [List.length_append]; omega) rest' same]
          simp only [value]
    · cases done

theorem readMembers_takes (done : readMembers fuel first m cs = .ok (n, r)) :
    ∃ y, cs = y ++ '\x7d' :: r ∧
      ∀ enough, y.length < enough → Takes (readMembers enough first m) (y ++ ['\x7d']) n := by
  induction fuel generalizing first m cs with
  | zero => cases done
  | succ fuel ih =>
    rcases readMembers_cases done with ⟨closed, rfl⟩ | ⟨rest, begins, entry⟩
    · obtain ⟨-, z, rfl, skip⟩ := skipSpace_split closed
      refine ⟨z, rfl, fun enough fits r' => ?_⟩
      obtain ⟨enough, rfl⟩ := Nat.exists_eq_succ_of_ne_zero (by omega : enough ≠ 0)
      rw [List.append_assoc, List.singleton_append]
      exact readMembers_stop (skip r')
    · obtain ⟨z, rfl, next⟩ := nextText_split begins
      obtain ⟨m', e, rest, rfl, members, again⟩ := readEntry_split entry
      obtain ⟨y, rfl, takes⟩ := ih members
      refine ⟨z ++ '"' :: (e ++ y), by simp, fun enough fits r' => ?_⟩
      simp only [List.length_append, List.length_cons] at fits
      obtain ⟨enough, rfl⟩ := Nat.exists_eq_succ_of_ne_zero (by omega : enough ≠ 0)
      have more := takes enough (by omega) r'
      simp only [List.append_assoc, List.cons_append, List.nil_append] at more ⊢
      -- What follows the entry begins as it did, with the members behind it or the brace.
      have alike : Alike (y ++ '\x7d' :: r) (y ++ '\x7d' :: r') := .inl (by cases y <;> rfl)
      rw [readMembers_goOn (next _), again enough _ alike, more]

/-- A text that is read is its object with nothing but blanks around it, and the object is read behind its
brace by itself. -/
theorem read_enclosed {text : String} (done : read text = .ok m) : ∃ before inner after,
    text.toList = before ++ '\x7b' :: (inner ++ ['\x7d']) ++ after ∧
      (∀ c ∈ before, Text.isBlank c = true) ∧ (∀ c ∈ after, Text.isBlank c = true) ∧
      ∀ enough, inner.length < enough →
        Takes (readMembers enough true .empty) (inner ++ ['\x7d']) m := by
  unfold read at done
  dsimp only at done
  split at done
  · cases done
  · rename_i rest begins
    simp only [bind_ok_iff] at done
    obtain ⟨⟨n, r⟩, members, done⟩ := done
    obtain ⟨inner, rfl, takes⟩ := readMembers_takes members
    dsimp only at done
    split at done
    · rename_i spaces
      cases done
      refine ⟨text.toList.takeWhile Json.isSpace, inner, r, ?_, ?_, ?_, takes⟩
      · have split := List.takeWhile_append_dropWhile (p := Json.isSpace) (l := text.toList)
        rw [show text.toList.dropWhile Json.isSpace = _ from begins] at split
        simpa using split.symm
      · exact fun c mem => Text.isBlank_of_isSpace (List.all_eq_true.1 List.all_takeWhile c mem)
      · exact fun c mem =>
          Text.isBlank_of_isSpace (isSpace_of_skipSpace_nil (List.isEmpty_iff.1 spaces) c mem)
    · cases done
  · cases done
  · simp only [bind_ok_iff] at done
    obtain ⟨-, -, done⟩ := done
    cases done

theorem read_trimmed {text : String} (done : read text = .ok m) :
    ∃ inner, Text.trim text.toList = '\x7b' :: (inner ++ ['\x7d']) ∧
      read (String.ofList (Text.trim text.toList)) = .ok m := by
  obtain ⟨before, inner, after, whole, blank, blank', takes⟩ := read_enclosed done
  have trimmed : Text.trim text.toList = '\x7b' :: (inner ++ ['\x7d']) := by
    rw [whole]
    exact Text.trim_around inner blank blank' (by decide) (by decide)
  refine ⟨inner, trimmed, ?_⟩
  have members := takes (('\x7b' :: (inner ++ ['\x7d'])).length + 1)
    (by simp only [List.length_cons, List.length_append]; omega) []
  rw [List.append_nil] at members
  simp only [read, trimmed, String.toList_ofList,
    Json.skipSpace_cons (show Json.isSpace '\x7b' = false by decide), members, bind, Except.bind]
  rfl

end Metadata

end SourceSlices
