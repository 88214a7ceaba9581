import SourceSlices.Proofs.JsonPrefix
import SourceSlices.Proofs.NumberText

/-!
What is read of a text with one line per item and member. All that is not a number comes back as it
was written; a number comes back as what its own text is read as, because long ones are rounded.
-/
namespace SourceSlices.Json

/-- What may be read of a written value. -/
inductive ReadsAs : Json → Json → Prop where
  | null : ReadsAs .null .null
  | bool (b : Bool) : ReadsAs (.bool b) (.bool b)
  | int {i : Int} {w : Json} (own : read (toString i) = .ok w) : ReadsAs (.int i) w
  /-- What is no number at all is written as null. -/
  | float {x : Float} {w : Json} (own : read (writeFloat x) = .ok w) : ReadsAs (.float x) w
  | str (s : String) : ReadsAs (.str s) (.str s)
  | arr {items items' : List Json} (each : List.Forall₂ ReadsAs items items') :
      ReadsAs (.arr items) (.arr items')
  | obj {members members' : List (String × Json)}
      (keys : members'.map Prod.fst = members.map Prod.fst)
      (each : List.Forall₂ ReadsAs (members.map Prod.snd) (members'.map Prod.snd)) :
      ReadsAs (.obj members) (.obj members')

/-! ### The lines of a block -/

def spaces (depth : Nat) : List Char := List.replicate (2 * depth) ' '

/-- The lines behind another one, up to the closing bracket. -/
def linesText (depth : Nat) (closing : Char) : List (List Char) → List Char
  | [] => '\n' :: (spaces depth ++ [closing])
  | l :: rest => ',' :: '\n' :: (spaces (depth + 1) ++ (l ++ linesText depth closing rest))

/-- The lines behind the opening bracket, or behind another one. -/
def bodyText (first : Bool) (depth : Nat) (closing : Char) (lines : List (List Char)) : List Char :=
  if first then
    match lines with
    | [] => [closing]
    | l :: rest => '\n' :: (spaces (depth + 1) ++ (l ++ linesText depth closing rest))
  else linesText depth closing lines

theorem block_toList (opening : String) {closing : String} {c : Char} (single : closing.toList = [c])
    (depth : Nat) (lines : List String) : (block opening closing depth lines).toList =
      opening.toList ++ bodyText true depth c (lines.map String.toList) := by
  cases lines with
  | nil => simp [block, bodyText, single]
  | cons l rest =>
    have more : (List.intercalate [',', '\n']
        ((l :: rest).map fun x => spaces (depth + 1) ++ x.toList)) ++ '\n' :: (spaces depth ++ [c]) =
          spaces (depth + 1) ++ (l.toList ++ linesText depth c (rest.map String.toList)) := by
      induction rest generalizing l with
      | nil => simp [List.intercalate, linesText]
      | cons m rest ih =>
        simp only [List.map_cons, List.intercalate_cons_cons, linesText, List.append_assoc] at ih ⊢
        rw [ih]
        rfl
    have indented : ((l :: rest).map (indent (depth + 1) ++ ·)).map String.toList =
        (l :: rest).map fun x => spaces (depth + 1) ++ x.toList := by
      simp [indent, spaces]
    simp only [block, List.isEmpty_cons, Bool.false_eq_true, if_false, String.toList_append, single,
      String.toList_intercalate, indented, List.append_assoc]
    refine congrArg (opening.toList ++ ·) ?_
    rw [show (indent depth).toList = spaces depth by simp [indent, spaces]]
    exact congrArg ('\n' :: ·) more

theorem skipSpace_blanks {z : List Char} (blank : ∀ c ∈ z, isSpace c = true) (cs : List Char) :
    skipSpace (z ++ cs) = skipSpace cs :=
  List.dropWhile_append_of_pos blank

theorem skipSpace_line (depth : Nat) (cs : List Char) :
    skipSpace ('\n' :: (spaces depth ++ cs)) = skipSpace cs := by
  have blank : ∀ c ∈ '\n' :: spaces depth, isSpace c = true := by
    refine List.forall_mem_cons.2 ⟨by decide, fun c mem => ?_⟩
    rw [List.eq_of_mem_replicate mem]
    decide
  exact skipSpace_blanks blank cs

variable {depth d fuel : Nat} {first : Bool} {closing : Char} {r r' : List Char}

theorem skipSpace_end (first : Bool) (d : Nat) (r : List Char) (solid : isSpace closing = false) :
    skipSpace (bodyText first d closing [] ++ r) = closing :: r := by
  cases first with
  | true => exact skipSpace_cons solid r
  | false =>
    show skipSpace ('\n' :: (spaces d ++ [closing]) ++ r) = _
    rw [List.cons_append, List.append_assoc, skipSpace_line]
    exact skipSpace_cons solid r

theorem nextText_line (first : Bool) (d : Nat) (closing : Char) (r l : List Char)
    (rest : List (List Char)) :
    nextText first (bodyText first d closing (l :: rest) ++ r) =
      skipSpace (l ++ (linesText d closing rest ++ r)) := by
  cases first with
  | true =>
    show skipSpace ('\n' :: (spaces (d + 1) ++ (l ++ linesText d closing rest)) ++ r) = _
    simp only [List.cons_append, List.append_assoc, skipSpace_line]
  | false =>
    show nextText false (',' :: '\n' :: (spaces (d + 1) ++ (l ++ linesText d closing rest)) ++ r) = _
    simp only [List.cons_append, List.append_assoc, nextText, Bool.false_eq_true, if_false,
      skipSpace_cons (show isSpace ',' = false by decide), skipSpace_line]

/-- A text that stands behind a value: a comma, the end of a line, or nothing. -/
def EndsValue (r : List Char) : Prop := ∀ c ∈ r.head?, c = ',' ∨ c = '\n'

theorem EndsValue.stops (ends : EndsValue r) : Stops r := by
  cases r with
  | nil => trivial
  | cons c r =>
    rcases ends c rfl with rfl | rfl
    · exact ⟨by decide, by decide, by decide, by decide⟩
    · exact ⟨by decide, by decide, by decide, by decide⟩

theorem endsValue_lines (rest : List (List Char)) : EndsValue (linesText d closing rest ++ r) := by
  intro c mem
  cases rest <;>
    simp only [linesText, List.cons_append, List.head?_cons, Option.mem_some_iff] at mem <;>
    subst mem
  · exact Or.inr rfl
  · exact Or.inl rfl

/-! ### Values -/

/-- A number has not been taken in full. -/
def Halfway (r : List Char) : Prop := ∃ c ∈ r.head?, Numeric c

/-- What holds of a value that is read back. -/
def ValueReads (v : Json) : Prop := ∀ {fuel depth d : Nat} {r r' : List Char} {v' : Json},
  readValue fuel depth ((v.prettyAt d).toList ++ r) = .ok (v', r') → EndsValue r →
    ReadsAs v v' ∧ r' = r ∨ Halfway r'

def ItemsRead (items : List Json) : Prop :=
  ∀ {fuel depth d : Nat} {first : Bool} {r r' : List Char} {items' : List Json},
    readItems fuel depth first
        (bodyText first d ']' ((prettyItems (d + 1) items).map String.toList) ++ r) = .ok (items', r') →
      List.Forall₂ ReadsAs items items' ∧ r' = r

def MembersRead (members : List (String × Json)) : Prop :=
  ∀ {fuel depth d : Nat} {first : Bool} {r r' : List Char} {members' : List (String × Json)},
    readMembers fuel depth first
        (bodyText first d '\x7d' ((prettyMembers (d + 1) members).map String.toList) ++ r) =
          .ok (members', r') →
      members'.map Prod.fst = members.map Prod.fst ∧
        List.Forall₂ ReadsAs (members.map Prod.snd) (members'.map Prod.snd) ∧ r' = r

theorem numeric_solid {c : Char} (numeric : Numeric c) :
    isSpace c = false ∧ c ≠ ',' ∧ c ≠ ']' ∧ c ≠ '\x7d' ∧ c ≠ '\n' := by
  rcases numeric with digit | rfl | rfl | rfl | rfl | rfl
  · refine ⟨isSpace_of_isDigit digit, ?_, ?_, ?_, ?_⟩ <;> rintro rfl <;> simp at digit
  all_goals decide

/-- The text of a number is read by its sign and its digits alone. -/
theorem readValue_sign {c : Char} (numeric : Numeric c) (fuel depth : Nat) (cs : List Char) :
    readValue (fuel + 1) depth (c :: cs) =
      if c = '-' then readNumber true cs
      else if c.isDigit then readNumber false (c :: cs) else .error .malformed := by
  by_cases minus : c = '-'
  · subst minus
    rw [readValue, skipSpace_cons (by decide), if_pos rfl]
    rfl
  · rw [if_neg minus]
    rcases numeric with digit | rfl | rfl | rfl | rfl | rfl
    · rw [readValue_digit digit, if_pos digit]
    all_goals first
      | exact absurd rfl minus
      | (rw [readValue, skipSpace_cons (by decide)]; rfl)

variable {τ : List Char} {w : Json}

theorem readValue_anywhere (numeric : ∀ c ∈ τ, Numeric c) (some : τ ≠ []) (fuel depth fuel' depth' : Nat)
    (r : List Char) : readValue (fuel + 1) depth (τ ++ r) = readValue (fuel' + 1) depth' (τ ++ r) := by
  obtain ⟨c, τ, rfl⟩ := List.exists_cons_of_ne_nil some
  rw [List.cons_append, readValue_sign (numeric c List.mem_cons_self),
    readValue_sign (numeric c List.mem_cons_self)]

/-- A number is read the same before every text that does not go on with it. -/
theorem readValue_before (numeric : ∀ c ∈ τ, Numeric c) (some : τ ≠ []) {fuel depth : Nat}
    (done : readValue fuel depth (τ ++ r) = .ok (w, r)) (stops : Stops r) (fuel' depth' : Nat)
    {r' : List Char} (stops' : Stops r') : readValue (fuel' + 1) depth' (τ ++ r') = .ok (w, r') := by
  obtain ⟨y, same, -, takes⟩ := (takes_all fuel).1 _ _ _ _ done
  obtain rfl := List.append_cancel_right same
  rw [readValue_anywhere numeric some fuel' depth' (2 * τ.length) depth]
  exact takes _ (Nat.le_refl _) r' (.inr ⟨stops, stops'⟩)

/-- The text of a number is taken in full, and then alone it is read the same, or it is not. -/
theorem readValue_numeric (numeric : ∀ c ∈ τ, Numeric c) (some : τ ≠ []) {v' : Json}
    (done : readValue fuel depth (τ ++ r) = .ok (v', r')) (ends : EndsValue r) :
    r' = r ∨ Halfway r' := by
  obtain ⟨c, τ, rfl⟩ := List.exists_cons_of_ne_nil some
  have takes : TakesNumeric (c :: τ ++ r) r' := by
    cases fuel with
    | zero => cases done
    | succ fuel =>
      have own := numeric c List.mem_cons_self
      rw [List.cons_append, readValue_sign own] at done
      split at done
      · exact (readNumber_numeric done).1.cons own
      · split at done
        · exact (readNumber_numeric done).1
        · cases done
  obtain ⟨y, split, taken⟩ := takes
  rcases List.append_eq_append_iff.1 split with ⟨z, rfl, rest⟩ | ⟨z, text, rfl⟩
  · -- Nothing behind the number can be taken.
    cases z with
    | nil => exact Or.inl rest.symm
    | cons d z =>
      have own := numeric_solid (taken d (by simp))
      rcases ends d (by rw [rest]; rfl) with comma | line
      · exact absurd comma own.2.1
      · exact absurd line own.2.2.2.2
  · cases z with
    | nil => exact Or.inl rfl
    | cons d z => exact Or.inr ⟨d, rfl, numeric d (by rw [text]; simp)⟩

/-- The text of a number is read as a value if it is read as one wherever numbers end. -/
theorem read_numeric {s : String} (numeric : NumericText s) (some : s.toList ≠ []) :
    read s = .ok w ↔ readValue 1 0 s.toList = .ok (w, []) := by
  have alone := readValue_anywhere numeric some (2 * s.toList.length + 1) maxDepth 0 0 []
  rw [List.append_nil] at alone
  simp only [read, alone, bind_ok_iff]
  constructor
  · rintro ⟨⟨v, rest⟩, own, done⟩
    dsimp only at done
    split at done
    · rename_i blank
      cases done
      rw [← List.append_nil s.toList] at own
      rcases readValue_numeric numeric some own (fun c mem => nomatch mem) with rfl | ⟨c, head, digit⟩
      · rwa [List.append_nil] at own
      · obtain ⟨rest, rfl⟩ := List.head?_eq_some_iff.1 head
        rw [skipSpace_cons (numeric_solid digit).1] at blank
        cases blank
    · cases done
  · exact fun own => ⟨_, own, rfl⟩

theorem valueReads_numeric {v : Json} {s : String} (text : ∀ d, v.prettyAt d = s) (numeric : NumericText s)
    (some : s.toList ≠ []) (reads : ∀ w, read s = .ok w → ReadsAs v w) : ValueReads v := by
  intro fuel depth d r r' v' done ends
  rw [text] at done
  refine (readValue_numeric numeric some done ends).imp (fun same => ?_) id
  subst same
  have alone : readValue 1 0 (s.toList ++ []) = .ok (v', []) :=
    readValue_before numeric some done ends.stops 0 0 trivial
  rw [List.append_nil] at alone
  exact ⟨reads _ ((read_numeric numeric some).2 alone), rfl⟩

theorem readValue_fuel {cs : List Char} {v' : Json} (done : readValue fuel depth cs = .ok (v', r')) :
    ∃ enough, fuel = enough + 1 := by
  cases fuel with
  | zero => cases done
  | succ enough => exact ⟨enough, rfl⟩

theorem valueReads_exact {v : Json} (same : ReadsAs v v)
    (exact : ∀ fuel depth d r, readValue (fuel + 1) depth ((v.prettyAt d).toList ++ r) = .ok (v, r)) :
    ValueReads v := by
  intro fuel depth d r r' v' done _
  obtain ⟨fuel, rfl⟩ := readValue_fuel done
  rw [exact] at done
  cases done
  exact .inl ⟨same, rfl⟩

theorem valueReads_null : ValueReads .null := by
  refine valueReads_exact .null fun fuel depth d r => ?_
  simp [prettyAt, readValue, skipSpace, isSpace, keyword]

theorem valueReads_bool (b : Bool) : ValueReads (.bool b) :=
  valueReads_exact (.bool b) fun fuel depth _ r => readValue_bool b fuel depth r

theorem valueReads_str (s : String) : ValueReads (.str s) :=
  valueReads_exact (.str s) fun fuel depth _ r => readValue_str s fuel depth r

theorem valueReads_int (i : Int) : ValueReads (.int i) :=
  valueReads_numeric (fun _ => rfl) (numericText_int i) (int_some i) fun _ => .int

theorem read_null : read "null" = .ok .null := rfl

theorem valueReads_float (x : Float) : ValueReads (.float x) := by
  rcases writeFloat_cases x with word | ⟨numeric, some⟩
  · intro fuel depth d r r' v' done ends
    rw [prettyAt, word] at done
    refine (valueReads_null (d := d) done ends).imp (fun ⟨reads, same⟩ => ⟨?_, same⟩) id
    cases reads
    exact .float (by rw [word, read_null])
  · exact valueReads_numeric (fun _ => rfl) numeric some fun _ => .float

/-! ### Items and members -/

/-- No value begins like the end of an array. -/
theorem prettyAt_head (v : Json) (d : Nat) :
    ∃ c cs, (v.prettyAt d).toList = c :: cs ∧ isSpace c = false ∧ c ≠ ']' := by
  have number {s : String} (numeric : NumericText s) (some : s.toList ≠ []) :
      ∃ c cs, s.toList = c :: cs ∧ isSpace c = false ∧ c ≠ ']' := by
    obtain ⟨c, cs, text⟩ := List.exists_cons_of_ne_nil some
    have own := numeric_solid (numeric c (text ▸ List.mem_cons_self))
    exact ⟨c, cs, text, own.1, own.2.2.1⟩
  cases v with
  | null => exact ⟨'n', ['u', 'l', 'l'], by simp [prettyAt], by decide⟩
  | bool b =>
    cases b with
    | false => exact ⟨'f', ['a', 'l', 's', 'e'], by simp [prettyAt], by decide⟩
    | true => exact ⟨'t', ['r', 'u', 'e'], by simp [prettyAt], by decide⟩
  | int i => exact number (numericText_int i) (int_some i)
  | float x =>
    rcases writeFloat_cases x with word | ⟨numeric, some⟩
    · exact ⟨'n', ['u', 'l', 'l'], by simp [prettyAt, word], by decide⟩
    · exact number numeric some
  | str s => exact ⟨'"', _, quote_toList s, by decide⟩
  | arr items => exact ⟨'[', _, block_toList "[" rfl d _, by decide⟩
  | obj members => exact ⟨'\x7b', _, block_toList "\x7b" rfl d _, by decide⟩

theorem itemsRead_nil : ItemsRead [] := by
  intro fuel depth d first r r' items' done
  have closed := skipSpace_end first d r (show isSpace ']' = false by decide)
  cases fuel with
  | zero => cases done
  | succ fuel =>
    rw [prettyItems, List.map_nil, readItems_stop closed] at done
    cases done
    exact ⟨.nil, rfl⟩

/-- Items do not go on behind a number that was not taken in full. -/
theorem readItems_numeric {c : Char} {cs : List Char} {items' : List Json} (numeric : Numeric c)
    (done : readItems fuel depth false (c :: cs) = .ok (items', r')) : False := by
  obtain ⟨solid, comma, closed, -⟩ := numeric_solid numeric
  cases fuel with
  | zero => cases done
  | succ fuel =>
    rcases readItems_cases done with ⟨stop, -⟩ | ⟨d, rest, next, -⟩
    · rw [skipSpace_cons solid] at stop
      exact closed (List.cons.inj stop).1
    · simp [nextText, skipSpace_cons solid, comma] at next

theorem itemsRead_cons {v : Json} {rest : List Json} (value : ValueReads v) (more : ItemsRead rest) :
    ItemsRead (v :: rest) := by
  intro fuel depth d first r r' items' done
  cases fuel with
  | zero => cases done
  | succ fuel =>
    obtain ⟨c, cs, text, solid, opens⟩ := prettyAt_head v (d + 1)
    have next := nextText_line first d ']' r
      (v.prettyAt (d + 1)).toList ((prettyItems (d + 1) rest).map String.toList)
    rw [text, List.cons_append, skipSpace_cons solid] at next
    rw [prettyItems, List.map_cons, text, readItems_goOn next opens, ← List.cons_append, ← text] at done
    simp only [readItem, bind_ok_iff] at done
    obtain ⟨⟨v', r1⟩, own, ⟨items', r2⟩, others, eq⟩ := done
    cases eq
    rcases value own (endsValue_lines _) with ⟨reads, rfl⟩ | ⟨c, head, numeric⟩
    · obtain ⟨each, same⟩ := @more _ _ _ false _ _ _ others
      exact ⟨.cons reads each, same⟩
    · obtain ⟨cs, rfl⟩ := List.head?_eq_some_iff.1 head
      exact (readItems_numeric numeric others).elim

theorem membersRead_nil : MembersRead [] := by
  intro fuel depth d first r r' members' done
  have closed := skipSpace_end first d r (show isSpace '\x7d' = false by decide)
  cases fuel with
  | zero => cases done
  | succ fuel =>
    rw [prettyMembers, List.map_nil, readMembers_stop closed] at done
    cases done
    exact ⟨rfl, .nil, rfl⟩

theorem readMembers_numeric {c : Char} {cs : List Char} {members' : List (String × Json)}
    (numeric : Numeric c) (done : readMembers fuel depth false (c :: cs) = .ok (members', r')) :
    False := by
  obtain ⟨solid, comma, -, closed, -⟩ := numeric_solid numeric
  cases fuel with
  | zero => cases done
  | succ fuel =>
    rcases readMembers_cases done with ⟨stop, -⟩ | ⟨rest, next, -⟩
    · rw [skipSpace_cons solid] at stop
      exact closed (List.cons.inj stop).1
    · simp [nextText, skipSpace_cons solid, comma] at next

theorem membersRead_cons {k : String} {v : Json} {rest : List (String × Json)} (value : ValueReads v)
    (more : MembersRead rest) : MembersRead ((k, v) :: rest) := by
  intro fuel depth d first r r' members' done
  cases fuel with
  | zero => cases done
  | succ fuel =>
    have text : (quote k ++ ": " ++ v.prettyAt (d + 1)).toList =
        '"' :: (k.toList.flatMap escapeChar ++ '"' :: ':' :: ' ' :: (v.prettyAt (d + 1)).toList) := by
      simp [quote_toList]
    have next := nextText_line first d '\x7d' r
      (quote k ++ ": " ++ v.prettyAt (d + 1)).toList ((prettyMembers (d + 1) rest).map String.toList)
    rw [text, List.cons_append, skipSpace_cons (by decide), List.append_assoc, List.cons_append] at next
    rw [prettyMembers, List.map_cons, text, readMembers_goOn next, readMember, readString_quoted] at done
    rw [bind_ok_iff] at done
    obtain ⟨⟨k', rest'⟩, key, done⟩ := done
    cases key
    simp only [List.cons_append, skipSpace_cons (show isSpace ':' = false by decide),
      bind_ok_iff] at done
    obtain ⟨⟨v', r1⟩, own, ⟨members', r2⟩, others, eq⟩ := done
    cases eq
    obtain ⟨fuel, rfl⟩ := readValue_fuel own
    rw [← readValue_skip, ← List.singleton_append,
      skipSpace_blanks (List.forall_mem_singleton.2 rfl), readValue_skip] at own
    rcases value own (endsValue_lines _) with ⟨reads, rfl⟩ | ⟨c, head, numeric⟩
    · obtain ⟨keys, each, same⟩ := @more _ _ _ false _ _ _ others
      exact ⟨congrArg (k :: ·) keys, .cons reads each, same⟩
    · obtain ⟨cs, rfl⟩ := List.head?_eq_some_iff.1 head
      exact (readMembers_numeric numeric others).elim

theorem valueReads_arr {items : List Json} (each : ItemsRead items) : ValueReads (.arr items) := by
  intro fuel depth d r r' v' done _
  obtain ⟨fuel, rfl⟩ := readValue_fuel done
  rw [prettyAt, block_toList "[" rfl, List.append_assoc] at done
  cases depth with
  | zero => simp [readValue, skipSpace_cons (show isSpace '[' = false by decide)] at done
  | succ depth =>
    rw [show "[".toList = ['['] from rfl, List.singleton_append, readValue,
      skipSpace_cons (by decide)] at done
    simp only [bind_ok_iff] at done
    obtain ⟨⟨items', r1⟩, inner, done⟩ := done
    cases done
    obtain ⟨reads, same⟩ := each inner
    exact .inl ⟨.arr reads, same⟩

theorem valueReads_obj {members : List (String × Json)} (each : MembersRead members) :
    ValueReads (.obj members) := by
  intro fuel depth d r r' v' done _
  obtain ⟨fuel, rfl⟩ := readValue_fuel done
  rw [prettyAt, block_toList "\x7b" rfl, List.append_assoc] at done
  cases depth with
  | zero => simp [readValue, skipSpace_cons (show isSpace '\x7b' = false by decide)] at done
  | succ depth =>
    rw [show "\x7b".toList = ['\x7b'] from rfl, List.singleton_append, readValue,
      skipSpace_cons (by decide)] at done
    simp only [bind_ok_iff] at done
    obtain ⟨⟨members', r1⟩, inner, done⟩ := done
    cases done
    obtain ⟨keys, reads, same⟩ := each inner
    exact .inl ⟨.obj keys reads, same⟩

mutual

theorem valueReads : (v : Json) → ValueReads v
  | .null => valueReads_null
  | .bool b => valueReads_bool b
  | .int i => valueReads_int i
  | .float x => valueReads_float x
  | .str s => valueReads_str s
  | .arr items => valueReads_arr (itemsRead items)
  | .obj members => valueReads_obj (membersRead members)

theorem itemsRead : (items : List Json) → ItemsRead items
  | [] => itemsRead_nil
  | v :: rest => itemsRead_cons (valueReads v) (itemsRead rest)

theorem membersRead : (members : List (String × Json)) → MembersRead members
  | [] => membersRead_nil
  | (_, v) :: rest => membersRead_cons (valueReads v) (membersRead rest)

end

/-- What is read of a written text is what was written, up to its numbers. -/
theorem read_pretty {v v' : Json} (done : read v.pretty = .ok v') : ReadsAs v v' := by
  simp only [read, bind_ok_iff] at done
  obtain ⟨⟨w, rest⟩, own, done⟩ := done
  dsimp only at done
  split at done
  · rename_i blank
    cases done
    rw [pretty, ← List.append_nil (v.prettyAt 0).toList] at own
    rcases valueReads v own (fun c mem => nomatch mem) with ⟨reads, -⟩ | ⟨c, head, numeric⟩
    · exact reads
    · obtain ⟨rest, rfl⟩ := List.head?_eq_some_iff.1 head
      rw [skipSpace_cons (numeric_solid numeric).1] at blank
      cases blank
  · cases done

/-! ### The text as characters -/

mutual

/-- The characters of the text with one line per item and member. -/
def prettyChars (depth : Nat) : Json → List Char
  | .arr items => '[' :: bodyText true depth ']' (itemLines (depth + 1) items)
  | .obj members => '\x7b' :: bodyText true depth '\x7d' (memberLines (depth + 1) members)
  | v => v.compact.toList

def itemLines (depth : Nat) : List Json → List (List Char)
  | [] => []
  | v :: rest => v.prettyChars depth :: itemLines depth rest

def memberLines (depth : Nat) : List (String × Json) → List (List Char)
  | [] => []
  | (k, v) :: rest =>
    ((quote k).toList ++ ':' :: ' ' :: v.prettyChars depth) :: memberLines depth rest

end

mutual

theorem prettyAt_toList (depth : Nat) : ∀ v : Json, (v.prettyAt depth).toList = v.prettyChars depth
  | .arr items => by
    rw [prettyAt, block_toList "[" (c := ']') rfl, prettyItems_toList, prettyChars]
    rfl
  | .obj members => by
    rw [prettyAt, block_toList "\x7b" (c := '\x7d') rfl, prettyMembers_toList, prettyChars]
    rfl
  | .null => rfl
  | .bool _ => rfl
  | .int _ => rfl
  | .float _ => rfl
  | .str _ => rfl

theorem prettyItems_toList (depth : Nat) : ∀ items : List Json,
    (prettyItems depth items).map String.toList = itemLines depth items
  | [] => rfl
  | v :: rest => by
    rw [prettyItems, List.map_cons, prettyAt_toList depth v, prettyItems_toList depth rest, itemLines]

theorem prettyMembers_toList (depth : Nat) : ∀ members : List (String × Json),
    (prettyMembers depth members).map String.toList = memberLines depth members
  | [] => rfl
  | (k, v) :: rest => by
    rw [prettyMembers, List.map_cons, String.toList_append, String.toList_append,
      prettyAt_toList depth v, prettyMembers_toList depth rest, memberLines, List.append_assoc]
    rfl

end

end SourceSlices.Json
