import SourceSlices.Proofs.ChunkGroups
import SourceSlices.Proofs.JsonText

/-!
Keywords, strings and numbers are read from the beginning of a text whatever follows. Only a number
looks at the next character, to see that it does not go on.
-/
namespace SourceSlices.Json

/-- From a text that begins with `y` the value `v` is read, and the rest is left. -/
def Takes {α : Type} (p : List Char → Except Fault (α × List Char)) (y : List Char) (v : α) : Prop :=
  ∀ r, p (y ++ r) = .ok (v, r)

/-- Texts before which a number is read alike: they begin alike, or neither goes on with a number. -/
def Alike (r r' : List Char) : Prop := r'.head? = r.head? ∨ Stops r ∧ Stops r'

/-- The same before all texts that are like `r`. -/
def TakesBefore {α : Type} (p : List Char → Except Fault (α × List Char)) (y : List Char) (v : α)
    (r : List Char) : Prop :=
  ∀ r', Alike r r' → p (y ++ r') = .ok (v, r')

variable {cs r : List Char} {v : Json}

/-! ### Keywords and strings -/

theorem keyword_takes {value : Json} {ks : List Char} (done : keyword value ks cs = .ok (v, r)) :
    cs = ks ++ r ∧ Takes (keyword value ks) ks v := by
  induction ks generalizing cs with
  | nil =>
    cases done
    exact ⟨rfl, fun _ => rfl⟩
  | cons k ks ih =>
    cases cs with
    | nil => cases done
    | cons c cs =>
      simp only [keyword] at done
      split at done
      · rename_i same
        obtain ⟨rfl, takes⟩ := ih done
        refine ⟨by rw [same]; rfl, fun r' => ?_⟩
        simp only [List.cons_append, keyword, if_true]
        exact takes r'
      · cases done

theorem hex4_takes {n : Nat} (done : hex4 cs = .ok (n, r)) : ∃ y, cs = y ++ r ∧ Takes hex4 y n := by
  unfold hex4 at done
  split at done
  · rename_i a b c d rest
    split at done
    · rename_i a' b' c' d' ha hb hc hd
      cases done
      refine ⟨[a, b, c, d], rfl, fun r' => ?_⟩
      simp only [List.cons_append, List.nil_append, hex4, ha, hb, hc, hd]
    · cases done
  · cases done

theorem unicodeEscape_takes {c : Char} (done : unicodeEscape cs = .ok (c, r)) :
    ∃ y, cs = y ++ r ∧ Takes unicodeEscape y c := by
  rw [unicodeEscape, bind_ok_iff] at done
  obtain ⟨⟨n, rest⟩, first, done⟩ := done
  obtain ⟨y, rfl, takes⟩ := hex4_takes first
  dsimp only at done
  split at done
  · cases done
  · rename_i low
    split at done
    · rename_i high
      split at done
      · cases done
      · cases done
      · -- A high surrogate takes the low one behind it as well.
        simp only [bind_ok_iff] at done
        obtain ⟨⟨m, rest'⟩, second, done⟩ := done
        obtain ⟨y', rfl, takes'⟩ := hex4_takes second
        dsimp only at done
        split at done
        · rename_i pair
          obtain ⟨rfl, rfl⟩ := Prod.mk.inj (Except.ok.inj done)
          refine ⟨y ++ '\\' :: 'u' :: y', by simp, fun r' => ?_⟩
          rw [List.append_assoc, unicodeEscape, takes]
          simp only [bind, Except.bind, List.cons_append, takes' _]
          rw [if_neg low, if_pos high, if_pos pair]
        · cases done
      · cases done
    · rename_i high
      cases done
      refine ⟨y, rfl, fun r' => ?_⟩
      rw [unicodeEscape, takes]
      simp only [bind, Except.bind]
      rw [if_neg low, if_neg high]

/-- The body of a string ends at a quotation mark, or some characters of it are taken whatever follows. -/
theorem stringBody_split {fuel : Nat} {acc : List Char} {s : String}
    (done : stringBody (fuel + 1) cs acc = .ok (s, r)) :
    (cs = '"' :: r ∧ ∀ enough r', stringBody (enough + 1) ('"' :: r') acc = .ok (s, r')) ∨
      ∃ z rest acc', cs = z ++ rest ∧ 0 < z.length ∧ stringBody fuel rest acc' = .ok (s, r) ∧
        ∀ enough r', stringBody (enough + 1) (z ++ r') acc = stringBody enough r' acc' := by
  cases cs with
  | nil => cases done
  | cons c cs =>
    unfold stringBody at done
    by_cases quote : c = '"'
    · rw [if_pos quote] at done
      cases done
      exact .inl ⟨by rw [quote], fun enough r' => by simp only [stringBody, if_true]⟩
    rw [if_neg quote] at done
    by_cases escape : c = '\\'
    · rw [if_pos escape] at done
      cases cs with
      | nil => cases done
      | cons e rest =>
        dsimp only at done
        by_cases unicode : e = 'u'
        · rw [if_pos unicode, bind_ok_iff] at done
          obtain ⟨⟨ch, rest'⟩, first, done⟩ := done
          obtain ⟨y, rfl, takes⟩ := unicodeEscape_takes first
          refine .inr ⟨c :: e :: y, rest', _, rfl, Nat.succ_pos _, done, fun enough r' => ?_⟩
          rw [List.cons_append, List.cons_append, stringBody, if_neg quote, if_pos escape]
          simp only [unicode, if_true, takes _, bind, Except.bind]
        · rw [if_neg unicode] at done
          split at done
          · rename_i ch plain
            refine .inr ⟨[c, e], rest, _, rfl, Nat.succ_pos _, done, fun enough r' => ?_⟩
            rw [List.cons_append, List.cons_append, stringBody, if_neg quote, if_pos escape]
            simp only [unicode, if_false, plain, List.nil_append]
          · cases done
    · rw [if_neg escape] at done
      split at done
      · cases done
      · rename_i plain
        refine .inr ⟨[c], cs, _, rfl, Nat.succ_pos _, done, fun enough r' => ?_⟩
        simp only [List.cons_append, List.nil_append, stringBody, quote, escape, plain, if_false]

theorem stringBody_takes {fuel : Nat} {acc : List Char} {s : String}
    (done : stringBody fuel cs acc = .ok (s, r)) :
    ∃ y, cs = y ++ r ∧ ∀ enough, y.length ≤ enough → Takes (stringBody enough · acc) y s := by
  induction fuel generalizing cs acc with
  | zero => cases done
  | succ fuel ih =>
    obtain ⟨rfl, ends⟩ | ⟨z, rest, acc', rfl, some, more, goes⟩ := stringBody_split done
    · refine ⟨['"'], rfl, fun enough fits r' => ?_⟩
      obtain ⟨enough, rfl⟩ := Nat.exists_eq_succ_of_ne_zero (Nat.ne_of_gt fits)
      exact ends enough r'
    · obtain ⟨y, rfl, takes⟩ := ih more
      refine ⟨z ++ y, (List.append_assoc z y r).symm, fun enough fits r' => ?_⟩
      rw [List.length_append] at fits
      obtain ⟨enough, rfl⟩ := Nat.exists_eq_succ_of_ne_zero (by omega : enough ≠ 0)
      show stringBody (enough + 1) (z ++ y ++ r') acc = _
      rw [List.append_assoc, goes]
      exact takes enough (by omega) r'

theorem readString_takes {s : String} (done : readString cs = .ok (s, r)) :
    ∃ y, cs = y ++ r ∧ Takes readString y s := by
  obtain ⟨y, rfl, takes⟩ := stringBody_takes done
  refine ⟨y, rfl, fun r' => takes _ ?_ r'⟩
  rw [List.length_append]
  omega

/-! ### Numbers -/

/-- The digits of a number have come to an end. -/
def NoDigit (r : List Char) : Prop := ∀ d ∈ r.head?, d.isDigit = false

theorem Stops.noDigit {r : List Char} (stops : Stops r) : NoDigit r := by
  intro d mem
  obtain ⟨r, rfl⟩ := List.head?_eq_some_iff.1 (Option.mem_def.1 mem)
  exact stops.1

theorem Stops.head_ne {r : List Char} (stops : Stops r) {c : Char} (goesOn : c = '.' ∨ c = 'e' ∨ c = 'E') :
    r.head? ≠ some c := by
  intro same
  obtain ⟨r, rfl⟩ := List.head?_eq_some_iff.1 same
  obtain ⟨-, point, small, capital⟩ := stops
  rcases goesOn with rfl | rfl | rfl
  · exact point rfl
  · exact small rfl
  · exact capital rfl

theorem NoDigit.of_alike {r r' : List Char} (stops : NoDigit r) (alike : Alike r r') : NoDigit r' := by
  rcases alike with same | ⟨-, own⟩
  · exact fun d mem => stops d (same ▸ mem)
  · exact own.noDigit

theorem head_ne_of_alike {r r' : List Char} {c : Char} (other : r.head? ≠ some c)
    (goesOn : c = '.' ∨ c = 'e' ∨ c = 'E') (alike : Alike r r') : r'.head? ≠ some c := by
  rcases alike with same | ⟨-, own⟩
  · exact same ▸ other
  · exact own.head_ne goesOn

theorem stops_of_alike {r r' : List Char} (stops : Stops r) (alike : Alike r r') : Stops r' := by
  rcases alike with same | ⟨-, own⟩
  · cases r' with
    | nil => trivial
    | cons c r' =>
      obtain ⟨r, rfl⟩ := List.head?_eq_some_iff.1 same.symm
      exact stops
  · exact own

theorem alike_append {y r r' : List Char} (alike : Alike r r') : Alike (y ++ r) (y ++ r') := by
  cases y with
  | nil => exact alike
  | cons c y => exact .inl rfl

theorem alike_some {y : List Char} (some : y ≠ []) (r r' : List Char) : Alike (y ++ r) (y ++ r') := by
  obtain ⟨c, y, rfl⟩ := List.exists_cons_of_ne_nil some
  exact .inl rfl

theorem takeDigits_stop {r : List Char} (stops : NoDigit r) (sig taken extra : Nat) (full : Bool) :
    takeDigits r sig full taken extra = (sig, taken, extra, r) := by
  cases r with
  | nil => rfl
  | cons c r =>
    have solid : c.isDigit = false := stops c rfl
    simp only [takeDigits, solid, Bool.false_eq_true, if_false]

theorem takeDigits_takes {sig taken extra : Nat} {full : Bool} {a b c : Nat}
    (done : takeDigits cs sig full taken extra = (a, b, c, r)) :
    ∃ y, cs = y ++ r ∧ NoDigit r ∧
      ∀ r', Alike r r' → takeDigits (y ++ r') sig full taken extra = (a, b, c, r') := by
  induction cs generalizing sig full taken extra with
  | nil =>
    cases done
    have none : NoDigit [] := fun _ none => nomatch none
    exact ⟨[], rfl, none, fun r' alike => takeDigits_stop (none.of_alike alike) _ _ _ _⟩
  | cons d cs ih =>
    simp only [takeDigits] at done
    split at done
    · rename_i digit
      split at done
      · rename_i long
        obtain ⟨y, rfl, stops, takes⟩ := ih done
        refine ⟨d :: y, rfl, stops, fun r' same => ?_⟩
        simp only [List.cons_append, takeDigits, digit, long, if_true, takes r' same]
      · rename_i short
        obtain ⟨y, rfl, stops, takes⟩ := ih done
        refine ⟨d :: y, rfl, stops, fun r' same => ?_⟩
        simp only [List.cons_append, takeDigits, digit, if_true, short, Bool.false_eq_true, if_false,
          takes r' same]
    · rename_i solid
      cases done
      have stops : NoDigit (d :: cs) := by simpa [NoDigit] using solid
      exact ⟨[], rfl, stops, fun r' alike => takeDigits_stop (stops.of_alike alike) _ _ _ _⟩

/-- The value of a number with the digits of its exponent. -/
def exponentValue (negative : Bool) (sig : Nat) (start : Int) (minus : Bool) (digits : List Char) :
    Except Fault Json :=
  let e : Nat := digits.foldl (fun n d => n * 10 + (d.toNat - 48)) 0
  if 2147483648 ≤ e then
    if sig ≠ 0 ∧ !minus then .error .malformed else .ok (.float (if negative then -0.0 else 0.0))
  else floatOf negative sig (if minus then start - (e : Int) else start + (e : Int))

/-- The digits of an exponent behind its sign. -/
def exponentDigits (negative : Bool) (sig : Nat) (start : Int) (minus : Bool) :
    List Char → Except Fault (Json × List Char)
  | [] => .error .eof
  | c :: cs =>
    if c.isDigit then
      (exponentValue negative sig start minus ((c :: cs).takeWhile Char.isDigit)).map
        fun v => (v, (c :: cs).dropWhile Char.isDigit)
    else .error .malformed

/-- The sign of an exponent, if it has one, and what follows. -/
def exponentSign (cs : List Char) : Bool × List Char :=
  match cs with
  | '-' :: rest => (true, rest)
  | '+' :: rest => (false, rest)
  | _ => (false, cs)

theorem exponentPart_eq (negative : Bool) (sig : Nat) (start : Int) (cs : List Char) :
    exponentPart negative sig start cs =
      exponentDigits negative sig start (exponentSign cs).1 (exponentSign cs).2 := by
  unfold exponentPart
  split
  rename_i minus ds split
  have sign : exponentSign cs = (minus, ds) := split
  rw [sign]
  cases ds with
  | nil => rfl
  | cons c ds =>
    simp only [exponentDigits, exponentValue]
    by_cases digit : c.isDigit = true
    · simp only [digit, if_true]
      split
      · split <;> rfl
      · cases floatOf _ _ _ <;> rfl
    · simp only [digit, Bool.false_eq_true, if_false]

theorem exponentSign_takes (cs : List Char) : ∃ y, cs = y ++ (exponentSign cs).2 ∧
    ∀ c r, c.isDigit = true → exponentSign (y ++ c :: r) = ((exponentSign cs).1, c :: r) := by
  unfold exponentSign
  split
  · exact ⟨['-'], rfl, fun _ _ _ => rfl⟩
  · exact ⟨['+'], rfl, fun _ _ _ => rfl⟩
  · refine ⟨[], rfl, fun c r digit => ?_⟩
    have minus : c ≠ '-' := fun same => absurd digit (by rw [same]; decide)
    have plus : c ≠ '+' := fun same => absurd digit (by rw [same]; decide)
    simp [minus, plus]

theorem span_digits {y r : List Char} (digits : ∀ d ∈ y, d.isDigit = true) (stops : NoDigit r) :
    (y ++ r).takeWhile Char.isDigit = y ∧ (y ++ r).dropWhile Char.isDigit = r := by
  rw [List.takeWhile_append_of_pos digits, List.dropWhile_append_of_pos digits]
  cases r with
  | nil => simp
  | cons c r =>
    have solid : c.isDigit = false := stops c rfl
    simp [solid]

theorem noDigit_dropWhile (cs : List Char) : NoDigit (cs.dropWhile Char.isDigit) := by
  intro d mem
  have stop := List.head?_dropWhile_not Char.isDigit cs
  rw [Option.mem_def.1 mem] at stop
  exact stop

theorem exponentDigits_takes {negative minus : Bool} {sig : Nat} {start : Int}
    (done : exponentDigits negative sig start minus cs = .ok (v, r)) :
    ∃ c y, cs = c :: y ++ r ∧ c.isDigit = true ∧
      TakesBefore (exponentDigits negative sig start minus) (c :: y) v r := by
  cases cs with
  | nil => cases done
  | cons c cs =>
    by_cases digit : c.isDigit = true
    · simp only [exponentDigits, digit, if_true] at done
      cases value : exponentValue negative sig start minus ((c :: cs).takeWhile Char.isDigit) with
      | error e =>
        rw [value] at done
        cases done
      | ok v' =>
        rw [value] at done
        cases done
        rw [List.takeWhile_cons_of_pos digit] at value
        rw [List.dropWhile_cons_of_pos digit]
        refine ⟨c, cs.takeWhile Char.isDigit, ?_, digit, fun r' same => ?_⟩
        · rw [List.cons_append, List.takeWhile_append_dropWhile]
        · have digits : ∀ d ∈ c :: cs.takeWhile Char.isDigit, d.isDigit = true := by
            refine List.forall_mem_cons.2 ⟨digit, fun d mem => ?_⟩
            exact List.all_eq_true.1 List.all_takeWhile d mem
          obtain ⟨own, left⟩ := span_digits digits ((noDigit_dropWhile cs).of_alike same)
          simp only [List.cons_append] at own left ⊢
          simp only [exponentDigits, digit, if_true, own, left, value]
          rfl
    · simp only [exponentDigits, digit] at done
      cases done

theorem exponentPart_takes {negative : Bool} {sig : Nat} {start : Int}
    (done : exponentPart negative sig start cs = .ok (v, r)) :
    ∃ y, cs = y ++ r ∧ TakesBefore (exponentPart negative sig start) y v r := by
  rw [exponentPart_eq] at done
  obtain ⟨z, split, sign⟩ := exponentSign_takes cs
  obtain ⟨c, y, same, digit, takes⟩ := exponentDigits_takes done
  refine ⟨z ++ c :: y, by rw [List.append_assoc, ← same]; exact split, fun r' head => ?_⟩
  rw [exponentPart_eq, List.append_assoc, List.cons_append, sign _ _ digit]
  exact takes r' head

/-- What follows the digits of a fraction: an exponent or nothing. -/
def scaled (negative : Bool) (sig : Nat) (e : Int) (cs : List Char) : Except Fault (Json × List Char) :=
  match cs with
  | 'e' :: rest => exponentPart negative sig e rest
  | 'E' :: rest => exponentPart negative sig e rest
  | _ => (floatOf negative sig e).map fun v => (v, cs)

theorem scaled_other (negative : Bool) (sig : Nat) (e : Int) (small : cs.head? ≠ some 'e')
    (capital : cs.head? ≠ some 'E') :
    scaled negative sig e cs = (floatOf negative sig e).map fun v => (v, cs) := by
  unfold scaled
  split
  · exact absurd rfl small
  · exact absurd rfl capital
  · rfl

theorem scaled_takes {negative : Bool} {sig : Nat} {e : Int}
    (done : scaled negative sig e cs = .ok (v, r)) :
    ∃ y, cs = y ++ r ∧ TakesBefore (scaled negative sig e) y v r := by
  by_cases small : cs.head? = some 'e'
  · obtain ⟨rest, rfl⟩ := List.head?_eq_some_iff.1 small
    obtain ⟨y, rfl, takes⟩ := exponentPart_takes done
    exact ⟨'e' :: y, rfl, takes⟩
  · by_cases capital : cs.head? = some 'E'
    · obtain ⟨rest, rfl⟩ := List.head?_eq_some_iff.1 capital
      obtain ⟨y, rfl, takes⟩ := exponentPart_takes done
      exact ⟨'E' :: y, rfl, takes⟩
    · rw [scaled_other negative sig e small capital] at done
      cases value : floatOf negative sig e with
      | error fault =>
        rw [value] at done
        cases done
      | ok f =>
        rw [value] at done
        cases done
        refine ⟨[], rfl, fun r' same => ?_⟩
        rw [List.nil_append, scaled_other negative sig e
          (head_ne_of_alike small (by simp) same) (head_ne_of_alike capital (by simp) same), value]
        rfl

theorem afterWhole_point {negative : Bool} {sig extra a b c : Nat} {rest : List Char}
    (digits : takeDigits cs sig false 0 0 = (a, b, c, rest)) :
    afterWhole negative sig extra ('.' :: cs) =
      if b + c = 0 then .error (if rest.isEmpty then .eof else .malformed)
      else scaled negative a ((extra : Int) - b) rest := by
  unfold afterWhole
  simp only [digits]
  split
  · rfl
  · split
    · rfl
    · rfl
    · rename_i small capital
      rw [scaled_other]
      · cases floatOf negative a _ <;> rfl
      · exact fun head => (List.head?_eq_some_iff.1 head).elim small
      · exact fun head => (List.head?_eq_some_iff.1 head).elim capital

theorem stops_of_head {r : List Char} (after : NoDigit r) (point : r.head? ≠ some '.')
    (small : r.head? ≠ some 'e') (capital : r.head? ≠ some 'E') : Stops r := by
  cases r with
  | nil => trivial
  | cons c r =>
    exact ⟨after c rfl, fun same => point (congrArg some same), fun same => small (congrArg some same),
      fun same => capital (congrArg some same)⟩

/-- Where the number stops nothing of the text is taken, and what is read depends on the digits alone. -/
theorem afterWhole_stopped {negative : Bool} {sig extra : Nat} (stops : Stops cs)
    (done : afterWhole negative sig extra cs = .ok (v, r)) :
    r = cs ∧ ∀ r', Alike r r' → afterWhole negative sig extra r' = .ok (v, r') := by
  cases extra with
  | zero =>
    have same : r = cs := by
      rw [afterWhole_stops stops] at done
      repeat' split at done
      all_goals exact (Prod.mk.inj (Except.ok.inj done)).2.symm
    subst same
    refine ⟨rfl, fun r' same => ?_⟩
    rw [afterWhole_stops stops] at done
    rw [afterWhole_stops (stops_of_alike stops same)]
    repeat' split at done
    all_goals
      obtain ⟨rfl, -⟩ := Prod.mk.inj (Except.ok.inj done)
      simp only [*, if_true, if_false, Bool.false_eq_true]
  | succ extra =>
    rw [afterWhole_extra stops] at done
    cases value : floatOf negative sig (extra + 1 : Nat) with
    | error fault =>
      rw [value] at done
      cases done
    | ok f =>
      rw [value] at done
      cases done
      refine ⟨rfl, fun r' same => ?_⟩
      rw [afterWhole_extra (stops_of_alike stops same), value]
      rfl

theorem afterWhole_takes {negative : Bool} {sig extra : Nat} (after : NoDigit cs)
    (done : afterWhole negative sig extra cs = .ok (v, r)) :
    ∃ y, cs = y ++ r ∧ TakesBefore (afterWhole negative sig extra) y v r := by
  by_cases point : cs.head? = some '.'
  · obtain ⟨cs, rfl⟩ := List.head?_eq_some_iff.1 point
    obtain ⟨a, b, c, rest, digits⟩ : ∃ a b c d, takeDigits cs sig false 0 0 = (a, b, c, d) :=
      ⟨_, _, _, _, rfl⟩
    obtain ⟨y, rfl, -, takes⟩ := takeDigits_takes digits
    rw [afterWhole_point digits] at done
    split at done
    · cases done
    · rename_i some
      obtain ⟨z, rfl, takes'⟩ := scaled_takes done
      refine ⟨'.' :: (y ++ z), by simp, fun r' same => ?_⟩
      rw [List.cons_append, List.append_assoc, afterWhole_point (takes _ (alike_append same)),
        if_neg some]
      exact takes' r' same
  by_cases small : cs.head? = some 'e'
  · obtain ⟨cs, rfl⟩ := List.head?_eq_some_iff.1 small
    obtain ⟨y, rfl, takes⟩ := exponentPart_takes done
    exact ⟨'e' :: y, rfl, takes⟩
  by_cases capital : cs.head? = some 'E'
  · obtain ⟨cs, rfl⟩ := List.head?_eq_some_iff.1 capital
    obtain ⟨y, rfl, takes⟩ := exponentPart_takes done
    exact ⟨'E' :: y, rfl, takes⟩
  obtain ⟨rfl, again⟩ := afterWhole_stopped (stops_of_head after point small capital) done
  exact ⟨[], rfl, again⟩

theorem readNumber_zero {negative : Bool} (after : NoDigit cs) :
    readNumber negative ('0' :: cs) = afterWhole negative 0 0 cs := by
  cases cs with
  | nil => rfl
  | cons d cs =>
    have solid : d.isDigit = false := after d rfl
    simp [readNumber, solid]

theorem readNumber_digit {negative : Bool} {c : Char} (digit : c.isDigit = true) (head : c ≠ '0') :
    readNumber negative (c :: cs) =
      match takeDigits (c :: cs) 0 false 0 0 with
      | (sig, _, extra, rest) => afterWhole negative sig extra rest := by
  unfold readNumber
  split
  · rename_i same
    cases same
  · rename_i same
    exact absurd (List.cons.inj same).1 head
  · rename_i same
    obtain ⟨rfl, rfl⟩ := List.cons.inj same
    simp only [digit, if_true]

theorem readNumber_takes {negative : Bool} (done : readNumber negative cs = .ok (v, r)) :
    ∃ y, cs = y ++ r ∧ y ≠ [] ∧ TakesBefore (readNumber negative) y v r := by
  cases cs with
  | nil => cases done
  | cons c cs =>
    by_cases zero : c = '0'
    · subst zero
      have after : NoDigit cs := by
        intro d mem
        obtain ⟨cs, rfl⟩ := List.head?_eq_some_iff.1 (Option.mem_def.1 mem)
        cases digit : d.isDigit with
        | false => rfl
        | true =>
          simp only [readNumber, digit, if_true] at done
          cases done
      rw [readNumber_zero after] at done
      obtain ⟨y, rfl, takes⟩ := afterWhole_takes after done
      refine ⟨'0' :: y, rfl, List.cons_ne_nil _ _, fun r' same => ?_⟩
      rw [List.cons_append, readNumber_zero (after.of_alike (alike_append same))]
      exact takes r' same
    · by_cases digit : c.isDigit = true
      · obtain ⟨a, b, extra, rest, digits⟩ :
            ∃ a b e d, takeDigits (c :: cs) 0 false 0 0 = (a, b, e, d) := ⟨_, _, _, _, rfl⟩
        rw [readNumber_digit digit zero, digits] at done
        obtain ⟨y, split, after, takes⟩ := takeDigits_takes digits
        obtain ⟨z, rfl, takes'⟩ := afterWhole_takes after done
        -- The digits that are taken begin with the first character.
        obtain ⟨y, rfl⟩ : ∃ y', y = c :: y' := by
          cases y with
          | nil =>
            have solid : c.isDigit = false := after c (congrArg List.head? split).symm
            rw [solid] at digit
            cases digit
          | cons d y => exact ⟨y, by rw [(List.cons.inj split).1]⟩
        refine ⟨(c :: y) ++ z, by rw [split, List.append_assoc], by simp, fun r' same => ?_⟩
        rw [List.append_assoc, List.cons_append, readNumber_digit digit zero, ← List.cons_append,
          takes _ (alike_append same)]
        exact takes' r' same
      · simp [readNumber, digit] at done

end SourceSlices.Json
