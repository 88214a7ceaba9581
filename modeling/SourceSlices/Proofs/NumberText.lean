import SourceSlices.Proofs.JsonTokens
import SourceSlices.Proofs.MetadataText

/-!
The characters of numbers. Every number is written with digits, points, signs and exponents only, and
the reader of a number takes nothing else, so it never reads beyond the end of what was written. A whole
number is read from digits only, and a double is never written so.
-/
namespace SourceSlices

/-- A character that numbers are written with. -/
def Numeric (c : Char) : Prop := c.isDigit = true ∨ c = '.' ∨ c = 'e' ∨ c = 'E' ∨ c = '+' ∨ c = '-'

instance (c : Char) : Decidable (Numeric c) := inferInstanceAs (Decidable (_ ∨ _))

/-- A text of such characters. -/
def NumericText (s : String) : Prop := ∀ c ∈ s.toList, Numeric c

instance (s : String) : Decidable (NumericText s) := List.decidableBAll _ s.toList

theorem NumericText.append {s t : String} (first : NumericText s) (second : NumericText t) :
    NumericText (s ++ t) := by
  intro c mem
  rw [String.toList_append, List.mem_append] at mem
  exact mem.elim (first c) (second c)

theorem NumericText.ofList {cs : List Char} (each : ∀ c ∈ cs, Numeric c) :
    NumericText (String.ofList cs) := by
  simpa [NumericText] using each

theorem numericText_nat (n : Nat) : NumericText (toString n) := by
  intro c mem
  rw [Nat.toString_eq_repr, Nat.toList_repr] at mem
  exact Or.inl (Json.isDigit_toDigits mem)

theorem numericText_int (i : Int) : NumericText (toString i) := by
  rw [Int.toString_eq_repr, Int.repr_eq_if]
  split
  · exact numericText_nat i.toNat
  · exact NumericText.append (s := "-") (by decide) (numericText_nat (-i).toNat)

theorem int_some (i : Int) : (toString i).toList ≠ [] := by
  rw [Int.toString_eq_repr, Int.repr_eq_if]
  split <;> simp

namespace Decimal

theorem numericText_zeros (n : Nat) : NumericText (zeros n) := by
  refine .ofList fun c mem => ?_
  rw [List.eq_of_mem_replicate mem]
  decide

theorem numericText_write (f : Format) (d : Scaled) : NumericText (f.write d) := by
  unfold Format.write
  generalize stripZeros 400 d = d
  -- However the digits are laid out, what joins them is a point, an exponent or zeros.
  have digits := numericText_nat d.digits
  dsimp only
  split
  · split
    · refine (digits.append (numericText_zeros _)).append ?_
      split <;> decide
    · split
      · have before : NumericText (String.ofList ((toString d.digits).toList.take
            (((toString d.digits).length : Int) + d.exponent).toNat)) :=
          .ofList fun c mem => digits c (List.mem_of_mem_take mem)
        have after : NumericText (String.ofList ((toString d.digits).toList.drop
            (((toString d.digits).length : Int) + d.exponent).toNat)) :=
          .ofList fun c mem => digits c (List.mem_of_mem_drop mem)
        exact (before.append (t := ".") (by decide)).append after
      · exact (NumericText.append (s := "0.") (by decide) (numericText_zeros _)).append digits
  · refine ((NumericText.append ?_ (t := "e") (by decide)).append ?_).append (numericText_int _)
    · split
      · decide
      · rename_i c text
        refine .ofList fun d mem => digits d ?_
        rw [text]
        exact mem
      · rename_i c rest _ text
        refine .ofList fun d mem => ?_
        rcases List.mem_cons.1 mem with rfl | mem
        · exact digits d (text ▸ List.mem_cons_self)
        · rcases List.mem_cons.1 mem with rfl | mem
          · decide
          · exact digits d (text ▸ List.mem_cons_of_mem _ mem)
    · split <;> decide

theorem write_some (f : Format) (d : Scaled) : (f.write d).toList ≠ [] := by
  unfold Format.write
  generalize stripZeros 400 d = d
  dsimp only
  split
  · split
    · simp
    · split <;> simp
  · simp

/-- A point or an exponent, which tell a double from a whole number. -/
def Pointed (s : String) : Prop := ∃ c ∈ s.toList, c = '.' ∨ c = 'e'

theorem Pointed.append_left {s : String} (pointed : Pointed s) (t : String) : Pointed (t ++ s) := by
  obtain ⟨c, mem, which⟩ := pointed
  exact ⟨c, by rw [String.toList_append]; exact List.mem_append_right _ mem, which⟩

theorem Pointed.append_right {s : String} (pointed : Pointed s) (t : String) : Pointed (s ++ t) := by
  obtain ⟨c, mem, which⟩ := pointed
  exact ⟨c, by rw [String.toList_append]; exact List.mem_append_left _ mem, which⟩

theorem pointed_of_mem {s : String} (c : Char) (mem : c ∈ s.toList) (which : c = '.' ∨ c = 'e') :
    Pointed s := ⟨c, mem, which⟩

theorem pointed_write {f : Format} (shows : f.pointZero = true) (d : Scaled) : Pointed (f.write d) := by
  unfold Format.write
  generalize stripZeros 400 d = d
  simp only [shows, if_true]
  split
  · split
    · exact (pointed_of_mem (s := ".0") '.' (by simp) (.inl rfl)).append_left _
    · split
      · exact ((pointed_of_mem (s := ".") '.' (by simp) (.inl rfl)).append_left _).append_right _
      · exact ((pointed_of_mem (s := "0.") '.' (by simp) (.inl rfl)).append_right _).append_right _
  · exact (((pointed_of_mem (s := "e") 'e' (by simp) (.inr rfl)).append_left _).append_right _).append_right _

theorem pointed_format {f : Format} (shows : f.pointZero = true) (x : Float) : Pointed (f.float x) := by
  unfold Format.float
  generalize binary x = b
  obtain ⟨m, q, narrow⟩ := b
  simp only [shows, if_true]
  have body : Pointed (if m = 0 then "0.0" else f.write (Interval.ofBinary m q narrow).shortest) := by
    split
    · exact pointed_of_mem '.' (by simp) (.inl rfl)
    · exact pointed_write shows _
  split
  · exact body.append_left _
  · exact body

theorem numericText_format (f : Format) (x : Float) :
    NumericText (f.float x) ∧ (f.float x).toList ≠ [] := by
  unfold Format.float
  generalize binary x = b
  obtain ⟨m, q, narrow⟩ := b
  dsimp only
  have body : NumericText
        (if m = 0 then (if f.pointZero then "0.0" else "0")
          else f.write (Interval.ofBinary m q narrow).shortest) ∧
      (if m = 0 then (if f.pointZero then "0.0" else "0")
        else f.write (Interval.ofBinary m q narrow).shortest).toList ≠ [] := by
    split
    · split <;> decide
    · exact ⟨numericText_write f _, write_some f _⟩
  split
  · exact ⟨NumericText.append (s := "-") (by decide) body.1, by simp⟩
  · exact body

end Decimal

namespace Json

theorem writeFloat_cases (x : Float) :
    writeFloat x = "null" ∨ NumericText (writeFloat x) ∧ (writeFloat x).toList ≠ [] := by
  unfold writeFloat
  split
  · exact Or.inr (Decimal.numericText_format floatFormat x)
  · exact Or.inl rfl

/-! ### What the reader of a number takes -/

/-- A number that is not a whole one. -/
def IsFloat : Json → Prop
  | .float _ => True
  | _ => False

def IsWhole : Json → Prop
  | .int _ => True
  | _ => False

/-- The second text is left of the first one when characters of a number are taken. -/
def TakesNumeric (cs r : List Char) : Prop := ∃ y, cs = y ++ r ∧ ∀ c ∈ y, Numeric c

variable {cs r : List Char} {v : Json}

theorem TakesNumeric.refl (cs : List Char) : TakesNumeric cs cs := ⟨[], rfl, by simp⟩

theorem TakesNumeric.cons {c : Char} (numeric : Numeric c) (rest : TakesNumeric cs r) :
    TakesNumeric (c :: cs) r := by
  obtain ⟨y, rfl, each⟩ := rest
  exact ⟨c :: y, rfl, List.forall_mem_cons.2 ⟨numeric, each⟩⟩

theorem TakesNumeric.trans {r' : List Char} (first : TakesNumeric cs r) (second : TakesNumeric r r') :
    TakesNumeric cs r' := by
  obtain ⟨y, rfl, each⟩ := first
  obtain ⟨z, rfl, each'⟩ := second
  refine ⟨y ++ z, by rw [List.append_assoc], fun c mem => ?_⟩
  exact (List.mem_append.1 mem).elim (each c) (each' c)

theorem takeDigits_own {sig taken extra : Nat} {full : Bool} {a b c : Nat}
    (done : takeDigits cs sig full taken extra = (a, b, c, r)) :
    ∃ y, cs = y ++ r ∧ ∀ d ∈ y, d.isDigit = true := by
  induction cs generalizing sig full taken extra with
  | nil =>
    cases done
    exact ⟨[], rfl, by simp⟩
  | cons d cs ih =>
    simp only [takeDigits] at done
    split at done
    · rename_i digit
      have further {y : List Char} (rest : cs = y ++ r ∧ ∀ d ∈ y, d.isDigit = true) :
          ∃ y, d :: cs = y ++ r ∧ ∀ d ∈ y, d.isDigit = true :=
        ⟨d :: y, by rw [rest.1]; rfl, List.forall_mem_cons.2 ⟨digit, rest.2⟩⟩
      split at done
      · exact (ih done).elim fun _ rest => further rest
      · exact (ih done).elim fun _ rest => further rest
    · cases done
      exact ⟨[], rfl, by simp⟩

theorem takeDigits_numeric {sig taken extra : Nat} {full : Bool} {a b c : Nat}
    (done : takeDigits cs sig full taken extra = (a, b, c, r)) : TakesNumeric cs r := by
  obtain ⟨y, rfl, digits⟩ := takeDigits_own done
  exact ⟨y, rfl, fun d mem => Or.inl (digits d mem)⟩

theorem isFloat_floatOf {negative : Bool} {sig : Nat} {e : Int}
    (done : floatOf negative sig e = .ok v) : v.IsFloat := by
  simp only [floatOf, bind_ok_iff] at done
  obtain ⟨f, -, done⟩ := done
  cases done
  trivial

theorem exponentDigits_numeric {negative minus : Bool} {sig : Nat} {start : Int}
    (done : exponentDigits negative sig start minus cs = .ok (v, r)) :
    TakesNumeric cs r ∧ v.IsFloat := by
  cases cs with
  | nil => cases done
  | cons c cs =>
    simp only [exponentDigits] at done
    split at done
    · rename_i digit
      cases value : exponentValue negative sig start minus ((c :: cs).takeWhile Char.isDigit) with
      | error e =>
        rw [value] at done
        cases done
      | ok v' =>
        rw [value] at done
        cases done
        refine ⟨⟨(c :: cs).takeWhile Char.isDigit, List.takeWhile_append_dropWhile.symm, fun d mem =>
          Or.inl (List.all_eq_true.1 List.all_takeWhile d mem)⟩, ?_⟩
        unfold exponentValue at value
        dsimp only at value
        split at value
        · split at value <;> cases value
          trivial
        · exact isFloat_floatOf value
    · cases done

theorem exponentPart_numeric {negative : Bool} {sig : Nat} {start : Int}
    (done : exponentPart negative sig start cs = .ok (v, r)) : TakesNumeric cs r ∧ v.IsFloat := by
  rw [exponentPart_eq] at done
  obtain ⟨takes, float⟩ := exponentDigits_numeric done
  refine ⟨TakesNumeric.trans ?_ takes, float⟩
  unfold exponentSign
  split
  · exact (TakesNumeric.refl _).cons (by decide)
  · exact (TakesNumeric.refl _).cons (by decide)
  · exact .refl _

theorem scaled_numeric {negative : Bool} {sig : Nat} {e : Int}
    (done : scaled negative sig e cs = .ok (v, r)) : TakesNumeric cs r ∧ v.IsFloat := by
  unfold scaled at done
  split at done
  · obtain ⟨takes, float⟩ := exponentPart_numeric done
    exact ⟨takes.cons (by decide), float⟩
  · obtain ⟨takes, float⟩ := exponentPart_numeric done
    exact ⟨takes.cons (by decide), float⟩
  · cases value : floatOf negative sig e with
    | error fault =>
      rw [value] at done
      cases done
    | ok f =>
      rw [value] at done
      cases done
      exact ⟨.refl _, isFloat_floatOf value⟩

/-- Only a number that is not a whole one goes on behind its whole part. -/
theorem afterWhole_numeric {negative : Bool} {sig extra : Nat}
    (done : afterWhole negative sig extra cs = .ok (v, r)) :
    TakesNumeric cs r ∧ (v.IsFloat ∨ r = cs ∧ v.IsWhole) := by
  by_cases point : cs.head? = some '.'
  · obtain ⟨cs, rfl⟩ := List.head?_eq_some_iff.1 point
    obtain ⟨a, b, c, rest, digits⟩ : ∃ a b c d, takeDigits cs sig false 0 0 = (a, b, c, d) :=
      ⟨_, _, _, _, rfl⟩
    rw [afterWhole_point digits] at done
    split at done
    · cases done
    · obtain ⟨takes, float⟩ := scaled_numeric done
      exact ⟨((takeDigits_numeric digits).trans takes).cons (by decide), Or.inl float⟩
  -- Without a point there may be an exponent; otherwise the digits decide whether the number is whole.
  unfold afterWhole at done
  split at done
  · exact absurd rfl point
  · obtain ⟨takes, float⟩ := exponentPart_numeric done
    exact ⟨takes.cons (by decide), Or.inl float⟩
  · obtain ⟨takes, float⟩ := exponentPart_numeric done
    exact ⟨takes.cons (by decide), Or.inl float⟩
  · split at done
    · split at done
      · split at done
        · cases done
          exact ⟨.refl _, Or.inl trivial⟩
        · split at done
          · cases done
            exact ⟨.refl _, Or.inr ⟨rfl, trivial⟩⟩
          · cases done
            exact ⟨.refl _, Or.inl trivial⟩
      · cases done
        exact ⟨.refl _, Or.inr ⟨rfl, trivial⟩⟩
    · simp only [bind_ok_iff] at done
      obtain ⟨f, value, done⟩ := done
      cases done
      exact ⟨.refl _, Or.inl (isFloat_floatOf value)⟩

theorem readNumber_numeric {negative : Bool} (done : readNumber negative cs = .ok (v, r)) :
    TakesNumeric cs r ∧ (v.IsFloat ∨ (∃ y, cs = y ++ r ∧ ∀ d ∈ y, d.isDigit = true) ∧ v.IsWhole) := by
  unfold readNumber at done
  split at done
  · cases done
  · -- a leading zero is a digit of its own
    have zero {rest : List Char} (after : TakesNumeric rest r ∧ (v.IsFloat ∨ r = rest ∧ v.IsWhole)) :
        TakesNumeric ('0' :: rest) r ∧
          (v.IsFloat ∨ (∃ y, '0' :: rest = y ++ r ∧ ∀ d ∈ y, d.isDigit = true) ∧ v.IsWhole) :=
      ⟨after.1.cons (by decide), after.2.imp id fun whole =>
        ⟨⟨['0'], by rw [whole.1]; rfl, by simp⟩, whole.2⟩⟩
    split at done
    · split at done
      · cases done
      · exact zero (afterWhole_numeric done)
    · exact zero (afterWhole_numeric done)
  · split at done
    · rename_i c cs _ _
      obtain ⟨sig, taken, extra, rest, digits⟩ :
          ∃ sig taken extra rest, takeDigits (c :: cs) 0 false 0 0 = (sig, taken, extra, rest) :=
        ⟨_, _, _, _, rfl⟩
      rw [digits] at done
      obtain ⟨takes, whole⟩ := afterWhole_numeric done
      refine ⟨(takeDigits_numeric digits).trans takes, whole.imp id fun ⟨same, whole⟩ => ⟨?_, whole⟩⟩
      rw [same]
      exact takeDigits_own digits
    · cases done

end Json

end SourceSlices
