import SourceSlices.Json.Reader

/-!
Reading what was written: quoted text and whole numbers of 64 bits come back as they were, and the
reader stops where they end.
-/
namespace SourceSlices.Json

/-! ### Text -/

theorem hexValue_hexDigit {n : Nat} (small : n < 16) : hexValue (hexDigit n) = some n := by
  have all : ∀ n < 16, hexValue (hexDigit n) = some n := by decide
  exact all n small

theorem unicodeEscape_control {c : Char} (control : c.toNat < 32) (rest : List Char) :
    unicodeEscape ('0' :: '0' :: hexDigit (c.toNat / 16) :: hexDigit (c.toNat % 16) :: rest) =
      .ok (c, rest) := by
  have high : hexValue (hexDigit (c.toNat / 16)) = some (c.toNat / 16) := hexValue_hexDigit (by omega)
  have low : hexValue (hexDigit (c.toNat % 16)) = some (c.toNat % 16) := hexValue_hexDigit (by omega)
  have zero : hexValue '0' = some 0 := by decide
  have value : ((0 * 16 + 0) * 16 + c.toNat / 16) * 16 + c.toNat % 16 = c.toNat := by omega
  have below : ¬ (0xdc00 ≤ c.toNat ∧ c.toNat ≤ 0xdfff) := by omega
  have below' : ¬ (0xd800 ≤ c.toNat ∧ c.toNat ≤ 0xdbff) := by omega
  simp only [unicodeEscape, hex4, zero, high, low, value, bind, Except.bind, below, below', if_false,
    Char.ofNat_toNat]

/-- One character is read from its escape in one step. -/
theorem stringBody_escapeChar (fuel : Nat) (c : Char) (rest acc : List Char) :
    stringBody (fuel + 1) (escapeChar c ++ rest) acc = stringBody fuel rest (c :: acc) := by
  unfold escapeChar
  repeat' split
  · subst_vars
    simp [stringBody]
  · subst_vars
    simp [stringBody]
  · subst_vars
    simp [stringBody]
  · subst_vars
    simp [stringBody]
  · subst_vars
    simp [stringBody]
  · rename_i code
    obtain rfl : c = '\x08' := Char.toNat_inj.1 code
    simp [stringBody]
  · rename_i code
    obtain rfl : c = '\x0c' := Char.toNat_inj.1 code
    simp [stringBody]
  · rename_i control
    simp only [List.cons_append, List.nil_append, stringBody, unicodeEscape_control control, bind,
      Except.bind]
    simp
  · rename_i notQuote notBackslash _ _ _ _ _ plain
    simp only [List.cons_append, List.nil_append, stringBody, notQuote, notBackslash, plain, if_false]

theorem stringBody_escaped {fuel : Nat} {s : List Char} (enough : s.length < fuel)
    (rest acc : List Char) :
    stringBody fuel (s.flatMap escapeChar ++ '"' :: rest) acc =
      .ok (String.ofList (acc.reverse ++ s), rest) := by
  induction s generalizing fuel acc with
  | nil =>
    obtain ⟨fuel, rfl⟩ := Nat.exists_eq_succ_of_ne_zero (Nat.pos_iff_ne_zero.1 enough)
    simp [stringBody]
  | cons c s ih =>
    obtain ⟨fuel, rfl⟩ := Nat.exists_eq_succ_of_ne_zero (Nat.ne_of_gt (Nat.zero_lt_of_lt enough))
    have enough' : s.length < fuel := Nat.lt_of_succ_lt_succ enough
    rw [List.flatMap_cons, List.append_assoc, stringBody_escapeChar, ih enough']
    simp

theorem escapeChar_ne_nil (c : Char) : escapeChar c ≠ [] := by
  unfold escapeChar
  repeat' split
  all_goals simp

theorem length_le_escaped (s : List Char) : s.length ≤ (s.flatMap escapeChar).length := by
  induction s with
  | nil => simp
  | cons c s ih =>
    have := List.length_pos_iff.2 (escapeChar_ne_nil c)
    simp only [List.flatMap_cons, List.length_append, List.length_cons]
    omega

theorem quote_toList (s : String) :
    (quote s).toList = '"' :: (s.toList.flatMap escapeChar ++ ['"']) := by
  simp [quote]

theorem readString_quoted (s : String) (rest : List Char) :
    readString (s.toList.flatMap escapeChar ++ '"' :: rest) = .ok (s, rest) := by
  have enough := length_le_escaped s.toList
  rw [readString, stringBody_escaped (by simp only [List.length_append, List.length_cons]; omega)]
  simp

/-! ### Numbers -/

theorem isDigit_toDigits {n : Nat} {c : Char} (mem : c ∈ Nat.toDigits 10 n) : c.isDigit = true :=
  Nat.isDigit_of_mem_toDigits (by decide) (by decide) mem

theorem toDigits_injective : Function.Injective (Nat.toDigits 10) := by
  intro m n same
  have values := congrArg (Nat.ofDigitChars 10 · 0) same
  simpa [Nat.ofDigitChars_toDigits] using values

theorem toDigits_head {n : Nat} (positive : 0 < n) :
    ∃ c ds, Nat.toDigits 10 n = c :: ds ∧ c ≠ '0' := by
  induction n using Nat.strongRecOn with
  | ind n ih =>
    by_cases small : n < 10
    · refine ⟨n.digitChar, [], Nat.toDigits_of_lt_base small, ?_⟩
      have all : ∀ n < 10, 0 < n → n.digitChar ≠ '0' := by decide
      exact all n small positive
    · obtain ⟨c, ds, split, head⟩ := ih (n / 10) (by omega) (by omega)
      rw [Nat.toDigits_of_base_le (by decide) (by omega), split]
      exact ⟨c, _, rfl, head⟩

theorem le_ofDigitChars (ds : List Char) (sig : Nat) : sig ≤ Nat.ofDigitChars 10 ds sig := by
  induction ds generalizing sig with
  | nil => simp
  | cons d ds ih =>
    rw [Nat.ofDigitChars_cons]
    have := ih (10 * sig + (d.toNat - '0'.toNat))
    omega

/-- A text that no number can go on with. -/
def Stops : List Char → Prop
  | [] => True
  | c :: _ => c.isDigit = false ∧ c ≠ '.' ∧ c ≠ 'e' ∧ c ≠ 'E'

/-- Digits of a number of 64 bits are all taken. -/
theorem takeDigits_digits {ds rest : List Char} (stops : Stops rest)
    (digits : ∀ d ∈ ds, d.isDigit = true) (sig taken : Nat)
    (fits : Nat.ofDigitChars 10 ds sig ≤ wordMax) :
    takeDigits (ds ++ rest) sig false taken 0 =
      (Nat.ofDigitChars 10 ds sig, taken + ds.length, 0, rest) := by
  induction ds generalizing sig taken with
  | nil =>
    cases rest with
    | nil => simp [takeDigits]
    | cons c rest => simp [takeDigits, stops.1]
  | cons d ds ih =>
    obtain ⟨digit, digits'⟩ := List.forall_mem_cons.1 digits
    have next : 10 * sig + (d.toNat - '0'.toNat) = sig * 10 + (d.toNat - 48) := by
      rw [Nat.mul_comm]
      rfl
    rw [Nat.ofDigitChars_cons, next] at fits ⊢
    have small := Nat.le_trans (le_ofDigitChars ds _) fits
    have within : (false || decide (wordMax < sig * 10 + (d.toNat - 48))) = false := by
      simpa using small
    simp only [List.cons_append, takeDigits, digit, if_true, within, Bool.false_eq_true, if_false]
    rw [ih digits' _ _ fits]
    simp only [List.length_cons, Prod.mk.injEq, and_true, true_and]
    omega

theorem takeDigits_full {ds rest : List Char} (stops : Stops rest)
    (digits : ∀ d ∈ ds, d.isDigit = true) (sig taken extra : Nat) :
    takeDigits (ds ++ rest) sig true taken extra = (sig, taken, extra + ds.length, rest) := by
  induction ds generalizing extra with
  | nil =>
    cases rest with
    | nil => rfl
    | cons c rest => simp [takeDigits, stops.1]
  | cons d ds ih =>
    obtain ⟨digit, digits'⟩ := List.forall_mem_cons.1 digits
    simp only [List.cons_append, takeDigits, digit, if_true, Bool.true_or, ih digits',
      List.length_cons, Nat.add_assoc, Nat.add_comm 1]

/-- Of a number beyond 64 bits some digits are only counted. -/
theorem takeDigits_long {ds rest : List Char} (stops : Stops rest)
    (digits : ∀ d ∈ ds, d.isDigit = true) {sig : Nat} (taken : Nat) (small : sig ≤ wordMax)
    (long : wordMax < Nat.ofDigitChars 10 ds sig) :
    ∃ sig' taken' extra, takeDigits (ds ++ rest) sig false taken 0 = (sig', taken', extra + 1, rest) := by
  induction ds generalizing sig taken with
  | nil => exact absurd long (Nat.not_lt.2 small)
  | cons d ds ih =>
    obtain ⟨digit, digits'⟩ := List.forall_mem_cons.1 digits
    have next : 10 * sig + (d.toNat - '0'.toNat) = sig * 10 + (d.toNat - 48) := by
      rw [Nat.mul_comm]
      rfl
    rw [Nat.ofDigitChars_cons, next] at long
    simp only [List.cons_append, takeDigits, digit, if_true, Bool.false_or, decide_eq_true_eq]
    split
    · rw [takeDigits_full stops digits']
      exact ⟨_, _, ds.length, by rw [Nat.add_comm 0 1, Nat.add_comm 1]⟩
    · rename_i within
      exact ih digits' _ (Nat.not_lt.1 within) long

theorem afterWhole_stops {rest : List Char} (stops : Stops rest) (negative : Bool) (sig : Nat) :
    afterWhole negative sig 0 rest =
      if negative then
        if sig = 0 then .ok (.float (-0.0), rest)
        else if sig ≤ 9223372036854775808 then .ok (.int (-(sig : Int)), rest)
        else .ok (.float (-(Float.ofNat sig)), rest)
      else .ok (.int sig, rest) := by
  cases rest with
  | nil => simp [afterWhole]
  | cons c rest =>
    obtain ⟨-, point, small, capital⟩ := stops
    unfold afterWhole
    split <;> simp_all

theorem afterWhole_extra {rest : List Char} (stops : Stops rest) (negative : Bool) (sig extra : Nat) :
    afterWhole negative sig (extra + 1) rest =
      (floatOf negative sig (extra + 1 : Nat)).map fun v => (v, rest) := by
  cases rest with
  | nil => simp [afterWhole, bind, Except.bind, Except.map]
  | cons c rest =>
    obtain ⟨-, point, small, capital⟩ := stops
    unfold afterWhole
    split <;> simp_all [bind, Except.bind, Except.map]

theorem readNumber_positive (negative : Bool) {n : Nat} (positive : 0 < n) (rest : List Char) :
    readNumber negative (Nat.toDigits 10 n ++ rest) =
      match takeDigits (Nat.toDigits 10 n ++ rest) 0 false 0 0 with
      | (sig, _, extra, rest) => afterWhole negative sig extra rest := by
  obtain ⟨c, ds, split, head⟩ := toDigits_head positive
  have digit : c.isDigit = true := isDigit_toDigits (split ▸ List.mem_cons_self)
  rw [split, List.cons_append]
  unfold readNumber
  split
  · rename_i same
    cases same
  · rename_i same
    exact absurd (List.cons.inj same).1 head
  · rename_i same
    obtain ⟨rfl, rfl⟩ := List.cons.inj same
    simp only [digit, if_true]

theorem readNumber_toDigits {rest : List Char} (stops : Stops rest) (negative : Bool) {n : Nat}
    (fits : n ≤ wordMax) :
    readNumber negative (Nat.toDigits 10 n ++ rest) = afterWhole negative n 0 rest := by
  by_cases zero : n = 0
  · subst zero
    rw [Nat.toDigits_zero]
    cases rest with
    | nil => simp [readNumber]
    | cons c rest => simp [readNumber, stops.1]
  · have value : Nat.ofDigitChars 10 (Nat.toDigits 10 n) 0 = n := Nat.ofDigitChars_ten_toDigits
    have digits : ∀ d ∈ Nat.toDigits 10 n, d.isDigit = true := fun d mem => isDigit_toDigits mem
    have taken := takeDigits_digits stops digits 0 0 (by rw [value]; exact fits)
    rw [readNumber_positive negative (Nat.pos_of_ne_zero zero), taken, value]

theorem readNumber_long {rest : List Char} (stops : Stops rest) (negative : Bool) {n : Nat}
    (long : wordMax < n) {v : Json} {rest' : List Char}
    (done : readNumber negative (Nat.toDigits 10 n ++ rest) = .ok (v, rest')) : ∃ f, v = .float f := by
  have value : Nat.ofDigitChars 10 (Nat.toDigits 10 n) 0 = n := Nat.ofDigitChars_ten_toDigits
  have digits : ∀ d ∈ Nat.toDigits 10 n, d.isDigit = true := fun d mem => isDigit_toDigits mem
  obtain ⟨sig, taken, extra, some⟩ :=
    takeDigits_long stops digits 0 (Nat.zero_le _) (by rw [value]; exact long)
  rw [readNumber_positive negative (Nat.zero_lt_of_lt long), some] at done
  simp only [afterWhole_extra stops, floatOf, bind, Except.bind] at done
  split at done
  · cases done
  · cases done
    exact ⟨_, rfl⟩

end SourceSlices.Json
