import Mathlib.Algebra.Group.Nat.Defs
import SourceSlices.Proofs.JsonText
import SourceSlices.Store.Json

/-!
Times and their text. A time is read back from what is written of it exactly if its part of a second
stays below a full one, or is that of a leap second at the end of a minute; and the reader makes no
others.
-/
namespace SourceSlices

namespace Decimal

variable {cs : List Char} {n : Nat}

theorem digitValue_digit {c : Char} (digit : c.isDigit = true) :
    digitValue c = some (c.toNat - '0'.toNat) ∧ c.toNat - '0'.toNat < 10 := by
  have range : '0' ≤ c ∧ c ≤ '9' := by simpa [Char.isDigit, Char.le_def] using digit
  have low : c.toNat ≤ 57 := range.2
  refine ⟨by rw [digitValue, if_pos range]; rfl, ?_⟩
  show c.toNat - 48 < 10
  omega

theorem whole?_digits (some : cs ≠ []) (digits : ∀ c ∈ cs, c.isDigit = true) :
    whole? 10 cs = .some (Nat.ofDigitChars 10 cs 0) := by
  have from_ (m : Nat) : cs.foldlM (fun n c => (digitValue c).bind fun d =>
      if d < 10 then Option.some (n * 10 + d) else none) m = .some (Nat.ofDigitChars 10 cs m) := by
    clear some
    induction cs generalizing m with
    | nil => rfl
    | cons c cs ih =>
      obtain ⟨value, small⟩ := digitValue_digit (digits c List.mem_cons_self)
      rw [List.foldlM_cons, value, Option.bind_some, if_pos small, Nat.ofDigitChars_cons, Nat.mul_comm 10]
      exact ih (fun d mem => digits d (List.mem_cons_of_mem _ mem)) _
  rw [whole?, if_neg (by simpa using some)]
  exact from_ 0

theorem foldlM_digits_lt {base m : Nat} (done : cs.foldlM (fun n c => (digitValue c).bind fun d =>
    if d < base then some (n * base + d) else none) m = some n) : n < (m + 1) * base ^ cs.length := by
  induction cs generalizing m with
  | nil =>
    cases done
    simp
  | cons c cs ih =>
    rw [List.foldlM_cons] at done
    obtain ⟨k, step, done⟩ := Option.bind_eq_some_iff.1 done
    obtain ⟨d, -, step⟩ := Option.bind_eq_some_iff.1 step
    split at step
    · rename_i small
      cases step
      calc n < (m * base + d + 1) * base ^ cs.length := ih done
        _ ≤ ((m + 1) * base) * base ^ cs.length :=
          Nat.mul_le_mul_right _ (by rw [Nat.succ_mul]; omega)
        _ = (m + 1) * base ^ (c :: cs).length := by
          rw [List.length_cons, Nat.pow_succ, Nat.mul_assoc, Nat.mul_comm base]
    · cases step

theorem whole?_lt {base : Nat} (done : whole? base cs = some n) : n < base ^ cs.length := by
  unfold whole? at done
  split at done
  · cases done
  · simpa using foldlM_digits_lt done

end Decimal

namespace Instant

/-! ### The calendar -/

/-- A day in a span of 400 years, counted in centuries, spans of four years, years and days. -/
theorem exists_cycles {e : Int} (low : 0 ≤ e) (high : e < 146097) : ∃ k q j r : Int,
    e = 36524 * k + 1461 * q + 365 * j + r ∧ (0 ≤ k ∧ k < 4) ∧ (0 ≤ q ∧ q < 25) ∧ (0 ≤ j ∧ j < 4) ∧
      (0 ≤ r ∧ r ≤ 365) ∧ (r = 365 → j = 3 ∧ (q < 24 ∨ k = 3)) := by
  by_cases last : e = 146096
  · exact ⟨3, 24, 3, 365, by omega⟩
  · by_cases leap : e % 36524 % 1461 = 1460
    · exact ⟨e / 36524, e % 36524 / 1461, 3, 365, by omega⟩
    · exact ⟨e / 36524, e % 36524 / 1461, e % 36524 % 1461 / 365, e % 36524 % 1461 % 365, by omega⟩

theorem year_of_cycles {e k q j r : Int} (parts : e = 36524 * k + 1461 * q + 365 * j + r)
    (century : 0 ≤ k ∧ k < 4) (span : 0 ≤ q ∧ q < 25) (year : 0 ≤ j ∧ j < 4) (day : 0 ≤ r ∧ r ≤ 365)
    (leap : r = 365 → j = 3 ∧ (q < 24 ∨ k = 3)) :
    (e - e / 1460 + e / 36524 - e / 146096) / 365 = 100 * k + 4 * q + j := by
  by_cases last : r = 365
  · obtain ⟨rfl, within⟩ := leap last
    have years : e / 1460 = 25 * k + q + 1 := by omega
    have centuries : e / 36524 - e / 146096 = k := by
      by_cases full : q = 24
      · obtain rfl : k = 3 := by omega
        omega
      · have century : e / 36524 = k := by omega
        have whole : e / 146096 = 0 := by omega
        omega
    omega
  · have centuries : e / 36524 = k := by omega
    have whole : e / 146096 = 0 := by omega
    have years : e / 1460 = 25 * k + q ∨ e / 1460 = 25 * k + q + 1 ∧ 1095 < 365 * j + r := by omega
    omega

/-- The year of a day in a span of 400 years that begins in March. Leap years end in a leap day. -/
theorem year_of_era {e y : Int} (low : 0 ≤ e) (high : e < 146097)
    (year : y = (e - e / 1460 + e / 36524 - e / 146096) / 365) :
    0 ≤ y ∧ y < 400 ∧ 365 * y + y / 4 - y / 100 ≤ e ∧ e ≤ 365 * y + y / 4 - y / 100 + 365 ∧
      (e = 365 * y + y / 4 - y / 100 + 365 → (y + 1) % 4 = 0 ∧ ((y + 1) % 100 ≠ 0 ∨ (y + 1) % 400 = 0)) := by
  obtain ⟨k, q, j, r, parts, century, span, years, day, leap⟩ := exists_cycles low high
  rw [year_of_cycles parts century span years day leap] at year
  have fourth : y / 4 = 25 * k + q := by omega
  have hundredth : y / 100 = k := by omega
  refine ⟨by omega, by omega, by omega, by omega, fun last => ?_⟩
  obtain ⟨rfl, within⟩ := leap (by omega)
  omega

/-- The date of a day in a year that begins in March. -/
theorem month_of_day : ∀ r < 366,
    let shifted := (5 * r + 2) / 153
    let day := r - (153 * shifted + 2) / 5 + 1
    let month := if shifted < 10 then shifted + 3 else shifted - 9
    (1 ≤ month ∧ month ≤ 12 ∧ 1 ≤ day) ∧
      (153 * (if 2 < month then month - 3 else month + 9) + 2) / 5 + day - 1 = r ∧
      day ≤ (if month = 2 then (if r = 365 then 29 else 28)
        else if [4, 6, 9, 11].contains month then 30 else 31) := by
  decide +kernel

theorem isLeap_iff (year : Int) :
    isLeap year = true ↔ year % 4 = 0 ∧ (year % 100 ≠ 0 ∨ year % 400 = 0) := by
  simp [isLeap]

theorem daysOf_march {y era : Int} {month day r : Nat} (low : 0 ≤ y) (high : y < 400)
    (back : (153 * (if 2 < month then month - 3 else month + 9) + 2) / 5 + day - 1 = r) :
    daysOf (y + era * 400 + (if month ≤ 2 then 1 else 0)) month day =
      era * 146097 + (y * 365 + y / 4 - y / 100 + r) - 719468 := by
  have year : (if month ≤ 2 then y + era * 400 + (if month ≤ 2 then 1 else 0) - 1
      else y + era * 400 + (if month ≤ 2 then 1 else 0)) = y + era * 400 := by
    split <;> omega
  have whole : (y + era * 400) / 400 = era := by omega
  have part : y + era * 400 - era * 400 = y := by omega
  simp only [daysOf, year, whole, part, back]

/-- The calendar has a date for every day, and finds the day of that date. -/
theorem dateOf_valid (days : Int) : ∃ year month day, dateOf days = (year, month, day) ∧
    1 ≤ month ∧ month ≤ 12 ∧ 1 ≤ day ∧ day ≤ daysIn year month ∧ daysOf year month day = days := by
  -- Years begin in March here, so that a leap day is the last day of its year.
  obtain ⟨era, eras⟩ : ∃ era, (days + 719468) / 146097 = era := ⟨_, rfl⟩
  obtain ⟨e, ofEra⟩ : ∃ e, days + 719468 - era * 146097 = e := ⟨_, rfl⟩
  obtain ⟨y, years⟩ : ∃ y, (e - e / 1460 + e / 36524 - e / 146096) / 365 = y := ⟨_, rfl⟩
  obtain ⟨low, high, begun, ends, leap⟩ := year_of_era (by omega) (by omega) years.symm
  obtain ⟨r, days'⟩ : ∃ r, (e - (365 * y + y / 4 - y / 100)).toNat = r := ⟨_, rfl⟩
  have total : era * 146097 + (y * 365 + y / 4 - y / 100 + r) - 719468 = days := by omega
  have leap : r = 365 → isLeap (y + era * 400 + 1) = true := fun last => by
    have ended := leap (by omega)
    exact (isLeap_iff _).2 (by omega)
  obtain ⟨⟨some, twelve, first⟩, back, last⟩ := month_of_day r (by omega)
  refine ⟨_, _, _, rfl, ?_⟩
  simp only [eras, ofEra, years, days']
  generalize (5 * r + 2) / 153 = shifted at *
  generalize r - (153 * shifted + 2) / 5 + 1 = day at *
  generalize (if shifted < 10 then shifted + 3 else shifted - 9) = month at *
  refine ⟨some, twelve, first, ?_, ?_⟩
  · unfold daysIn
    split at last
    · rename_i february
      rw [if_pos february]
      split at last
      · rename_i full
        rw [if_pos (by omega : month ≤ 2), if_pos (leap full)]
        exact last
      · generalize isLeap _ = leap
        cases leap
        · exact last
        · exact Nat.le_succ_of_le last
    · rename_i other
      rw [if_neg other]
      exact last
  · rw [daysOf_march low high back, total]

/-! ### Digits -/

variable {width n : Nat} {rest : List Char}

theorem pad_toList (width n : Nat) : (pad width n).toList =
    List.replicate (width - (toString n).length) '0' ++ Nat.toDigits 10 n := by
  simp [pad]

theorem isDigit_pad {c : Char} (mem : c ∈ (pad width n).toList) : c.isDigit = true := by
  rw [pad_toList, List.mem_append] at mem
  rcases mem with mem | mem
  · rw [List.eq_of_mem_replicate mem]
    rfl
  · exact Json.isDigit_toDigits mem

theorem pad_some (width n : Nat) : (pad width n).toList ≠ [] := by
  simp [pad_toList]

theorem ofDigitChars_pad (width n : Nat) : Nat.ofDigitChars 10 (pad width n).toList 0 = n := by
  rw [pad_toList, Nat.ofDigitChars_append, Nat.ofDigitChars_replicate_zero, Nat.mul_zero,
    Nat.ofDigitChars_ten_toDigits]

theorem whole?_pad (width n : Nat) : Decimal.whole? 10 (pad width n).toList = some n := by
  rw [Decimal.whole?_digits (pad_some width n) fun c => isDigit_pad, ofDigitChars_pad]

theorem length_pad (small : n < 10 ^ width) (some : 0 < width) : (pad width n).toList.length = width := by
  have short := (Nat.length_toDigits_le_iff (by decide) some).2 small
  rw [pad_toList, List.length_append, List.length_replicate, ← String.length_toList,
    Nat.toString_eq_repr, Nat.toList_repr]
  omega

theorem isBlank_of_isDigit {c : Char} (digit : c.isDigit = true) : Text.isBlank c = false := by
  have range : '0' ≤ c ∧ c ≤ '9' := by simpa [Char.isDigit, Char.le_def] using digit
  have low : 48 ≤ c.toNat := range.1
  have high : c.toNat ≤ 57 := range.2
  simp only [Text.isBlank, Bool.or_eq_false_iff, Bool.and_eq_false_iff, beq_eq_false_iff_ne,
    decide_eq_false_iff_not]
  omega

theorem trimStart_digits {cs : List Char} (digits : ∀ c ∈ cs, c.isDigit = true) (some : cs ≠ []) :
    Text.trimStart (cs ++ rest) = cs ++ rest := by
  obtain ⟨c, cs, rfl⟩ := List.exists_cons_of_ne_nil some
  exact List.dropWhile_cons_of_neg (by simp [isBlank_of_isDigit (digits c List.mem_cons_self)])

theorem takeWhile_digits {cs : List Char} (digits : ∀ c ∈ cs, c.isDigit = true) :
    (cs ++ rest).takeWhile Char.isDigit = cs ++ rest.takeWhile Char.isDigit :=
  List.takeWhile_append_of_pos digits

theorem digits_pad (small : n < 10 ^ width) (some : 0 < width) (rest : List Char) :
    digits width ((pad width n).toList ++ rest) = .some (n, rest) := by
  have taken : ((pad width n).toList ++ rest.takeWhile Char.isDigit).take width = (pad width n).toList :=
    List.take_left' (length_pad small some)
  simp only [digits, trimStart_digits (fun c => isDigit_pad) (pad_some width n),
    takeWhile_digits fun c => isDigit_pad, taken, whole?_pad, Option.map_some, List.drop_left]

theorem mark_self {c : Char} (solid : Text.isBlank c = false) (rest : List Char) :
    mark c (c :: rest) = some rest := by
  simp [mark, Text.trimStart, Text.trimStartWhere, solid]

theorem digits_all (width n : Nat) {c : Char} (other : c.isDigit = false) (rest : List Char) :
    digits ((pad width n).toList ++ c :: rest).length ((pad width n).toList ++ c :: rest) =
      some (n, c :: rest) := by
  have taken : ((pad width n).toList ++ c :: rest).takeWhile Char.isDigit = (pad width n).toList := by
    rw [takeWhile_digits fun c => isDigit_pad]
    simp [other]
  have all : (pad width n).toList.take ((pad width n).toList ++ c :: rest).length = (pad width n).toList :=
    List.take_of_length_le (by simp)
  simp only [digits, trimStart_digits (fun c => isDigit_pad) (pad_some width n), taken, all, whole?_pad,
    Option.map_some, List.drop_left]

/-- A year is read up to the first character that is not a digit. -/
theorem year_text (y : Int) {c : Char} (other : c.isDigit = false) (rest : List Char) :
    year ((yearText y).toList ++ c :: rest) = some (y, c :: rest) := by
  -- Four digits stand without a sign; a longer year has one and is read up to its last digit.
  unfold yearText
  split
  · rename_i plain
    obtain ⟨d, ds, text⟩ := List.exists_cons_of_ne_nil (pad_some 4 y.toNat)
    have digit : d.isDigit = true := isDigit_pad (text ▸ List.mem_cons_self)
    have four : digits 4 ((pad 4 y.toNat).toList ++ c :: rest) = some (y.toNat, c :: rest) :=
      digits_pad (by omega) (by decide) (c :: rest)
    have solid : Text.trimStart ((pad 4 y.toNat).toList ++ c :: rest) = (pad 4 y.toNat).toList ++ c :: rest :=
      trimStart_digits (fun c => isDigit_pad) (pad_some 4 y.toNat)
    rw [text, List.cons_append] at four solid ⊢
    unfold year
    rw [solid]
    split
    · rename_i same
      cases same
      cases digit
    · rename_i same
      cases same
      cases digit
    · rw [four, Option.map_some]
      exact congrArg (fun i => some (i, c :: rest)) (Int.toNat_of_nonneg plain.1)
  · rename_i wide
    have solid {sign : Char} (own : Text.isBlank sign = false) :
        Text.trimStart (sign :: ((pad 4 y.natAbs).toList ++ c :: rest)) =
          sign :: ((pad 4 y.natAbs).toList ++ c :: rest) :=
      List.dropWhile_cons_of_neg (by simp [own])
    unfold year
    by_cases negative : y < 0
    · rw [if_pos negative, String.toList_append, show "-".toList = ['-'] from rfl,
        List.singleton_append, List.cons_append, solid (by decide)]
      simp only [digits_all 4 _ other, Option.map_some]
      exact congrArg (fun i => some (i, c :: rest)) (by omega)
    · rw [if_neg negative, String.toList_append, show "+".toList = ['+'] from rfl,
        List.singleton_append, List.cons_append, solid (by decide)]
      simp only [digits_all 4 _ other, Option.map_some]
      exact congrArg (fun i => some (i, c :: rest)) (by omega)

theorem fraction_pad {m : Nat} (small : m < 10 ^ width) (some : 0 < width) (short : width ≤ 9) {c : Char}
    (other : c.isDigit = false) (rest : List Char) :
    fraction ('.' :: ((pad width m).toList ++ c :: rest)) = .some (m * 10 ^ (9 - width), c :: rest) := by
  have length := length_pad small some
  have taken : ((pad width m).toList ++ c :: rest).takeWhile Char.isDigit = (pad width m).toList := by
    rw [takeWhile_digits fun c => isDigit_pad]
    simp [other]
  have kept : (pad width m).toList.take 9 = (pad width m).toList := List.take_of_length_le (by omega)
  have behind : ((pad width m).toList ++ c :: rest).drop width = c :: rest := List.drop_left' length
  simp only [fraction, taken, kept, whole?_pad, Option.map_some, length, behind, Nat.pow_eq]

theorem fraction_text {n : Nat} (small : n < billion) {c : Char} (point : c ≠ '.')
    (other : c.isDigit = false) (rest : List Char) :
    fraction ((fractionText n).toList ++ c :: rest) = some (n, c :: rest) := by
  unfold billion at small
  have behind (width m : Nat) : ("." ++ pad width m).toList ++ c :: rest =
      '.' :: ((pad width m).toList ++ c :: rest) := by
    simp
  unfold fractionText
  split
  · rename_i none
    rw [String.toList_empty, List.nil_append, fraction, none]
    rintro _ same
    exact point (List.cons.inj same).1
  · split
    · rw [behind, fraction_pad (by omega) (by decide) (by decide) other]
      exact congrArg (fun m => some (m, c :: rest)) (by omega)
    · split
      · rw [behind, fraction_pad (by omega) (by decide) (by decide) other]
        exact congrArg (fun m => some (m, c :: rest)) (by omega)
      · rw [behind, fraction_pad (by omega) (by decide) (by decide) other]
        exact congrArg (fun m => some (m, c :: rest)) (by omega)

theorem offset_utc : offset ['Z'] = some (0, []) := by
  decide

/-- Times whose part of a second stays below a full one, apart from leap seconds at the end of a
minute. -/
def Printable (t : Instant) : Prop :=
  t.nanos < billion ∨ t.nanos < 2 * billion ∧ t.seconds % 60 = 59

/-- A written date and time is read as it is. -/
theorem parse?_fields {y : Int} {mo d h mi s n : Nat} (month : 1 ≤ mo ∧ mo ≤ 12)
    (day : 1 ≤ d ∧ d ≤ daysIn y mo) (hour : h ≤ 23) (minute : mi ≤ 59) (second : s ≤ 60)
    (small : n < billion) :
    parse? (yearText y ++ "-" ++ pad 2 mo ++ "-" ++ pad 2 d ++ "T" ++ pad 2 h ++ ":" ++ pad 2 mi ++ ":" ++
      pad 2 s ++ fractionText n ++ "Z") =
        some ⟨daysOf y mo d * 86400 + (h * 3600 + mi * 60 + (if s = 60 then 59 else s) : Nat),
          if s = 60 then n + billion else n⟩ := by
  have days : daysIn y mo ≤ 31 := by
    unfold daysIn
    split <;> split <;> decide
  have two {n : Nat} (small : n < 100) (rest : List Char) :
      digits 2 ((pad 2 n).toList ++ rest) = some (n, rest) := digits_pad small (by decide) rest
  have accepted : (!Text.isAllBlank [] || decide (mo < 1) || decide (12 < mo) || decide (d < 1) ||
      decide (daysIn y mo < d) || decide (23 < h) || decide (59 < mi) || decide (60 < s)) = false := by
    have blank : Text.isAllBlank [] = true := rfl
    simp only [blank, Bool.not_true, Bool.false_or, Bool.or_eq_false_iff, decide_eq_false_iff_not]
    omega
  simp only [parse?, String.toList_append, List.append_assoc, show "-".toList = ['-'] from rfl,
    show "T".toList = ['T'] from rfl, show ":".toList = [':'] from rfl, show "Z".toList = ['Z'] from rfl,
    List.cons_append, List.nil_append, year_text y (show '-'.isDigit = false from rfl), bind, Option.bind_some,
    mark_self (show Text.isBlank '-' = false from rfl), mark_self (show Text.isBlank ':' = false from rfl),
    two (show mo < 100 by omega), two (show d < 100 by omega), two (show h < 100 by omega),
    two (show mi < 100 by omega), two (show s < 100 by omega), decide_true, Bool.true_or, if_true,
    fraction_text small (show 'Z' ≠ '.' by decide) (show 'Z'.isDigit = false from rfl), offset_utc,
    accepted, Bool.false_eq_true, if_false, Int.sub_zero]

theorem parse?_text {t : Instant} (printable : t.Printable) : parse? t.text = some t := by
  obtain ⟨y, month, day, date, some', twelve, first, last, back⟩ := dateOf_valid (t.seconds / 86400)
  obtain ⟨ofDay, rest⟩ : ∃ ofDay : Nat, (ofDay : Int) = t.seconds - t.seconds / 86400 * 86400 :=
    ⟨_, Int.toNat_of_nonneg (by omega)⟩
  have small : t.nanos % billion < billion := Nat.mod_lt _ (by decide)
  have second : ofDay % 60 + t.nanos / billion ≤ 60 := by
    unfold Printable billion at *
    omega
  simp only [text, date, ← rest, Int.toNat_natCast]
  rw [parse?_fields ⟨some', twelve⟩ ⟨first, last⟩ (by omega) (by omega) second small, back]
  obtain ⟨seconds, nanos⟩ := t
  unfold Printable billion at *
  simp only [Option.some.injEq, Instant.mk.injEq] at *
  constructor
  · split <;> omega
  · split <;> omega

theorem fraction_lt {cs rest : List Char} {n : Nat} (done : fraction cs = some (n, rest)) : n < billion := by
  unfold fraction at done
  split at done
  · rename_i cs
    obtain ⟨m, value, same⟩ := Option.map_eq_some_iff.1 done
    obtain ⟨rfl, -⟩ := Prod.mk.inj same
    have short := List.length_take_le 9 (cs.takeWhile Char.isDigit)
    have small := Decimal.whole?_lt value
    generalize ((cs.takeWhile Char.isDigit).take 9).length = kept at short small
    calc m * Nat.pow 10 (9 - kept) < 10 ^ kept * 10 ^ (9 - kept) :=
          Nat.mul_lt_mul_of_pos_right small (Nat.pow_pos (by decide))
      _ = billion := by rw [← Nat.pow_add, Nat.add_sub_cancel' short]; rfl
  · cases done
    decide

/-- An offset is a whole number of minutes. -/
theorem offset_minutes {cs rest : List Char} {east : Int} (done : offset cs = some (east, rest)) :
    east % 60 = 0 := by
  unfold offset at done
  dsimp only at done
  split at done
  · cases done
    rfl
  · split at done
    · split at done
      · cases done
        rfl
      · split at done
        · simp only [bind, Option.bind_eq_some_iff] at done
          obtain ⟨⟨h, rest⟩, -, ⟨m, rest⟩, -, done⟩ := done
          dsimp only at done
          split at done
          · cases done
          · cases done
            split <;> omega
        · cases done
    · cases done

theorem printable_of_parse {s : String} {t : Instant} (done : parse? s = some t) : t.Printable := by
  simp only [parse?, bind, Option.bind_eq_some_iff] at done
  obtain ⟨⟨y, cs⟩, -, ⟨mo, cs⟩, -, ⟨d, cs⟩, -, done⟩ := done
  dsimp only at done
  split at done
  · split at done
    · simp only [Option.bind_eq_some_iff] at done
      obtain ⟨cs, -, ⟨h, cs⟩, -, ⟨mi, cs⟩, -, ⟨s, cs⟩, -, ⟨n, cs⟩, part, ⟨east, cs⟩, zone, done⟩ := done
      dsimp only at done
      split at done
      · cases done
      · cases done
        have small := fraction_lt part
        have minutes := offset_minutes zone
        by_cases leap : s = 60
        · right
          simp only [if_pos leap]
          omega
        · left
          simpa only [if_neg leap] using small
    · cases done
  · cases done

end Instant
end SourceSlices
