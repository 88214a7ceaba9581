import SourceSlices.Decimal.Shortest

/-!
Reading written numbers: digits with a point and an exponent, and whole numbers to a base.
-/
namespace SourceSlices.Decimal

def digitValue (c : Char) : Option Nat :=
  if '0' ≤ c ∧ c ≤ '9' then some (c.toNat - 48)
  else if 'a' ≤ c ∧ c ≤ 'z' then some (c.toNat - 87)
  else if 'A' ≤ c ∧ c ≤ 'Z' then some (c.toNat - 55) else none

/-- Digits to a base, at least one. -/
def whole? (base : Nat) (cs : List Char) : Option Nat :=
  if cs.isEmpty then none
  else cs.foldlM (fun n c => (digitValue c).bind fun d =>
    if d < base then some (n * base + d) else none) 0

/-- A number with an optional minus sign in front. -/
def signed? (read : List Char → Option Nat) : List Char → Option Int
  | '-' :: rest => (read rest).map fun n => -(n : Int)
  | '+' :: rest => (read rest).map Int.ofNat
  | cs => (read cs).map Int.ofNat

def countDigits (n : Nat) : Nat := (Nat.toDigits 10 n).length

/-- The double nearest to `m · 10 ^ e`; magnitudes far outside its range are not computed. -/
def nearest (m : Nat) (e : Int) : Float :=
  let size : Int := countDigits m + e
  if m = 0 then 0.0
  else if 310 < size then Float.ofScientific 1 false 400
  else if size < -330 then 0.0
  else Float.ofScientific m (e < 0) e.natAbs

/-- Digits around an optional point: all of them as one number, and how many follow the point. -/
def mantissa? (cs : List Char) : Option (Nat × Nat × List Char) :=
  let before := cs.takeWhile Char.isDigit
  let rest := cs.dropWhile Char.isDigit
  let (after, rest) := match rest with
    | '.' :: more => (more.takeWhile Char.isDigit, more.dropWhile Char.isDigit)
    | _ => ([], rest)
  (whole? 10 (before ++ after)).map (·, after.length, rest)

/-- A number without a sign: `1`, `1.`, `.5`, `1e-3`. -/
def unsigned? (cs : List Char) : Option Float :=
  (mantissa? cs).bind fun (m, places, rest) =>
    match rest with
    | [] => some (nearest m (-(places : Int)))
    | c :: rest =>
      if c = 'e' ∨ c = 'E' then
        (signed? (whole? 10) rest).map fun e => nearest m (e - places)
      else none

/-- A number with an optional sign. -/
def float? : List Char → Option Float
  | '-' :: rest => (unsigned? rest).map fun x => -x
  | '+' :: rest => unsigned? rest
  | cs => unsigned? cs

end SourceSlices.Decimal
