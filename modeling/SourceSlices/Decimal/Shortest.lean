/-!
The shortest decimal that reads back as a given binary fraction, and its written forms.
All comparisons are made between natural numbers, so nothing is rounded on the way.
-/
namespace SourceSlices.Decimal

/-- `digits · 10 ^ exponent`. -/
structure Scaled where
  digits : Nat
  exponent : Int
  deriving DecidableEq, Repr

/-- A positive fraction with the bounds of the interval that rounds to it. -/
structure Interval where
  lo : Nat
  mid : Nat
  hi : Nat
  den : Nat
  closed : Bool

/-- The interval of reals that round to `m · 2 ^ q`; `narrow` marks the lower end of a binade. -/
def Interval.ofBinary (m : Nat) (q : Int) (narrow : Bool) : Interval :=
  let below := if narrow then 1 else 2
  let e := q - 2
  let scale := if 0 ≤ e then Nat.pow 2 e.toNat else 1
  let den := if 0 ≤ e then 1 else Nat.pow 2 (-e).toNat
  ⟨(4 * m - below) * scale, 4 * m * scale, (4 * m + 2) * scale, den, m % 2 == 0⟩

/-- Whether `d · 10 ^ k` lies in the interval. -/
def Interval.admits (i : Interval) (d : Nat) (k : Int) : Bool :=
  let value := if 0 ≤ k then d * Nat.pow 10 k.toNat * i.den else d * i.den
  let unit := if 0 ≤ k then 1 else Nat.pow 10 (-k).toNat
  if i.closed then i.lo * unit ≤ value && value ≤ i.hi * unit
  else i.lo * unit < value && value < i.hi * unit

/-- Position of the leading decimal digit, searched upwards from a lower bound. -/
def leading (num den : Nat) : Nat → Int → Int
  | 0, k => k
  | fuel + 1, k =>
    let next := k + 1
    let reached :=
      if 0 ≤ next then den * Nat.pow 10 next.toNat ≤ num
      else den ≤ num * Nat.pow 10 (-next).toNat
    if reached then leading num den fuel next else k

/-- The grid point at or below the middle, on the grid of step `10 ^ k`. -/
def Interval.floorOn (i : Interval) (k : Int) : Nat :=
  if 0 ≤ k then i.mid / (i.den * Nat.pow 10 k.toNat) else i.mid * Nat.pow 10 (-k).toNat / i.den

/-- Of two neighbours on a grid, the nearer one; the even one when both are equally near. -/
def Interval.nearer (i : Interval) (d : Nat) (k : Int) : Nat :=
  let twice := 2 * i.mid * (if 0 ≤ k then 1 else Nat.pow 10 (-k).toNat)
  let sum := (2 * d + 1) * i.den * (if 0 ≤ k then Nat.pow 10 k.toNat else 1)
  if twice < sum then d else if sum < twice then d + 1 else if d % 2 = 0 then d else d + 1

/-- Tries grids of more and more digits. -/
def Interval.search (i : Interval) (top : Int) : Nat → Nat → Scaled
  | 0, n => ⟨i.floorOn (top - n), top - n⟩
  | fuel + 1, n =>
    let k := top - n
    let d := i.floorOn k
    match i.admits d k, i.admits (d + 1) k with
    | true, true => ⟨i.nearer d k, k⟩
    | true, false => ⟨d, k⟩
    | false, true => ⟨d + 1, k⟩
    | false, false => i.search top fuel (n + 1)

def Interval.shortest (i : Interval) : Scaled :=
  i.search (leading i.mid i.den 700 (-345)) 17 0

/-- How a decimal is laid out. -/
structure Format where
  /-- Exponents `10 ^ k` of the leading digit with `low ≤ k < high` are written in full. -/
  low : Int
  high : Int
  /-- Whether a whole number written in full ends in `.0`. -/
  pointZero : Bool
  /-- Whether an exponent above zero has a sign. -/
  plusSign : Bool

def stripZeros : Nat → Scaled → Scaled
  | 0, d => d
  | fuel + 1, d =>
    if d.digits ≠ 0 ∧ d.digits % 10 = 0 then stripZeros fuel ⟨d.digits / 10, d.exponent + 1⟩ else d

def zeros (n : Nat) : String := String.ofList (List.replicate n '0')

/-- Text of a positive decimal. -/
def Format.write (f : Format) (d : Scaled) : String :=
  let d := stripZeros 400 d
  let text := toString d.digits
  let len := text.length
  let point : Int := len + d.exponent
  if f.low < point ∧ point ≤ f.high then
    if 0 ≤ d.exponent then
      text ++ zeros d.exponent.toNat ++ (if f.pointZero then ".0" else "")
    else if 0 < point then
      String.ofList (text.toList.take point.toNat) ++ "." ++
        String.ofList (text.toList.drop point.toNat)
    else "0." ++ zeros (-point).toNat ++ text
  else
    let mantissa :=
      match text.toList with
      | [] => ""
      | [c] => String.ofList [c]
      | c :: rest => String.ofList (c :: '.' :: rest)
    mantissa ++ "e" ++ (if f.plusSign && 0 < point then "+" else "") ++ toString (point - 1)

/-- Sign, exponent field and fraction field of a double. -/
def fields (x : Float) : Bool × Nat × Nat :=
  let bits := x.toBits.toNat
  (bits / 9223372036854775808 == 1, bits / 4503599627370496 % 2048, bits % 4503599627370496)

/-- Mantissa and binary exponent of a finite double. -/
def binary (x : Float) : Nat × Int × Bool :=
  let (_, e, f) := fields x
  if e = 0 then (f, -1074, false)
  else (f + 4503599627370496, (e : Int) - 1075, f == 0 && 1 < e)

def isNegative (x : Float) : Bool := (fields x).1

def isFiniteNumber (x : Float) : Bool := (fields x).2.1 != 2047

/-- Text of a finite double. -/
def Format.float (f : Format) (x : Float) : String :=
  let (m, q, narrow) := binary x
  let body := if m = 0 then (if f.pointZero then "0.0" else "0") else f.write (Interval.ofBinary m q narrow).shortest
  if isNegative x then "-" ++ body else body

/-- Rounds `num / den` to a natural number, halves to even. -/
def roundHalfEven (num den : Nat) : Nat :=
  let q := num / den
  let r := num % den
  if 2 * r < den then q else if den < 2 * r then q + 1 else if q % 2 = 0 then q else q + 1

/-- A number of hundredths with two places after the point. -/
def hundredths (n : Nat) : String :=
  let rest := n % 100
  toString (n / 100) ++ "." ++ (if rest < 10 then "0" else "") ++ toString rest

/-- A double with exactly two places; the exact binary value is rounded, halves to even. Values that
are no numbers stand as words. -/
def twoPlaces (x : Float) : String :=
  let (m, q, _) := binary x
  let n := if 0 ≤ q then m * Nat.pow 2 q.toNat * 100 else roundHalfEven (m * 100) (Nat.pow 2 (-q).toNat)
  let body := if isFiniteNumber x then hundredths n else if m = 4503599627370496 then "inf" else "NaN"
  (if isNegative x then "-" else "") ++ body

end SourceSlices.Decimal
