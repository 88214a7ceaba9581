import SourceSlices.Decimal.Numeral
import SourceSlices.Text.Lines

/-!
Points in time with their RFC 3339 text.
-/
namespace SourceSlices

/-- Seconds since the first day of 1970, and the part of a second in billionths. A leap second
counts more than a full second of billionths. -/
structure Instant where
  seconds : Int
  nanos : Nat
  deriving DecidableEq, Inhabited

namespace Instant

def epoch : Instant := ⟨0, 0⟩

/-- Days between the first day of 1970 and a date of the Gregorian calendar. -/
def daysOf (year : Int) (month day : Nat) : Int :=
  let y := if month ≤ 2 then year - 1 else year
  let era := y / 400
  let ofEra := y - era * 400
  let shifted : Nat := if 2 < month then month - 3 else month + 9
  let ofYear : Int := ((153 * shifted + 2) / 5 + day - 1 : Nat)
  era * 146097 + (ofEra * 365 + ofEra / 4 - ofEra / 100 + ofYear) - 719468

/-- Year, month and day of a number of days since the first day of 1970. -/
def dateOf (days : Int) : Int × Nat × Nat :=
  let z := days + 719468
  let era := z / 146097
  let ofEra := z - era * 146097
  let yearOfEra := (ofEra - ofEra / 1460 + ofEra / 36524 - ofEra / 146096) / 365
  let ofYear := (ofEra - (365 * yearOfEra + yearOfEra / 4 - yearOfEra / 100)).toNat
  let shifted := (5 * ofYear + 2) / 153
  let day := ofYear - (153 * shifted + 2) / 5 + 1
  let month := if shifted < 10 then shifted + 3 else shifted - 9
  (yearOfEra + era * 400 + (if month ≤ 2 then 1 else 0), month, day)

def isLeap (year : Int) : Bool := year % 4 = 0 && (year % 100 ≠ 0 || year % 400 = 0)

def daysIn (year : Int) (month : Nat) : Nat :=
  if month = 2 then (if isLeap year then 29 else 28)
  else if [4, 6, 9, 11].contains month then 30 else 31

def pad (width n : Nat) : String :=
  let digits := toString n
  String.ofList (List.replicate (width - digits.length) '0') ++ digits

/-- Years of four digits stand for themselves, all others have a sign. -/
def yearText (year : Int) : String :=
  if 0 ≤ year ∧ year ≤ 9999 then pad 4 year.toNat
  else (if year < 0 then "-" else "+") ++ pad 4 year.natAbs

/-- No digits, or three, six or nine of them. -/
def fractionText (nanos : Nat) : String :=
  if nanos = 0 then ""
  else if nanos % 1000000 = 0 then "." ++ pad 3 (nanos / 1000000)
  else if nanos % 1000 = 0 then "." ++ pad 6 (nanos / 1000)
  else "." ++ pad 9 nanos

def billion : Nat := 1000000000

def text (t : Instant) : String :=
  let days := t.seconds / 86400
  let ofDay := (t.seconds - days * 86400).toNat
  let (year, month, day) := dateOf days
  yearText year ++ "-" ++ pad 2 month ++ "-" ++ pad 2 day ++ "T" ++ pad 2 (ofDay / 3600) ++ ":" ++
    pad 2 (ofDay / 60 % 60) ++ ":" ++ pad 2 (ofDay % 60 + t.nanos / billion) ++
    fractionText (t.nanos % billion) ++ "Z"

/-- Nanoseconds since the first day of 1970. -/
def toNanos (t : Instant) : Int := t.seconds * billion + t.nanos

/-- Up to so many digits behind blanks. -/
def digits (width : Nat) (cs : List Char) : Option (Nat × List Char) :=
  let cs := Text.trimStart cs
  let ds := (cs.takeWhile Char.isDigit).take width
  (Decimal.whole? 10 ds).map (·, cs.drop ds.length)

def mark (c : Char) (cs : List Char) : Option (List Char) :=
  match Text.trimStart cs with
  | d :: rest => if d = c then some rest else none
  | [] => none

def year (cs : List Char) : Option (Int × List Char) :=
  match Text.trimStart cs with
  | '-' :: rest => (digits rest.length rest).map fun (n, rest) => (-(n : Int), rest)
  | '+' :: rest => (digits rest.length rest).map fun (n, rest) => ((n : Int), rest)
  | cs => (digits 4 cs).map fun (n, rest) => ((n : Int), rest)

/-- Billionths behind a point; digits after the ninth are passed over. -/
def fraction (cs : List Char) : Option (Nat × List Char) :=
  match cs with
  | '.' :: rest =>
    let ds := rest.takeWhile Char.isDigit
    let kept := ds.take 9
    (Decimal.whole? 10 kept).map fun n => (n * Nat.pow 10 (9 - kept.length), rest.drop ds.length)
  | _ => some (0, cs)

/-- Seconds east of Greenwich. -/
def offset (cs : List Char) : Option (Int × List Char) :=
  let cs := Text.trimStart cs
  let two (cs : List Char) : Option (Nat × List Char) :=
    let ds := cs.take 2
    if ds.length = 2 && ds.all Char.isDigit then (Decimal.whole? 10 ds).map (·, cs.drop 2) else none
  if Text.asciiLower (cs.take 3) = "utc".toList then some (0, cs.drop 3)
  else match cs with
    | c :: rest =>
      if c = 'Z' || c = 'z' then some (0, rest)
      else if c = '+' || c = '-' || c = '\u2212' then do
        let (h, rest) ← two rest
        let (m, rest) ← two (rest.dropWhile fun c => c = ':' || Text.isBlank c)
        if 23 < h || 59 < m then none
        else
          let s : Int := (h * 3600 + m * 60 : Nat)
          some (if c = '+' then s else -s, rest)
      else none
    | [] => none

/-- Reads a time; blanks may stand between its parts. -/
def parse? (s : String) : Option Instant := do
  let (y, cs) ← year s.toList
  let (mo, cs) ← (mark '-' cs).bind (digits 2)
  let (d, cs) ← (mark '-' cs).bind (digits 2)
  let cs ← match cs with
    | c :: rest => if c = 'T' || c = 't' || c = ' ' then some rest else none
    | [] => none
  let (h, cs) ← digits 2 cs
  let (mi, cs) ← (mark ':' cs).bind (digits 2)
  let (s, cs) ← (mark ':' cs).bind (digits 2)
  let (n, cs) ← fraction cs
  let (east, cs) ← offset cs
  if !Text.isAllBlank cs || mo < 1 || 12 < mo || d < 1 || daysIn y mo < d || 23 < h || 59 < mi || 60 < s then
    none
  else
    let leap := s = 60
    let ofDay : Int := (h * 3600 + mi * 60 + (if leap then 59 else s) : Nat)
    some ⟨daysOf y mo d * 86400 + ofDay - east, if leap then n + billion else n⟩

end Instant

end SourceSlices
