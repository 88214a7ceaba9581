import SourceSlices.Decimal.Numeral
import SourceSlices.Json.Value
import SourceSlices.Text.Lines

/-!
Single values of a TOML text: strings, numbers, truth values and times.
-/
namespace SourceSlices.Toml

def isBlank (c : Char) : Bool := c = ' ' || c = '\t'

def skipBlanks (cs : List Char) : List Char := cs.dropWhile isBlank

/-- Characters that may stand for themselves; all control characters but the tab are left out. -/
def isText (c : Char) : Bool := c = '\t' || (32 ≤ c.toNat && c.toNat ≠ 127)

/-- Behind a line end, if there is one. -/
def lineEnd? : List Char → Option (List Char)
  | '\n' :: rest => some rest
  | '\r' :: '\n' :: rest => some rest
  | _ => none

/-- A character by its number, written with so many digits. -/
def numbered (n : Nat) (cs : List Char) : Option (Char × List Char) := do
  let value ← Decimal.whole? 16 (cs.take n)
  if n ≤ cs.length && value.isValidChar then some (Char.ofNat value, cs.drop n) else none

/-- What stands behind a backslash. -/
def escape : List Char → Option (Char × List Char)
  | 'b' :: rest => some ('\x08', rest)
  | 't' :: rest => some ('\t', rest)
  | 'n' :: rest => some ('\n', rest)
  | 'f' :: rest => some ('\x0c', rest)
  | 'r' :: rest => some ('\r', rest)
  | '"' :: rest => some ('"', rest)
  | '\\' :: rest => some ('\\', rest)
  | 'u' :: rest => numbered 4 rest
  | 'U' :: rest => numbered 8 rest
  | _ => none

/-- The rest of a string on one line; `escapes` tells whether backslashes count. -/
def lineString (quote : Char) (escapes : Bool) : Nat → List Char → List Char → Option (String × List Char)
  | 0, _, _ => none
  | _, [], _ => none
  | fuel + 1, c :: rest, acc =>
    if c = quote then some (String.ofList acc.reverse, rest)
    else if escapes && c = '\\' then do
      let (value, rest) ← escape rest
      lineString quote escapes fuel rest (value :: acc)
    else if isText c then lineString quote escapes fuel rest (c :: acc)
    else none

/-- Blanks and line ends behind a backslash at the end of a line; none if no line ends there. -/
def joinLines (cs : List Char) : Option (List Char) :=
  let isSpace (c : Char) : Bool := isBlank c || c = '\n' || c = '\r'
  let spaces := cs.takeWhile isSpace
  if (lineEnd? (spaces.dropWhile isBlank)).isSome then
    let unified := Text.unifyLineEnds spaces
    if spaces.count '\r' = spaces.length - unified.length then some (cs.drop spaces.length) else none
  else none

/-- The rest of a string over several lines. Up to two quotes may stand before the closing ones. -/
def blockString (quote : Char) (escapes : Bool) : Nat → List Char → List Char → Option (String × List Char)
  | 0, _, _ => none
  | _, [], _ => none
  | fuel + 1, c :: rest, acc =>
    if c = quote then
      let run := (c :: rest).takeWhile (· = quote)
      let n := min run.length 5
      if n < 3 then blockString quote escapes fuel ((c :: rest).drop n) (List.replicate n quote ++ acc)
      else some (String.ofList (List.replicate (n - 3) quote ++ acc).reverse, (c :: rest).drop n)
    else if escapes && c = '\\' then
      match joinLines rest with
      | some rest => blockString quote escapes fuel rest acc
      | none => do
        let (value, rest) ← escape rest
        blockString quote escapes fuel rest (value :: acc)
    else
      match lineEnd? (c :: rest) with
      | some rest => blockString quote escapes fuel rest ('\n' :: acc)
      | none => if isText c then blockString quote escapes fuel rest (c :: acc) else none

/-- A string at its opening quote. -/
def string (cs : List Char) : Option (String × List Char) :=
  match cs with
  | [] => none
  | quote :: rest =>
    let escapes := quote = '"'
    let fuel := cs.length + 1
    if quote ≠ '"' && quote ≠ '\'' then none
    else if rest.take 2 = [quote, quote] then
      let body := rest.drop 2
      blockString quote escapes fuel ((lineEnd? body).getD body) []
    else lineString quote escapes fuel rest []

/-- Digits to a base, single underscores between them left out. -/
def digits (base : Nat) (cs : List Char) : Option (List Char × List Char) :=
  let isDigit (c : Char) : Bool := (Decimal.digitValue c).any (· < base)
  let run := cs.takeWhile fun c => isDigit c || c = '_'
  let parts := Text.splitOn '_' run
  if parts.any (·.isEmpty) then none else some (parts.flatten, cs.drop run.length)

def int64 (i : Int) : Option Json :=
  if -9223372036854775808 ≤ i && i ≤ 9223372036854775807 then some (.int i) else none

/-- A whole number to a base other than ten, behind its prefix. -/
def basedInt (base : Nat) (cs : List Char) : Option (Json × List Char) := do
  let (ds, rest) ← digits base cs
  let n ← Decimal.whole? base ds
  let v ← int64 n
  some (v, rest)

/-- Digits of a whole part, which must not be padded with zeros. -/
def wholePart (cs : List Char) : Option (List Char × List Char) := do
  let (ds, rest) ← digits 10 cs
  match ds with
  | '0' :: _ :: _ => none
  | _ => some (ds, rest)

def exponent (cs : List Char) : Option (List Char × List Char) :=
  match cs with
  | e :: rest =>
    if e = 'e' || e = 'E' then
      let (sign, rest) := match rest with
        | '+' :: rest => ([], rest)
        | '-' :: rest => (['-'], rest)
        | _ => ([], rest)
      (digits 10 rest).map fun (ds, rest) => ('e' :: (sign ++ ds), rest)
    else some ([], cs)
  | [] => some ([], [])

def signed (negative : Bool) (x : Float) : Json := .float (if negative then -x else x)

/-- A number without its sign. -/
def magnitude (negative : Bool) (cs : List Char) : Option (Json × List Char) :=
  match Text.dropPrefix? cs "inf".toList, Text.dropPrefix? cs "nan".toList with
  | some rest, _ => some (signed negative (1.0 / 0.0), rest)
  | none, some rest => some (signed negative (0.0 / 0.0), rest)
  | none, none => do
    let (ds, rest) ← wholePart cs
    let (places, rest') ← match rest with
      | '.' :: more => (digits 10 more).map fun (ds, rest) => ('.' :: ds, rest)
      | _ => some ([], rest)
    let (power, rest') ← exponent rest'
    if places.isEmpty && power.isEmpty then
      let n ← Decimal.whole? 10 ds
      let v ← int64 (if negative then -(n : Int) else n)
      some (v, rest')
    else
      let x ← Decimal.unsigned? (ds ++ places ++ power)
      if !negative && !Decimal.isFiniteNumber x then none else some (signed negative x, rest')

def number (cs : List Char) : Option (Json × List Char) :=
  match cs with
  | '+' :: rest => magnitude false rest
  | '-' :: rest => magnitude true rest
  | '0' :: 'x' :: rest => basedInt 16 rest
  | '0' :: 'o' :: rest => basedInt 8 rest
  | '0' :: 'b' :: rest => basedInt 2 rest
  | _ => magnitude false cs

/-- Exactly so many digits with a value in a range. -/
def fixed (n lo hi : Nat) (cs : List Char) : Option (Nat × List Char) := do
  let ds := cs.take n
  let v ← Decimal.whole? 10 ds
  if ds.length = n && lo ≤ v && v ≤ hi then some (v, cs.drop n) else none

def expect (c : Char) : List Char → Option (List Char)
  | d :: rest => if d = c then some rest else none
  | [] => none

def pad (n v : Nat) : List Char :=
  let ds := Nat.toDigits 10 v
  List.replicate (n - ds.length) '0' ++ ds

def isLeap (year : Nat) : Bool := year % 4 = 0 && (year % 100 ≠ 0 || year % 400 = 0)

def daysIn (year month : Nat) : Nat :=
  if month = 2 then (if isLeap year then 29 else 28)
  else if [4, 6, 9, 11].contains month then 30 else 31

def date (cs : List Char) : Option (List Char × List Char) := do
  let (y, cs) ← fixed 4 0 9999 cs
  let cs ← expect '-' cs
  let (m, cs) ← fixed 2 1 12 cs
  let cs ← expect '-' cs
  let (d, cs) ← fixed 2 1 (daysIn y m) cs
  some (pad 4 y ++ '-' :: pad 2 m ++ '-' :: pad 2 d, cs)

/-- Digits of a fraction of a second, zeros at the end left out. -/
def fraction (cs : List Char) : Option (List Char × List Char) :=
  match cs with
  | '.' :: rest =>
    let ds := rest.takeWhile Char.isDigit
    if ds.isEmpty then some ([], cs)
    else
      let kept := Text.trimEndWhere (· = '0') (ds.take 9)
      some (if kept.isEmpty then [] else '.' :: kept, rest.drop ds.length)
  | _ => some ([], cs)

def clock (cs : List Char) : Option (List Char × List Char) := do
  let (h, cs) ← fixed 2 0 23 cs
  let cs ← expect ':' cs
  let (m, cs) ← fixed 2 0 59 cs
  let cs ← expect ':' cs
  let (s, cs) ← fixed 2 0 60 cs
  let (f, cs) ← fraction cs
  some (pad 2 h ++ ':' :: pad 2 m ++ ':' :: pad 2 s ++ f, cs)

/-- A time zone, if there is one. -/
def zone (cs : List Char) : Option (List Char × List Char) :=
  match cs with
  | c :: rest =>
    if c = 'Z' || c = 'z' then some (['Z'], rest)
    else if c = '+' || c = '-' then do
      let (h, rest) ← fixed 2 0 23 rest
      let rest ← expect ':' rest
      let (m, rest) ← fixed 2 0 59 rest
      some (c :: pad 2 h ++ ':' :: pad 2 m, rest)
    else some ([], cs)
  | [] => some ([], [])

/-- A date, a time of day, or both. -/
def moment (cs : List Char) : Option (List Char × List Char) :=
  match date cs with
  | some (d, rest) =>
    let separated := match rest with
      | c :: more => if c = 'T' || c = 't' || c = ' ' then clock more else none
      | [] => none
    match separated with
    | some (t, rest) => (zone rest).map fun (z, rest) => (d ++ 'T' :: t ++ z, rest)
    | none => some (d, rest)
  | none => clock cs

/-- A time is a record whose only member has this name. -/
def momentKey : String := "$__toml_private_datetime"

def momentValue (text : List Char) : Json := .obj [(momentKey, .str (String.ofList text))]

/-- A value that is not a collection. -/
def scalar (cs : List Char) : Option (Json × List Char) :=
  match cs with
  | [] => none
  | c :: _ =>
    if c = '"' || c = '\'' then (string cs).map fun (s, rest) => (.str s, rest)
    else if c = 't' then (Text.dropPrefix? cs "true".toList).map (.bool true, ·)
    else if c = 'f' then (Text.dropPrefix? cs "false".toList).map (.bool false, ·)
    else
      match moment cs with
      | some (m, rest) => some (momentValue m, rest)
      | none => number cs

end SourceSlices.Toml
