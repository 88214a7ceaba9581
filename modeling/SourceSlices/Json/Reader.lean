import SourceSlices.Json.Value

/-!
Reading JSON text. A fault says whether the text ended too early, is not JSON, or holds data of
the wrong shape for its reader.
-/
namespace SourceSlices.Json

inductive Fault where
  | eof
  | malformed
  | data
  deriving DecidableEq, Repr

def Fault.label : Fault → String
  | .eof => "eof"
  | .malformed => "syntax"
  | .data => "data"

def isSpace (c : Char) : Bool := c = ' ' || c = '\n' || c = '\t' || c = '\r'

def skipSpace (cs : List Char) : List Char := cs.dropWhile isSpace

/-- Expects the rest of a keyword. -/
def keyword (value : Json) : List Char → List Char → Except Fault (Json × List Char)
  | [], cs => .ok (value, cs)
  | _ :: _, [] => .error .eof
  | k :: ks, c :: cs => if c = k then keyword value ks cs else .error .malformed

def hexValue (c : Char) : Option Nat :=
  if '0' ≤ c ∧ c ≤ '9' then some (c.toNat - 48)
  else if 'a' ≤ c ∧ c ≤ 'f' then some (c.toNat - 87)
  else if 'A' ≤ c ∧ c ≤ 'F' then some (c.toNat - 55) else none

def hex4 : List Char → Except Fault (Nat × List Char)
  | a :: b :: c :: d :: rest =>
    match hexValue a, hexValue b, hexValue c, hexValue d with
    | some a, some b, some c, some d => .ok (((a * 16 + b) * 16 + c) * 16 + d, rest)
    | _, _, _, _ => .error .malformed
  | _ => .error .eof

/-- The character behind `\u`, which may need a second escape. -/
def unicodeEscape (cs : List Char) : Except Fault (Char × List Char) := do
  let (n, rest) ← hex4 cs
  if 0xdc00 ≤ n ∧ n ≤ 0xdfff then .error .malformed
  else if 0xd800 ≤ n ∧ n ≤ 0xdbff then
    match rest with
    | [] => .error .eof
    | '\\' :: [] => .error .eof
    | '\\' :: 'u' :: rest => do
      let (m, rest) ← hex4 rest
      if 0xdc00 ≤ m ∧ m ≤ 0xdfff then
        .ok (Char.ofNat ((n - 0xd800) * 1024 + (m - 0xdc00) + 0x10000), rest)
      else .error .malformed
    | _ => .error .malformed
  else .ok (Char.ofNat n, rest)

/-- The rest of a string after its opening quote; the fuel is the number of characters. -/
def stringBody : Nat → List Char → List Char → Except Fault (String × List Char)
  | 0, _, _ => .error .eof
  | _, [], _ => .error .eof
  | fuel + 1, c :: cs, acc =>
    if c = '"' then .ok (String.ofList acc.reverse, cs)
    else if c = '\\' then
      match cs with
      | [] => .error .eof
      | e :: rest =>
        if e = 'u' then do
          let (ch, rest) ← unicodeEscape rest
          stringBody fuel rest (ch :: acc)
        else
          let plain : Option Char :=
            if e = '"' then some '"' else if e = '\\' then some '\\' else if e = '/' then some '/'
            else if e = 'b' then some '\x08' else if e = 'f' then some '\x0c'
            else if e = 'n' then some '\n' else if e = 'r' then some '\r'
            else if e = 't' then some '\t' else none
          match plain with
          | some ch => stringBody fuel rest (ch :: acc)
          | none => .error .malformed
    else if c.toNat < 32 then .error .malformed
    else stringBody fuel cs (c :: acc)

def readString (cs : List Char) : Except Fault (String × List Char) := stringBody (cs.length + 1) cs []

def powerOfTen (n : Nat) : Float := Float.ofScientific 1 false n

/-- Scales a whole number by a power of ten with at most one rounding for usual sizes. -/
def scale : Nat → Float → Int → Except Fault Float
  | 0, f, _ => .ok f
  | fuel + 1, f, e =>
    if e.natAbs ≤ 308 then
      if 0 ≤ e then
        let r := f * powerOfTen e.natAbs
        if Decimal.isFiniteNumber r then .ok r else .error .malformed
      else .ok (f / powerOfTen e.natAbs)
    else if f == 0.0 then .ok f
    else if 0 ≤ e then .error .malformed
    else scale fuel (f / powerOfTen 308) (e + 308)

def floatOf (negative : Bool) (significand : Nat) (exponent : Int) : Except Fault Json := do
  let f ← scale 40 (Float.ofNat significand) exponent
  .ok (.float (if negative then -f else f))

def wordMax : Nat := 18446744073709551615

/-- Takes digits while they fit into 64 bits; further digits are only counted. -/
def takeDigits : List Char → Nat → Bool → Nat → Nat → Nat × Nat × Nat × List Char
  | [], sig, _, taken, extra => (sig, taken, extra, [])
  | c :: cs, sig, full, taken, extra =>
    if c.isDigit then
      let next := sig * 10 + (c.toNat - 48)
      if full || wordMax < next then takeDigits cs sig true taken (extra + 1)
      else takeDigits cs next false (taken + 1) extra
    else (sig, taken, extra, c :: cs)

/-- The digits of an exponent; beyond 32 bits it counts as out of range. -/
def exponentPart (negative : Bool) (sig : Nat) (start : Int) (cs : List Char) : Except Fault (Json × List Char) := do
  let (minus, cs) := match cs with
    | '-' :: rest => (true, rest)
    | '+' :: rest => (false, rest)
    | _ => (false, cs)
  match cs with
  | [] => .error .eof
  | c :: _ =>
    if c.isDigit then
      let digits := cs.takeWhile Char.isDigit
      let rest := cs.dropWhile Char.isDigit
      let e : Nat := digits.foldl (fun n d => n * 10 + (d.toNat - 48)) 0
      if 2147483648 ≤ e then
        if sig ≠ 0 ∧ !minus then .error .malformed
        else .ok (.float (if negative then -0.0 else 0.0), rest)
      else do
        let v ← floatOf negative sig (if minus then start - (e : Int) else start + (e : Int))
        .ok (v, rest)
    else .error .malformed

/-- What follows the whole part of a number. -/
def afterWhole (negative : Bool) (sig : Nat) (extra : Nat) (cs : List Char) : Except Fault (Json × List Char) := do
  match cs with
  | '.' :: rest =>
    let (sig, taken, more, rest') := takeDigits rest sig false 0 0
    if taken + more = 0 then .error (if rest'.isEmpty then .eof else .malformed)
    else
      let e : Int := (extra : Int) - taken
      match rest' with
      | 'e' :: rest'' => exponentPart negative sig e rest''
      | 'E' :: rest'' => exponentPart negative sig e rest''
      | _ => do
        let v ← floatOf negative sig e
        .ok (v, rest')
  | 'e' :: rest => exponentPart negative sig extra rest
  | 'E' :: rest => exponentPart negative sig extra rest
  | _ =>
    if extra = 0 then
      if negative then
        if sig = 0 then .ok (.float (-0.0), cs)
        else if sig ≤ 9223372036854775808 then .ok (.int (-(sig : Int)), cs)
        else .ok (.float (-(Float.ofNat sig)), cs)
      else .ok (.int sig, cs)
    else do
      let v ← floatOf negative sig extra
      .ok (v, cs)

def readNumber (negative : Bool) (cs : List Char) : Except Fault (Json × List Char) :=
  match cs with
  | [] => .error .eof
  | '0' :: rest =>
    match rest with
    | d :: _ => if d.isDigit then .error .malformed else afterWhole negative 0 0 rest
    | [] => afterWhole negative 0 0 rest
  | c :: _ =>
    if c.isDigit then
      let (sig, _, extra, rest) := takeDigits cs 0 false 0 0
      afterWhole negative sig extra rest
    else .error .malformed

/-- Nesting allowed in one text. -/
def maxDepth : Nat := 127

mutual

/-- One value; `depth` is the nesting still allowed. -/
def readValue : Nat → Nat → List Char → Except Fault (Json × List Char)
  | 0, _, _ => .error .malformed
  | fuel + 1, depth, cs =>
    match skipSpace cs with
    | [] => .error .eof
    | 'n' :: rest => keyword .null ['u', 'l', 'l'] rest
    | 't' :: rest => keyword (.bool true) ['r', 'u', 'e'] rest
    | 'f' :: rest => keyword (.bool false) ['a', 'l', 's', 'e'] rest
    | '-' :: rest => readNumber true rest
    | '"' :: rest => do
      let (s, rest) ← readString rest
      .ok (.str s, rest)
    | '[' :: rest =>
      match depth with
      | 0 => .error .malformed
      | depth + 1 => do
        let (items, rest) ← readItems fuel depth true rest
        .ok (.arr items, rest)
    | '\x7b' :: rest =>
      match depth with
      | 0 => .error .malformed
      | depth + 1 => do
        let (members, rest) ← readMembers fuel depth true rest
        .ok (.obj members, rest)
    | c :: rest => if c.isDigit then readNumber false (c :: rest) else .error .malformed

/-- The items of an array after the opening bracket or after an item. -/
def readItems : Nat → Nat → Bool → List Char → Except Fault (List Json × List Char)
  | 0, _, _, _ => .error .malformed
  | fuel + 1, depth, first, cs =>
    match skipSpace cs with
    | [] => .error .eof
    | ']' :: rest => .ok ([], rest)
    | c :: rest =>
      if !first && c != ',' then .error .malformed
      else
        let rest := if first then c :: rest else skipSpace rest
        match rest with
        | [] => .error .eof
        | ']' :: _ => .error .malformed
        | _ => do
          let (v, rest) ← readValue fuel depth rest
          let (more, rest) ← readItems fuel depth false rest
          .ok (v :: more, rest)

/-- The members of an object after the opening brace or after a member. -/
def readMembers : Nat → Nat → Bool → List Char → Except Fault (List (String × Json) × List Char)
  | 0, _, _, _ => .error .malformed
  | fuel + 1, depth, first, cs =>
    match skipSpace cs with
    | [] => .error .eof
    | '\x7d' :: rest => .ok ([], rest)
    | c :: rest =>
      if !first && c != ',' then .error .malformed
      else
        let rest := if first then c :: rest else skipSpace rest
        match rest with
        | [] => .error .eof
        | '"' :: rest => do
          let (k, rest) ← readString rest
          match skipSpace rest with
          | [] => .error .eof
          | ':' :: rest => do
            let (v, rest) ← readValue fuel depth rest
            let (more, rest) ← readMembers fuel depth false rest
            .ok ((k, v) :: more, rest)
          | _ => .error .malformed
        | _ => .error .malformed

end

/-- Reads a whole text as one value. -/
def read (text : String) : Except Fault Json := do
  let cs := text.toList
  let (v, rest) ← readValue (2 * cs.length + 2) maxDepth cs
  if (skipSpace rest).isEmpty then .ok v else .error .malformed

end SourceSlices.Json
