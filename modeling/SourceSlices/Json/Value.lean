import SourceSlices.Decimal.Shortest

/-!
JSON values and their two written forms. Object members keep the order in which they are listed.
-/
namespace SourceSlices

inductive Json where
  | null
  | bool (b : Bool)
  | int (i : Int)
  | float (x : Float)
  | str (s : String)
  | arr (items : List Json)
  | obj (members : List (String × Json))
  deriving Inhabited

namespace Json

def ofOption {α : Type} (f : α → Json) : Option α → Json
  | none => .null
  | some a => f a

def strings (items : List String) : Json := .arr (items.map .str)

def nat (n : Nat) : Json := .int n

def optStr : Option String → Json := ofOption .str
def optInt : Option Int → Json := ofOption .int

/-- Doubles are written in full from `1e-5` up to `1e16` and always show a point or an exponent,
which has a sign. -/
def floatFormat : Decimal.Format := ⟨-5, 16, true, true⟩

def hexDigit (n : Nat) : Char := if n < 10 then Char.ofNat (48 + n) else Char.ofNat (87 + n)

/-- Quotes, backslashes and control characters are escaped; all else stands for itself. -/
def escapeChar (c : Char) : List Char :=
  if c = '"' then ['\\', '"']
  else if c = '\\' then ['\\', '\\']
  else if c = '\n' then ['\\', 'n']
  else if c = '\r' then ['\\', 'r']
  else if c = '\t' then ['\\', 't']
  else if c.toNat = 8 then ['\\', 'b']
  else if c.toNat = 12 then ['\\', 'f']
  else if c.toNat < 32 then
    ['\\', 'u', '0', '0', hexDigit (c.toNat / 16), hexDigit (c.toNat % 16)]
  else [c]

def quote (s : String) : String :=
  String.ofList ('"' :: (s.toList.flatMap escapeChar ++ ['"']))

def writeFloat (x : Float) : String :=
  if Decimal.isFiniteNumber x then floatFormat.float x else "null"

mutual

/-- Text without any blanks. -/
def compact : Json → String
  | .null => "null"
  | .bool b => if b then "true" else "false"
  | .int i => toString i
  | .float x => writeFloat x
  | .str s => quote s
  | .arr items => "[" ++ String.intercalate "," (compactItems items) ++ "]"
  | .obj members => "\x7b" ++ String.intercalate "," (compactMembers members) ++ "\x7d"

def compactItems : List Json → List String
  | [] => []
  | v :: rest => v.compact :: compactItems rest

def compactMembers : List (String × Json) → List String
  | [] => []
  | (k, v) :: rest => (quote k ++ ":" ++ v.compact) :: compactMembers rest

end

def indent (depth : Nat) : String := String.ofList (List.replicate (2 * depth) ' ')

/-- Surrounds lines of a nested value, two spaces deeper than the value itself. -/
def block (opening closing : String) (depth : Nat) (lines : List String) : String :=
  if lines.isEmpty then opening ++ closing
  else opening ++ "\n" ++ String.intercalate ",\n" (lines.map (indent (depth + 1) ++ ·)) ++
    "\n" ++ indent depth ++ closing

mutual

/-- Text with one line per item and member, indented by two spaces for each level. -/
def prettyAt (depth : Nat) : Json → String
  | .arr items => block "[" "]" depth (prettyItems (depth + 1) items)
  | .obj members => block "\x7b" "\x7d" depth (prettyMembers (depth + 1) members)
  | .null => "null"
  | .bool b => if b then "true" else "false"
  | .int i => toString i
  | .float x => writeFloat x
  | .str s => quote s

def prettyItems (depth : Nat) : List Json → List String
  | [] => []
  | v :: rest => v.prettyAt depth :: prettyItems depth rest

def prettyMembers (depth : Nat) : List (String × Json) → List String
  | [] => []
  | (k, v) :: rest => (quote k ++ ": " ++ v.prettyAt depth) :: prettyMembers depth rest

end

def pretty (v : Json) : String := v.prettyAt 0

/-- The member of that name; the last one if there are several. -/
def get? (v : Json) (key : String) : Option Json :=
  match v with
  | .obj members => (members.reverse.find? (·.1 == key)).map (·.2)
  | _ => none

end Json

end SourceSlices
