import SourceSlices.Data.SortedMap
import SourceSlices.Json.Reader
import SourceSlices.Text.Lines

/-!
Open metadata of files, symbols and chunks: a sorted map from keys to a small closed set of values,
with its canonical JSON text.
-/
namespace SourceSlices

inductive MetaValue where
  | bool (b : Bool)
  | int (i : Int)
  | str (s : String)
  | list (items : List String)
  deriving DecidableEq, Repr

abbrev Metadata := SortedMap MetaValue

namespace MetaValue

/-- Bounds of a signed 64 bit number. -/
def intMin : Int := -9223372036854775808
def intMax : Int := 9223372036854775807

def fits (i : Int) : Bool := intMin ≤ i && i ≤ intMax

/-- A count, capped at the largest signed number. -/
def nat (n : Nat) : MetaValue := .int (min (n : Int) intMax)

def typeName : MetaValue → String
  | .bool _ => "bool"
  | .int _ => "int"
  | .str _ => "str"
  | .list _ => "list"

def str? : MetaValue → Option String
  | .str s => some s
  | _ => none

def bool? : MetaValue → Option Bool
  | .bool b => some b
  | _ => none

def digitsValue (digits : List Char) : Option Nat :=
  if digits.isEmpty || !digits.all Char.isDigit then none
  else some (digits.foldl (fun n d => n * 10 + (d.toNat - 48)) 0)

/-- A decimal number with an optional sign, within 64 bits. -/
def parseInt (cs : List Char) : Option Int :=
  let value := match cs with
    | '-' :: rest => (digitsValue rest).map fun n => -(n : Int)
    | '+' :: rest => (digitsValue rest).map fun n => (n : Int)
    | _ => (digitsValue cs).map fun n => (n : Int)
  value.filter fits

/-- Integer reading: numbers, truth values as one and zero, and numeric text. -/
def int? : MetaValue → Option Int
  | .int i => some i
  | .bool b => some (if b then 1 else 0)
  | .str s => parseInt (Text.trim s.toList)
  | .list _ => none

/-- Truth reading: anything but false, zero and the empty text or list. -/
def flag : MetaValue → Bool
  | .bool b => b
  | .int i => i != 0
  | .str s => !s.isEmpty
  | .list items => !items.isEmpty

def toJson : MetaValue → Json
  | .bool b => .bool b
  | .int i => .int i
  | .str s => .str s
  | .list items => Json.strings items

def strings? : List Json → Option (List String)
  | [] => some []
  | .str s :: rest => (strings? rest).map (s :: ·)
  | _ :: _ => none

def ofJson? : Json → Option MetaValue
  | .bool b => some (.bool b)
  | .int i => if fits i then some (.int i) else none
  | .str s => some (.str s)
  | .arr items => (strings? items).map .list
  | _ => none

end MetaValue

namespace Metadata

def empty : Metadata := SortedMap.empty

def ofList (entries : List (String × MetaValue)) : Metadata := SortedMap.ofList entries

def put (m : Metadata) (key : String) (value : MetaValue) : Metadata := SortedMap.insert m key value
def putStr (m : Metadata) (key value : String) : Metadata := m.put key (.str value)
def putNat (m : Metadata) (key : String) (n : Nat) : Metadata := m.put key (.nat n)
def putBool (m : Metadata) (key : String) (b : Bool) : Metadata := m.put key (.bool b)

def str? (m : Metadata) (key : String) : Option String := (m.find? key).bind MetaValue.str?
def int? (m : Metadata) (key : String) : Option Int := (m.find? key).bind MetaValue.int?
def flag (m : Metadata) (key : String) : Bool := (m.find? key).any MetaValue.flag

def toJson (m : Metadata) : Json := .obj (m.entries.map fun e => (e.1, e.2.toJson))

/-- The JSON text in which equal maps look equal. -/
def canonical (m : Metadata) : String := m.toJson.compact

/-- Members of a metadata object, each checked as soon as it is read. -/
def readMembers : Nat → Bool → Metadata → List Char →
    Except Json.Fault (Metadata × List Char)
  | 0, _, _, _ => .error .malformed
  | fuel + 1, first, m, cs =>
    match Json.skipSpace cs with
    | [] => .error .eof
    | '\x7d' :: rest => .ok (m, rest)
    | c :: rest =>
      if !first && c != ',' then .error .malformed
      else
        match (if first then c :: rest else Json.skipSpace rest) with
        | [] => .error .eof
        | '"' :: rest =>
          match Json.readString rest with
          | .error e => .error e
          | .ok (k, rest) =>
            match Json.skipSpace rest with
            | [] => .error .eof
            | ':' :: rest =>
              match Json.readValue (2 * rest.length + 2) (Json.maxDepth - 1) rest with
              | .error e => .error e
              | .ok (v, rest) =>
                match MetaValue.ofJson? v with
                | none => .error .data
                | some v => readMembers fuel false (m.put k v) rest
            | _ => .error .malformed
        | _ => .error .malformed

/-- Reads the JSON text of a metadata map. -/
def read (text : String) : Except Json.Fault Metadata :=
  let cs := text.toList
  match Json.skipSpace cs with
  | [] => .error .eof
  | '\x7b' :: rest => do
    let (m, rest) ← readMembers (cs.length + 1) true empty rest
    if (Json.skipSpace rest).isEmpty then .ok m else .error .malformed
  | '[' :: _ => .error .data
  | _ => do
    let _ ← Json.readValue (2 * cs.length + 2) Json.maxDepth cs
    .error .data

end Metadata

end SourceSlices
