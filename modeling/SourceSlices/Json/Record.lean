import SourceSlices.Data.SortedMap
import SourceSlices.Json.Reader

/-!
Typed reading of structured data. A record may be written as an object or as the list of its fields
in order; what is left out keeps its default, and fields that are not known are passed over.
-/
namespace SourceSlices.Json

def maxWord : Nat := 18446744073709551615

def bool? : Json → Option Bool
  | .bool b => some b
  | _ => none

def str? : Json → Option String
  | .str s => some s
  | _ => none

def nat? : Json → Option Nat
  | .int i => if 0 ≤ i ∧ i ≤ maxWord then some i.toNat else none
  | _ => none

def int? : Json → Option Int
  | .int i => some i
  | _ => none

def float? : Json → Option Float
  | .float x => some x
  | .int i => some (Float.ofInt i)
  | _ => none

def list? (item : Json → Option α) : Json → Option (List α)
  | .arr items => items.mapM item
  | _ => none

def map? (value : Json → Option α) : Json → Option (SortedMap α)
  | .obj members => (members.mapM fun (e : String × Json) => (value e.2).map (e.1, ·)).map SortedMap.ofList
  | _ => none

def optional? (value : Json → Option α) : Json → Option (Option α)
  | .null => some none
  | v => (value v).map some

def ofMap (value : α → Json) (m : SortedMap α) : Json := .obj (m.entries.map fun e => (e.1, value e.2))

/-- A field of a record: its name, and how its value changes the record. -/
structure RecordField (α : Type) where
  name : String
  set : Json → α → Option α

def RecordField.of (name : String) (read : Json → Option β) (put : β → α → α) : RecordField α :=
  ⟨name, fun v a => (read v).map (put · a)⟩

/-- Members of an object in turn; a field must not occur twice. -/
def setMembers (fields : List (RecordField α)) : List String → List (String × Json) → α → Option α
  | _, [], a => some a
  | seen, (k, v) :: rest, a =>
    match fields.find? (·.name == k) with
    | none => setMembers fields seen rest a
    | some f =>
      if seen.contains k then none
      else (f.set v a).bind (setMembers fields (k :: seen) rest)

/-- The items of a list fill the fields in order. -/
def setItems : List (RecordField α) → List Json → α → Option α
  | _, [], a => some a
  | [], _ :: _, _ => none
  | f :: fields, v :: rest, a => (f.set v a).bind (setItems fields rest)

def record? (fields : List (RecordField α)) (default' : α) : Json → Option α
  | .obj members => setMembers fields [] members default'
  | .arr items => setItems fields items default'
  | _ => none

end SourceSlices.Json
