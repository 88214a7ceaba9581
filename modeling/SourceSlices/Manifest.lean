import SourceSlices.FileTree
import SourceSlices.Run.Json
import SourceSlices.Text.Utf8

/-!
The manifest: a JSON file with one entry for each source. The state of the last run is kept under
one key of the entry; all other keys belong to others and are kept as they are.
-/
namespace SourceSlices

structure SourceEntry where
  state : Option RunState := none
  others : SortedMap Json := ∅
  deriving Inhabited

structure Manifest where
  sources : SortedMap SourceEntry := ∅
  others : SortedMap Json := ∅
  deriving Inhabited

namespace Json

mutual

/-- The same value with the members of all objects in the order of their keys; of members with one
key the last is kept. -/
def sorted : Json → Json
  | .arr items => .arr (sortedItems items)
  | .obj members => .obj (SortedMap.ofList (sortedMembers members)).entries
  | v => v

def sortedItems : List Json → List Json
  | [] => []
  | v :: rest => v.sorted :: sortedItems rest

def sortedMembers : List (String × Json) → List (String × Json)
  | [] => []
  | (k, v) :: rest => (k, v.sorted) :: sortedMembers rest

end

/-- Splits the members of an object into the one of a key, if it is there, and all others. The key
must not occur twice. -/
def takeMember? (key : String) : Json → Option (Option Json × SortedMap Json)
  | .obj members =>
    let others := SortedMap.ofList (sortedMembers (members.filter (·.1 ≠ key)))
    match members.filter (·.1 = key) with
    | [] => some (none, others)
    | [(_, v)] => some (some v, others)
    | _ => none
  | _ => none

/-- An object that begins with a member of its own. -/
def withMember (key : String) (value : Option Json) (others : SortedMap Json) : Json :=
  .obj ((value.map (key, ·)).toList ++ others.entries)

end Json

namespace SourceEntry

def stateKey : String := "parser"

def ofJson? (v : Json) : Option SourceEntry := do
  let (state, others) ← Json.takeMember? stateKey v
  let state ← match state with
    | some v => Json.optional? RunState.ofJson? v
    | none => some none
  some { state, others }

def toJson (e : SourceEntry) : Json :=
  Json.withMember stateKey (e.state.map RunState.toJson) e.others

end SourceEntry

namespace Manifest

def sourcesKey : String := "sources"

def ofJson? (v : Json) : Option Manifest := do
  let (sources, others) ← Json.takeMember? sourcesKey v
  let sources ← match sources with
    | some v => Json.map? SourceEntry.ofJson? v
    | none => some ∅
  some { sources, others }

def toJson (m : Manifest) : Json :=
  Json.withMember sourcesKey (some (Json.ofMap SourceEntry.toJson m.sources)) m.others

/-- A manifest from its text; nothing is written in a blank one. -/
def ofText (text : String) : Except Error Manifest :=
  if Text.isAllBlank text.toList then .ok {}
  else
    match Json.read text with
    | .error fault => .error (.json fault.label)
    | .ok v =>
      match ofJson? v with
      | some m => .ok m
      | none => .error (.json Json.Fault.data.label)

def text (m : Manifest) : String := m.toJson.pretty

/-- The state of a source, if one is recorded. -/
def state? (m : Manifest) (source : String) : Option RunState :=
  (m.sources.find? source).bind (·.state)

/-- Changes the state of one source. -/
def update (m : Manifest) (source : String) (change : RunState → RunState) : Manifest × RunState :=
  let entry := (m.sources.find? source).getD {}
  let state := change (entry.state.getD {})
  ({ m with sources := m.sources.insert source { entry with state := some state } }, state)

/-! ### The file -/

/-- Without a file there is an empty manifest. -/
def load (t : FileTree) (path : String) : Except Error Manifest :=
  match t.read path with
  | .error .notFound => .ok {}
  | .error fault => .error (.io path fault)
  | .ok bytes =>
    match Text.decodeUtf8? bytes with
    | some text => ofText text
    | none => .error (.io path .invalidUtf8)

/-- Writes the file beside its place and then moves it there. -/
def save (m : Manifest) (t : FileTree) (path : String) (now : Instant) : Except Error FileTree := do
  let t ← match Path.parent? path with
    | some parent => (t.makeDirs parent).mapError (.io parent)
    | none => .ok t
  let draft := path ++ ".tmp"
  let t ← (t.write draft (Text.encodeUtf8 m.text) now.toNanos).mapError (.io draft)
  (t.rename draft path).mapError (.io path)

/-- Changes the state of one source in the file. -/
def record (t : FileTree) (path : String) (now : Instant) (source : String)
    (change : RunState → RunState) : Except Error (FileTree × RunState) := do
  let m ← load t path
  let (m, state) := m.update source change
  let t ← m.save t path now
  .ok (t, state)

end Manifest

end SourceSlices
