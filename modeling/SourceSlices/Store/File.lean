import SourceSlices.FileTree
import SourceSlices.Store.Json
import SourceSlices.Store.Tables
import SourceSlices.Text.Utf8

/-!
The store as a file: a line that says what it is, and the rows of all tables.
-/
namespace SourceSlices.Store

open Json (RecordField record? int? list?)

def fields : List (RecordField Store) := [
  .of "batches" (list? Batch.ofJson?) fun x s => { s with batches := x },
  .of "files" (list? FileRow.ofJson?) fun x s => { s with files := x },
  .of "symbols" (list? SymbolRow.ofJson?) fun x s => { s with symbols := x },
  .of "slices" (list? Slice.ofJson?) fun x s => { s with slices := x },
  .of "last_file" int? fun x s => { s with lastFile := x },
  .of "last_symbol" int? fun x s => { s with lastSymbol := x },
  .of "last_slice" int? fun x s => { s with lastSlice := x }]

def ofJson? (v : Json) : Option Store := record? fields {} v

def toJson (s : Store) : Json := .obj [
  ("batches", .arr (s.batches.map Batch.toJson)),
  ("files", .arr (s.files.map FileRow.toJson)),
  ("symbols", .arr (s.symbols.map SymbolRow.toJson)),
  ("slices", .arr (s.slices.map Slice.toJson)),
  ("last_file", .int s.lastFile),
  ("last_symbol", .int s.lastSymbol),
  ("last_slice", .int s.lastSlice)]

/-- The first line of every store. -/
def heading : List Char := "chunkloom store 1\n".toList

def text (s : Store) : String := String.ofList heading ++ s.toJson.compact

def ofText? (text : String) : Option Store :=
  match Text.dropPrefix? text.toList heading with
  | none => none
  | some rest =>
    match Json.read (String.ofList rest) with
    | .ok v => ofJson? v
    | .error _ => none

/-- A store that is kept in no file. -/
def isTransient (path : String) : Bool := path = "" || path = ":memory:"

def save (s : Store) (t : FileTree) (path : String) (now : Instant) : FileTree :=
  if isTransient path then t
  else (t.write path (Text.encodeUtf8 s.text) now.toNanos).toOption.getD t

/-- Makes the file of a new store; there must be a directory for it. -/
def start (t : FileTree) (path : String) (now : Instant) : Except StoreFault (FileTree × Store) :=
  match t.write path (Text.encodeUtf8 empty.text) now.toNanos with
  | .ok t => .ok (t, empty)
  | .error _ => .error (.cannotOpen path)

/-- Opens the store in a file. A missing or empty file becomes a new store. -/
def load (t : FileTree) (path : String) (now : Instant) : Except StoreFault (FileTree × Store) :=
  if isTransient path then .ok (t, empty)
  else
    match t.read path with
    | .ok [] => start t path now
    | .ok bytes =>
      match (Text.decodeUtf8? bytes).bind ofText? with
      | some s => .ok (t, s)
      | none => .error .notDatabase
    | .error .notFound => start t path now
    | .error _ => .error (.cannotOpen path)

end SourceSlices.Store
