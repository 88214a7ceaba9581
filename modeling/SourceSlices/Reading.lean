import SourceSlices.Hashing
import SourceSlices.Markdown.Event
import SourceSlices.Registry
import SourceSlices.Split
import SourceSlices.Syntax.Node

/-!
What a handler may consult while it reads a file, and the text that it reads: a file on disk, or
the view of a part of one.
-/
namespace SourceSlices

/-- The grammars that texts are read with. -/
structure Readers where
  css : List Char → Syntax.Node
  html : List Char → Syntax.Node
  python : List Char → Syntax.Node
  javascript : List Char → Syntax.Node
  typescript : List Char → Syntax.Node
  tsx : List Char → Syntax.Node
  markdown : List Char → List Markdown.Event

structure Reading where
  root : String
  config : Config
  count : Counter
  /-- Cap of handlers whose own is automatic. -/
  autoBudget : Nat
  registry : Registry
  readers : Readers
  disk : String → Except FileFault (List UInt8)
  /-- Number of delegations above this text. -/
  depth : Nat := 0
  /-- Text that stands for the file. -/
  view : Option (List Char) := none

/-- A way to read a file with some handler. -/
abbrev ReadSource := Handler → Reading → String → HandlerResult

structure LoadedSource where
  file : HandlerFile
  text : List Char
  warnings : List String

namespace Reading

/-- The same reading one delegation further down, of a part of the text. -/
def delegated (r : Reading) (view : List Char) : Reading :=
  { r with depth := r.depth + 1, view := some view }

def relativePath (r : Reading) (path : String) : String := (Path.strip? path r.root).getD path

def maxTokens (r : Reading) (handler : String) : Nat :=
  match r.config.handlerMaxTokens handler with
  | .limit n => n
  | .auto =>
    match r.config.generalMaxTokens with
    | .limit n => n
    | .auto => r.autoBudget

def describe (r : Reading) (path language checksum : String) (text : List Char) : HandlerFile where
  path := r.relativePath path
  language := language
  checksum := checksum
  metadata := (Metadata.empty.putNat "size_bytes" (Text.byteLength text)).putNat "line_count"
    (Text.lines text).length

/-- Reads the text and describes it. -/
def load (r : Reading) (path language : String) : Except Error LoadedSource :=
  match r.view with
  | some view =>
    let checksum := Hashing.checksum (Text.encodeUtf8 (String.ofList view))
    .ok ⟨r.describe path language checksum view, view, []⟩
  | none =>
    match r.disk path with
    | .error fault => .error (.io path fault)
    | .ok bytes =>
      let (text, warnings) := match Text.decodeUtf8? bytes with
        | some text => (text.toList, [])
        | none => ((Text.decodeLossy bytes).toList,
            [path ++ " is not valid utf-8; invalid bytes were replaced"])
      .ok ⟨r.describe path language (Hashing.checksum bytes) text, text, warnings⟩

/-- Result for a file that cannot be read at all. -/
def unreadable (r : Reading) (path language : String) (e : Error) : HandlerResult where
  file := { path := r.relativePath path, language, checksum := "" }
  errors := [e.message]

end Reading

/-- Symbols, chunks and warnings in the order in which they are found. -/
structure Output where
  symbols : List Symbol := []
  chunks : List Chunk := []
  warnings : List String := []

namespace Output

def append (a b : Output) : Output :=
  ⟨a.symbols ++ b.symbols, a.chunks ++ b.chunks, a.warnings ++ b.warnings⟩

instance : Append Output := ⟨append⟩

def join : List Output → Output
  | [] => {}
  | o :: rest => o ++ join rest

def ofSymbol (s : Symbol) : Output := { symbols := [s] }
def ofWarning (w : String) : Output := { warnings := [w] }

/-- A chunk split by a budget, with a warning if that makes several parts. -/
def ofChunk (count : Counter) (budget : Nat) (lines : Option LineIndex) (name : String) (c : Chunk) :
    Output :=
  let parts := Split.chunk count budget lines c
  { chunks := parts
    warnings := if parts.length > 1 then [Split.warning name parts.length] else [] }

/-- The output of a handler after the warnings of loading. -/
def toResult (o : Output) (source : LoadedSource) : HandlerResult where
  file := source.file
  symbols := o.symbols
  chunks := o.chunks
  warnings := source.warnings ++ o.warnings

end Output

end SourceSlices
