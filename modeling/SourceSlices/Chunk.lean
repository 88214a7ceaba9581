import SourceSlices.Metadata
import SourceSlices.Text.Lines

/-!
What a handler makes of one file: its description, its symbols and its chunks.
-/
namespace SourceSlices

structure HandlerFile where
  path : String
  language : String
  encoding : String := "utf-8"
  checksum : String
  metadata : Metadata := Metadata.empty
  deriving DecidableEq

structure Symbol where
  symbolId : String
  name : String
  kind : String
  startOffset : Nat
  endOffset : Nat
  docstring : Option String := none
  parentId : Option String := none
  metadata : Metadata := Metadata.empty
  deriving DecidableEq

/-- One part of a chunk; a chunk that fits its budget has a single part. -/
structure Chunk where
  chunkId : String
  text : String
  tokenCount : Nat := 0
  startOffset : Nat
  endOffset : Nat
  partIndex : Nat := 0
  parentSymbolId : Option String := none
  delegate : Option String := none
  metadata : Metadata := Metadata.empty
  deriving DecidableEq

structure HandlerResult where
  file : HandlerFile
  symbols : List Symbol := []
  chunks : List Chunk := []
  warnings : List String := []
  errors : List String := []
  deriving DecidableEq

/-- The part of a text between two byte offsets. -/
def sliceText (cs : List Char) (start stop : Nat) : String := String.ofList (Text.slice cs start stop)

/-- A chunk that holds the bytes `start..stop` of a text. -/
def Chunk.ofSlice (chunkId : String) (cs : List Char) (start stop : Nat) : Chunk :=
  ⟨chunkId, sliceText cs start stop, 0, start, stop, 0, none, none, Metadata.empty⟩

/-- Records the lines of a byte range. -/
def Metadata.putLines (m : Metadata) (lines : LineIndex) (start stop : Nat) : Metadata :=
  let (first, last) := lines.span start stop
  (m.putNat "start_line" first).putNat "end_line" last

end SourceSlices
