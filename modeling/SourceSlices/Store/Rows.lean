import SourceSlices.Instant

/-!
Rows of the store: batches, files, symbols and slices. What a row says about its file is kept apart
from its number and from the batches that wrote or confirmed it.
-/
namespace SourceSlices

structure Batch where
  id : String
  ref : Option String := none
  generatedAt : Instant
  notes : Option String := none
  deriving DecidableEq

/-- What is recorded of a file. -/
structure FileInfo where
  batchId : String
  path : String
  lang : String
  sha : String
  mtimeNs : Option Int := none
  sizeBytes : Option Int := none
  deriving DecidableEq

structure FileRow where
  id : Int
  info : FileInfo
  deriving DecidableEq

structure SymbolContent where
  kind : String
  startLine : Option Int := none
  endLine : Option Int := none
  sha : String
  normSha : Option String := none
  docstring : Option String := none
  tokens : Int := 0
  deriving DecidableEq

structure SymbolRow where
  id : Int
  fileId : Int
  /-- Name of the symbol inside its file. -/
  path : String
  parentId : Option Int := none
  content : SymbolContent
  firstSeen : String
  lastSeen : String
  deriving DecidableEq

/-- Whether two rows say the same of a symbol. -/
def SymbolRow.sameContent (a b : SymbolRow) : Bool := a.content = b.content

/-- One part of a chunk, without the batches that hold it. -/
structure SliceContent where
  fileId : Int
  symbolId : Option Int := none
  parentSymbolId : Option Int := none
  chunkId : String
  handlerName : String
  handlerVersion : String
  partIndex : Int := 0
  partTotal : Int := 1
  startLine : Option Int := none
  endLine : Option Int := none
  startByte : Option Int := none
  endByte : Option Int := none
  tokenCount : Int := 0
  hash : String := ""
  normHash : Option String := none
  text : String := ""
  isTruncated : Bool := false
  overflowReason : Option String := none
  metadataJson : Option String := none
  deriving DecidableEq

structure Slice where
  id : Int
  /-- The batch that wrote the row. -/
  batchId : String
  content : SliceContent
  createdAt : Instant
  updatedAt : Instant
  firstSeen : String
  /-- The last batch that wrote or confirmed the row. -/
  lastSeen : String
  deriving DecidableEq

namespace Slice

/-- Whether two rows hold the same part of the same text. -/
def sameContent (a b : Slice) : Bool := a.content = b.content

/-- The place that versions of a part share. -/
def slot (s : Slice) : Int × String × Int := (s.content.fileId, s.content.chunkId, s.content.partIndex)

/-- Written by a batch, or confirmed by it. -/
def isSeenIn (s : Slice) (batch : String) : Bool := s.batchId = batch || s.lastSeen = batch

end Slice

/-- What the check of a batch reads of a slice. -/
structure SliceSummary where
  chunkId : String
  partIndex : Int
  partTotal : Int
  metadataJson : Option String
  deriving DecidableEq

def Slice.summary (s : Slice) : SliceSummary :=
  ⟨s.content.chunkId, s.content.partIndex, s.content.partTotal, s.content.metadataJson⟩

end SourceSlices
