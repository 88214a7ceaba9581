import SourceSlices.Data.Extent
import SourceSlices.Metadata
import SourceSlices.Store.Tables

/-!
Chunks put together again from their slices, in trees: a chunk that a handler made for another one
hangs below the chunk it was made for.
-/
namespace SourceSlices

/-- A chunk made whole from its parts. -/
structure WholeChunk where
  chunkId : String
  batchId : String
  fileId : Int
  handlerName : String
  handlerVersion : String
  symbolId : Option Int
  parentSymbolId : Option Int
  text : String
  tokenCount : Int
  startLine : Option Int
  endLine : Option Int
  startByte : Option Int
  endByte : Option Int
  metadata : Metadata
  /-- In the order of their indices. -/
  parts : List Slice
  firstSeen : String
  lastSeen : String
  delegateParent : Option String
  deriving DecidableEq

inductive ChunkTree where
  | node (chunk : WholeChunk) (children : List ChunkTree)

namespace ChunkTree

def chunk : ChunkTree → WholeChunk
  | .node c _ => c

def children : ChunkTree → List ChunkTree
  | .node _ cs => cs

mutual

/-- Number of chunks in a tree. -/
def size : ChunkTree → Nat
  | .node _ cs => sizes cs + 1

def sizes : List ChunkTree → Nat
  | [] => 0
  | t :: rest => t.size + sizes rest

end

end ChunkTree

namespace WholeChunk

/-- Metadata of a part, empty if nothing is written. -/
def metadataOf (json : Option String) : Except Error Metadata :=
  match json with
  | none => .ok Metadata.empty
  | some text =>
    let text := Text.trim text.toList
    if text.isEmpty then .ok Metadata.empty
    else (Metadata.read (String.ofList text)).mapError fun f => .json f.label

/-- Drops each item that equals the one before it. -/
def squeeze : List Int → List Int
  | a :: b :: rest => if a = b then squeeze (b :: rest) else a :: squeeze (b :: rest)
  | l => l

/-- The number of parts: as recorded, if all parts agree on it and there are no more of them. -/
def partTotal (parts : List Slice) : Int :=
  let count : Int := parts.length
  match squeeze ((parts.map (·.content.partTotal)).filter (0 < ·)) with
  | [total] => max count total
  | _ => count

/-- Puts the parts of one chunk together; there must be one. -/
def ofParts (rows : List Slice) : Except Error WholeChunk :=
  let parts := rows.mergeSort fun a b => a.content.partIndex ≤ b.content.partIndex
  match parts with
  | [] => .error (.integrity "chunk without parts")
  | first :: _ => do
    let recorded ← metadataOf first.content.metadataJson
    let metadata := (recorded.erase "part_index").insert "part_total" (.int (partTotal parts))
    let bounds (f : SliceContent → Option Int) : List Int := parts.filterMap fun p => f p.content
    .ok {
      chunkId := first.content.chunkId
      batchId := first.batchId
      fileId := first.content.fileId
      handlerName := first.content.handlerName
      handlerVersion := first.content.handlerVersion
      symbolId := first.content.symbolId
      parentSymbolId := first.content.parentSymbolId
      text := String.join (parts.map (·.content.text))
      tokenCount := total (parts.map (·.content.tokenCount))
      startLine := least? (bounds (·.startLine))
      endLine := greatest? (bounds (·.endLine))
      startByte := least? (bounds (·.startByte))
      endByte := greatest? (bounds (·.endByte))
      metadata, parts
      firstSeen := first.firstSeen
      lastSeen := first.lastSeen
      delegateParent := Metadata.str? metadata "delegate_parent_chunk" }

/-- Where a chunk stands in its file. -/
def position (c : WholeChunk) : Int :=
  (c.startByte.or c.startLine).getD ((c.parts.head?.map (·.content.partIndex)).getD 0)

/-- Order by file, place and id. -/
def before (a b : WholeChunk) : Bool :=
  a.fileId < b.fileId || (a.fileId = b.fileId &&
    (a.position < b.position || (a.position = b.position && a.chunkId ≤ b.chunkId)))

/-- Whether a chunk was made by or for a delegate. -/
def isDelegated (c : WholeChunk) : Bool :=
  c.metadata.contains "delegate_parent_chunk" || c.metadata.contains "delegate_parent_handler"

end WholeChunk

namespace Recomposition

/-- The parts of each chunk, in the order in which the chunks first occur. -/
def groups (rows : List Slice) : List (List Slice) :=
  ((rows.map fun r => (r.content.fileId, r.content.chunkId)).eraseDups).map fun key =>
    rows.filter fun r => (r.content.fileId, r.content.chunkId) = key

/-- The place in the list of the chunk that a chunk hangs below, if it does. A delegated chunk that
names no other one hangs below the first ordinary chunk of its parent symbol. -/
def parentOf (chunks : List WholeChunk) (c : WholeChunk) : Except Error (Option Nat) :=
  match c.delegateParent with
  | some parent =>
    match chunks.findIdx? fun p => p.fileId = c.fileId ∧ p.chunkId = parent with
    | none => .error (.integrity
        ("chunk " ++ Text.quoted c.chunkId ++ " references missing parent " ++ Text.quoted parent))
    | some i =>
      if parent = c.chunkId then
        .error (.integrity ("chunk " ++ Text.quoted c.chunkId ++ " is its own delegate parent"))
      else .ok (some i)
  | none =>
    match c.parentSymbolId with
    | some symbol =>
      if c.isDelegated then
        .ok (chunks.findIdx? fun p => p.fileId = c.fileId ∧ p.symbolId = some symbol ∧ !p.isDelegated)
      else .ok none
    | none => .ok none

/-- Places of the chunks that hang below one. -/
def childrenOf (parents : List (Option Nat)) (parent : Option Nat) : List Nat :=
  (List.range parents.length).filter fun i => parents[i]? = some parent

/-- The tree below a chunk, as deep as the fuel allows. -/
def assemble (chunks : Array WholeChunk) (below : Array (List Nat)) : Nat → Nat → List ChunkTree
  | 0, _ => []
  | fuel + 1, i =>
    match chunks[i]? with
    | none => []
    | some c => [.node c (((below[i]?).getD []).flatMap (assemble chunks below fuel))]

/-- The trees of a list of slices, in the order of the files. -/
def recompose (rows : List Slice) : Except Error (List ChunkTree) := do
  let found ← (groups rows).mapM WholeChunk.ofParts
  let chunks := found.mergeSort WholeChunk.before
  let parents ← chunks.mapM (parentOf chunks)
  let below := (List.range chunks.length).map fun i => childrenOf parents (some i)
  let trees := (childrenOf parents none).flatMap
    (assemble chunks.toArray below.toArray (chunks.length + 1))
  if ChunkTree.sizes trees = chunks.length then .ok trees
  else .error (.integrity "delegate parent links form a cycle")

def ofFile (s : Store) (batch : String) (fileId : Int) : Except Error (List ChunkTree) :=
  recompose (s.fileSlices batch fileId)

/-- By the path of a file; none if it was never recorded. -/
def ofPath (s : Store) (batch path : String) : Except Error (Option (List ChunkTree)) :=
  match s.fileId? path with
  | none => .ok none
  | some id => (ofFile s batch id).map some

end Recomposition

end SourceSlices
