import SourceSlices.Chunk
import SourceSlices.Error

/-!
The parts of a result grouped by their chunk. A chunk is complete when its parts have the indices
from zero on without gap or repetition, and no part records another number of parts.
-/
namespace SourceSlices

structure ChunkGroup where
  chunkId : String
  /-- In the order of their indices. -/
  parts : List Chunk
  deriving DecidableEq

namespace ChunkGroup

/-- The different ids, in the order in which they first occur. -/
def idsOf (chunks : List Chunk) : List String := (chunks.map (·.chunkId)).eraseDups

/-- The parts of one chunk in order. -/
def partsOf (chunks : List Chunk) (id : String) : List Chunk :=
  (chunks.filter (·.chunkId = id)).mergeSort fun a b => a.partIndex ≤ b.partIndex

def isContiguous (g : ChunkGroup) : Bool := g.parts.map (·.partIndex) = List.range g.parts.length

/-- Every number of parts that is recorded is the number of parts. -/
def hasItsTotal (g : ChunkGroup) : Bool :=
  g.parts.all fun p => (p.metadata.int? "part_total").all fun t => t = (g.parts.length : Int)

def check (g : ChunkGroup) : Except Error ChunkGroup :=
  if !g.isContiguous then
    .error (.integrity ("chunk " ++ Text.quoted g.chunkId ++ " part indices not contiguous"))
  else if !g.hasItsTotal then
    .error (.integrity ("chunk " ++ Text.quoted g.chunkId ++ " has inconsistent part totals"))
  else .ok g

/-- The chunks of a list, if all of them are complete. -/
def ofChunks (chunks : List Chunk) : Except Error (List ChunkGroup) :=
  (idsOf chunks).mapM fun id => check ⟨id, partsOf chunks id⟩

end ChunkGroup

end SourceSlices
