import SourceSlices.Recomposition
import SourceSlices.Store.Json

/-!
Trees of chunks as JSON.
-/
namespace SourceSlices.ChunkTree

mutual

/-- Parts are shown by their index and row. -/
def toJson : ChunkTree → Json
  | .node c children => .obj [
      ("chunk_id", .str c.chunkId),
      ("batch_id", .str c.batchId),
      ("file_id", .int c.fileId),
      ("handler_name", .str c.handlerName),
      ("handler_version", .str c.handlerVersion),
      ("symbol_id", .optInt c.symbolId),
      ("parent_symbol_id", .optInt c.parentSymbolId),
      ("text", .str c.text),
      ("token_count", .int c.tokenCount),
      ("start_line", .optInt c.startLine),
      ("end_line", .optInt c.endLine),
      ("start_byte", .optInt c.startByte),
      ("end_byte", .optInt c.endByte),
      ("metadata", c.metadata.toJson),
      ("parts", .arr (c.parts.map fun p => .arr [.int p.content.partIndex, .int p.id])),
      ("first_seen_batch", .str c.firstSeen),
      ("last_seen_batch", .str c.lastSeen),
      ("delegate_parent_chunk_id", .optStr c.delegateParent),
      ("tree_size", .nat (node c children).size),
      ("children", .arr (listJson children))]

def listJson : List ChunkTree → List Json
  | [] => []
  | t :: rest => t.toJson :: listJson rest

end

end SourceSlices.ChunkTree
