import SourceSlices.Chunk

/-!
What a handler makes of a file, as JSON.
-/
namespace SourceSlices

def HandlerFile.toJson (f : HandlerFile) : Json := .obj [
  ("path", .str f.path),
  ("language", .str f.language),
  ("encoding", .str f.encoding),
  ("checksum", .str f.checksum),
  ("metadata", f.metadata.toJson)]

def Symbol.toJson (s : Symbol) : Json := .obj [
  ("symbol_id", .str s.symbolId),
  ("name", .str s.name),
  ("kind", .str s.kind),
  ("start_offset", .nat s.startOffset),
  ("end_offset", .nat s.endOffset),
  ("docstring", .optStr s.docstring),
  ("parent_id", .optStr s.parentId),
  ("metadata", s.metadata.toJson)]

def Chunk.toJson (c : Chunk) : Json := .obj [
  ("chunk_id", .str c.chunkId),
  ("text", .str c.text),
  ("token_count", .nat c.tokenCount),
  ("start_offset", .nat c.startOffset),
  ("end_offset", .nat c.endOffset),
  ("part_index", .nat c.partIndex),
  ("parent_symbol_id", .optStr c.parentSymbolId),
  ("delegate", .optStr c.delegate),
  ("metadata", c.metadata.toJson)]

def HandlerResult.toJson (r : HandlerResult) : Json := .obj [
  ("file", r.file.toJson),
  ("symbols", .arr (r.symbols.map Symbol.toJson)),
  ("chunks", .arr (r.chunks.map Chunk.toJson)),
  ("warnings", Json.strings r.warnings),
  ("errors", Json.strings r.errors)]

end SourceSlices
