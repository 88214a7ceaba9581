import SourceSlices.Json.Record
import SourceSlices.Store.Rows

/-!
Rows of the store as JSON, and back.
-/
namespace SourceSlices

open Json (RecordField record? bool? str? int? optional?)

def Instant.ofJson? : Json → Option Instant
  | .str s => parse? s
  | _ => none

def Instant.toJson (t : Instant) : Json := .str t.text

namespace Batch

def fields : List (RecordField Batch) := [
  .of "id" str? fun x b => { b with id := x },
  .of "ref" (optional? str?) fun x b => { b with ref := x },
  .of "generated_at" Instant.ofJson? fun x b => { b with generatedAt := x },
  .of "notes" (optional? str?) fun x b => { b with notes := x }]

def ofJson? (v : Json) : Option Batch := record? fields { id := "", generatedAt := Instant.epoch } v

def toJson (b : Batch) : Json := .obj [
  ("id", .str b.id),
  ("ref", .optStr b.ref),
  ("generated_at", b.generatedAt.toJson),
  ("notes", .optStr b.notes)]

end Batch

namespace FileInfo

def fields : List (RecordField FileInfo) := [
  .of "batch_id" str? fun x f => { f with batchId := x },
  .of "repo_path" str? fun x f => { f with path := x },
  .of "lang" str? fun x f => { f with lang := x },
  .of "file_sha" str? fun x f => { f with sha := x },
  .of "mtime_ns" (optional? int?) fun x f => { f with mtimeNs := x },
  .of "size_bytes" (optional? int?) fun x f => { f with sizeBytes := x }]

end FileInfo

/-- The fields of a part of a record as fields of the record. -/
def Json.RecordField.within (f : RecordField α) (get : β → α) (put : α → β → β) : RecordField β :=
  ⟨f.name, fun v b => (f.set v (get b)).map (put · b)⟩

namespace FileRow

def fields : List (RecordField FileRow) :=
  .of "id" int? (fun x f => { f with id := x }) ::
    FileInfo.fields.map (·.within FileRow.info fun x f => { f with info := x })

def ofJson? (v : Json) : Option FileRow := record? fields ⟨0, ⟨"", "", "", "", none, none⟩⟩ v

def toJson (f : FileRow) : Json := .obj [
  ("id", .int f.id),
  ("batch_id", .str f.info.batchId),
  ("repo_path", .str f.info.path),
  ("lang", .str f.info.lang),
  ("file_sha", .str f.info.sha),
  ("mtime_ns", .optInt f.info.mtimeNs),
  ("size_bytes", .optInt f.info.sizeBytes)]

end FileRow

namespace SymbolContent

def fields : List (RecordField SymbolContent) := [
  .of "kind" str? fun x c => { c with kind := x },
  .of "start_line" (optional? int?) fun x c => { c with startLine := x },
  .of "end_line" (optional? int?) fun x c => { c with endLine := x },
  .of "symbol_sha" str? fun x c => { c with sha := x },
  .of "symbol_norm_sha" (optional? str?) fun x c => { c with normSha := x },
  .of "docstring" (optional? str?) fun x c => { c with docstring := x },
  .of "tokens" int? fun x c => { c with tokens := x }]

end SymbolContent

namespace SymbolRow

def fields : List (RecordField SymbolRow) :=
  [ .of "id" int? fun x s => { s with id := x },
    .of "file_id" int? fun x s => { s with fileId := x },
    .of "parent_id" (optional? int?) fun x s => { s with parentId := x },
    .of "symbol_path" str? fun x s => { s with path := x },
    .of "first_seen_batch" str? fun x s => { s with firstSeen := x },
    .of "last_seen_batch" str? fun x s => { s with lastSeen := x }] ++
  SymbolContent.fields.map (·.within SymbolRow.content fun x s => { s with content := x })

def ofJson? (v : Json) : Option SymbolRow :=
  record? fields
    { id := 0, fileId := 0, path := "", content := { kind := "", sha := "" }, firstSeen := "", lastSeen := "" } v

def toJson (s : SymbolRow) : Json := .obj [
  ("id", .int s.id),
  ("file_id", .int s.fileId),
  ("parent_id", .optInt s.parentId),
  ("kind", .str s.content.kind),
  ("symbol_path", .str s.path),
  ("start_line", .optInt s.content.startLine),
  ("end_line", .optInt s.content.endLine),
  ("symbol_sha", .str s.content.sha),
  ("symbol_norm_sha", .optStr s.content.normSha),
  ("docstring", .optStr s.content.docstring),
  ("tokens", .int s.content.tokens),
  ("first_seen_batch", .str s.firstSeen),
  ("last_seen_batch", .str s.lastSeen)]

end SymbolRow

namespace SliceContent

def fields : List (RecordField SliceContent) := [
  .of "file_id" int? fun x c => { c with fileId := x },
  .of "symbol_id" (optional? int?) fun x c => { c with symbolId := x },
  .of "parent_symbol_id" (optional? int?) fun x c => { c with parentSymbolId := x },
  .of "chunk_id" str? fun x c => { c with chunkId := x },
  .of "handler_name" str? fun x c => { c with handlerName := x },
  .of "handler_version" str? fun x c => { c with handlerVersion := x },
  .of "part_index" int? fun x c => { c with partIndex := x },
  .of "part_total" int? fun x c => { c with partTotal := x },
  .of "start_line" (optional? int?) fun x c => { c with startLine := x },
  .of "end_line" (optional? int?) fun x c => { c with endLine := x },
  .of "start_byte" (optional? int?) fun x c => { c with startByte := x },
  .of "end_byte" (optional? int?) fun x c => { c with endByte := x },
  .of "token_count" int? fun x c => { c with tokenCount := x },
  .of "content_hash" str? fun x c => { c with hash := x },
  .of "content_norm_hash" (optional? str?) fun x c => { c with normHash := x },
  .of "content_text" str? fun x c => { c with text := x },
  .of "overflow_is_truncated" bool? fun x c => { c with isTruncated := x },
  .of "overflow_reason" (optional? str?) fun x c => { c with overflowReason := x },
  .of "metadata_json" (optional? str?) fun x c => { c with metadataJson := x }]

end SliceContent

namespace Slice

def fields : List (RecordField Slice) :=
  [ .of "id" int? fun x s => { s with id := x },
    .of "batch_id" str? fun x s => { s with batchId := x },
    .of "created_at" Instant.ofJson? fun x s => { s with createdAt := x },
    .of "updated_at" Instant.ofJson? fun x s => { s with updatedAt := x },
    .of "first_seen_batch" str? fun x s => { s with firstSeen := x },
    .of "last_seen_batch" str? fun x s => { s with lastSeen := x }] ++
  SliceContent.fields.map (·.within Slice.content fun x s => { s with content := x })

def ofJson? (v : Json) : Option Slice :=
  record? fields
    { id := 0, batchId := ""
      content := { fileId := 0, chunkId := "", handlerName := "", handlerVersion := "" }
      createdAt := Instant.epoch, updatedAt := Instant.epoch, firstSeen := "", lastSeen := "" } v

def toJson (s : Slice) : Json := .obj [
  ("id", .int s.id),
  ("batch_id", .str s.batchId),
  ("file_id", .int s.content.fileId),
  ("symbol_id", .optInt s.content.symbolId),
  ("parent_symbol_id", .optInt s.content.parentSymbolId),
  ("chunk_id", .str s.content.chunkId),
  ("handler_name", .str s.content.handlerName),
  ("handler_version", .str s.content.handlerVersion),
  ("part_index", .int s.content.partIndex),
  ("part_total", .int s.content.partTotal),
  ("start_line", .optInt s.content.startLine),
  ("end_line", .optInt s.content.endLine),
  ("start_byte", .optInt s.content.startByte),
  ("end_byte", .optInt s.content.endByte),
  ("token_count", .int s.content.tokenCount),
  ("content_hash", .str s.content.hash),
  ("content_norm_hash", .optStr s.content.normHash),
  ("content_text", .str s.content.text),
  ("overflow_is_truncated", .bool s.content.isTruncated),
  ("overflow_reason", .optStr s.content.overflowReason),
  ("metadata_json", .optStr s.content.metadataJson),
  ("created_at", s.createdAt.toJson),
  ("updated_at", s.updatedAt.toJson),
  ("first_seen_batch", .str s.firstSeen),
  ("last_seen_batch", .str s.lastSeen)]

end Slice

end SourceSlices
