import SourceSlices.Chunk.Groups
import SourceSlices.Data.Extent
import SourceSlices.Hashing
import SourceSlices.Store.Tables

/-!
Writing the result of one file into the store under a batch. Symbols and chunks that have not
changed are only confirmed; of a chunk that has changed a new version is written. Either everything
is written or nothing.
-/
namespace SourceSlices

structure StageRequest where
  batchId : String
  /-- The handler that read the file. -/
  handlerName : String
  handlerVersion : String
  /-- Versions of all handlers that may have read parts of it. -/
  versions : SortedMap String
  result : HandlerResult
  /-- Recorded in place of the checksum of the file. -/
  fileSha : Option String := none
  mtimeNs : Option Int := none

structure StageOutcome where
  fileId : Int
  symbolsWritten : Nat := 0
  symbolsReused : Nat := 0
  chunksInserted : Nat := 0
  chunksReused : Nat := 0
  deriving DecidableEq

namespace Staging

/-- Row numbers by the ids that symbols have in their file. -/
abbrev SymbolIds := List (String × Int)

/-- A count as a number of 64 bits. -/
def count (n : Nat) : Int := min (n : Int) MetaValue.intMax

def versionOf (q : StageRequest) (handler : String) : Except Error String :=
  match q.versions.find? handler with
  | some v => .ok v
  | none => if handler = q.handlerName then .ok q.handlerVersion else .error (.missingHandlerVersion handler)

/-- The handler that answers for a chunk: its delegate, the one it records, or that of the file. -/
def chunkHandler (q : StageRequest) (c : Chunk) : String :=
  c.delegate.getD ((c.metadata.str? "handler").getD q.handlerName)

/-- The parts of chunks that belong to a symbol. -/
def owned (q : StageRequest) (s : Symbol) : List Chunk :=
  q.result.chunks.filter fun c => c.parentSymbolId = some s.symbolId

/-- The text that stands for a symbol: that of its chunks, or its own description. -/
def symbolText (q : StageRequest) (s : Symbol) : String :=
  match owned q s with
  | [] => s.kind ++ "\n" ++ s.name ++ "\n" ++ s.docstring.getD ""
  | chunks => String.join (chunks.map (·.text))

/-- What the result says of a symbol. -/
def symbolContent (q : StageRequest) (s : Symbol) : Except Error SymbolContent := do
  let chunks := owned q s
  let text := symbolText q s
  let version ← versionOf q ((s.metadata.str? "handler").getD q.handlerName)
  let salts := [s.symbolId, s.kind]
  .ok {
    kind := s.kind
    startLine := (least? (chunks.filterMap (·.metadata.int? "start_line"))).or (s.metadata.int? "start_line")
    endLine := (greatest? (chunks.filterMap (·.metadata.int? "end_line"))).or (s.metadata.int? "end_line")
    sha := Hashing.hashText text version salts
    normSha := some (Hashing.hashText (Hashing.normalizeText text) version salts)
    docstring := s.docstring
    tokens := count (chunks.foldl (fun n c => n + c.tokenCount) 0) }

/-- Writes one symbol, or confirms it if it has not changed. -/
def writeSymbol (q : StageRequest) (fileId : Int) (store : Store) (o : StageOutcome) (s : Symbol) :
    Except Error (Store × StageOutcome × Int) := do
  let content ← symbolContent q s
  match store.symbol? fileId s.symbolId with
  | some old =>
    if old.content = content then
      .ok (store.changeSymbol old.id fun r => { r with lastSeen := q.batchId },
        { o with symbolsReused := o.symbolsReused + 1 }, old.id)
    else
      .ok (store.changeSymbol old.id fun r => { r with content, lastSeen := q.batchId },
        { o with symbolsWritten := o.symbolsWritten + 1 }, old.id)
  | none =>
    let (store, id) := store.insertSymbol
      { id := 0, fileId, path := s.symbolId, content, firstSeen := q.batchId, lastSeen := q.batchId }
    .ok (store, { o with symbolsWritten := o.symbolsWritten + 1 }, id)

def writeSymbols (q : StageRequest) (fileId : Int) :
    List Symbol → Store → StageOutcome → Except Error (Store × StageOutcome × SymbolIds)
  | [], store, o => .ok (store, o, [])
  | s :: rest, store, o => do
    let (store, o, id) ← writeSymbol q fileId store o s
    let (store, o, ids) ← writeSymbols q fileId rest store o
    .ok (store, o, (s.symbolId, id) :: ids)

/-- The row of a symbol of the result, if one is named. -/
def rowOf (ids : SymbolIds) : Option String → Except Error (Option Int)
  | none => .ok none
  | some key =>
    match ids.find? (·.1 = key) with
    | some e => .ok (some e.2)
    | none => .error (.missingSymbol key)

/-- Links symbols to their parents. -/
def linkParents (ids : SymbolIds) : List Symbol → Store → Except Error Store
  | [], store => .ok store
  | s :: rest, store => do
    let parentId ← rowOf ids s.parentId
    match ids.find? (·.1 = s.symbolId) with
    | some e => linkParents ids rest (store.changeSymbol e.2 fun r => { r with parentId })
    | none => linkParents ids rest store

/-- What the result says of one part of a chunk. -/
def sliceContent (q : StageRequest) (fileId : Int) (ids : SymbolIds) (c : Chunk) :
    Except Error SliceContent := do
  let handler := chunkHandler q c
  let version ← versionOf q handler
  let symbolId ← rowOf ids c.parentSymbolId
  let parentSymbolId ← rowOf ids (c.metadata.str? "delegate_parent_symbol")
  let salts := [c.chunkId, handler]
  .ok {
    fileId, symbolId, parentSymbolId
    chunkId := c.chunkId
    handlerName := handler
    handlerVersion := version
    partIndex := count c.partIndex
    partTotal := (c.metadata.int? "part_total").getD 1
    startLine := c.metadata.int? "start_line"
    endLine := c.metadata.int? "end_line"
    startByte := some (count c.startOffset)
    endByte := some (count c.endOffset)
    tokenCount := count c.tokenCount
    hash := Hashing.hashText c.text version salts
    normHash := some (Hashing.hashText (Hashing.normalizeText c.text) version salts)
    text := c.text
    isTruncated := c.metadata.flag "overflow" || c.metadata.flag "overflow_is_truncated"
    overflowReason := c.metadata.str? "overflow_reason"
    metadataJson := if c.metadata.isEmpty then none else some c.metadata.canonical }

/-- The batch that first wrote any part of a chunk, among all its versions. -/
def firstSeen (q : StageRequest) (history : List Slice) : String :=
  match history.foldl (fun (best : Option Slice) r =>
      match best with
      | some b => if r.id < b.id then some r else some b
      | none => some r) none with
  | some r => r.firstSeen
  | none => q.batchId

/-- The newest version of a part. -/
def newest? (history : List Slice) (index : Nat) : Option Slice :=
  (history.filter (·.content.partIndex = (index : Int))).getLast?

/-- The newest versions of the first parts, if there are so many. -/
def newest (history : List Slice) (total : Nat) : Option (List Slice) :=
  (List.range total).mapM (newest? history)

/-- The rows that hold exactly these parts already. -/
def unchanged? (history : List Slice) (contents : List SliceContent) : Option (List Slice) :=
  (newest history contents.length).filter fun rows => rows.map (·.content) = contents

def putAll (store : Store) : List Slice → Except Error Store
  | [] => .ok store
  | c :: rest => do
    let store ← (store.putSlice c).mapError .database
    putAll store rest

/-- Writes one chunk, or confirms it if it has not changed. -/
def writeChunk (q : StageRequest) (now : Instant) (fileId : Int) (ids : SymbolIds) (store : Store)
    (o : StageOutcome) (g : ChunkGroup) : Except Error (Store × StageOutcome) := do
  let history := store.chunkHistory fileId g.chunkId
  let contents ← g.parts.mapM (sliceContent q fileId ids)
  match unchanged? history contents with
  | some rows =>
    .ok (store.confirm (rows.map (·.id)) q.batchId now,
      { o with chunksReused := o.chunksReused + contents.length })
  | none => do
    let first := firstSeen q history
    let store := store.dropParts q.batchId fileId g.chunkId contents.length
    let store ← putAll store (contents.map fun content =>
      ⟨0, q.batchId, content, now, now, first, q.batchId⟩)
    .ok (store, { o with chunksInserted := o.chunksInserted + contents.length })

def writeChunks (q : StageRequest) (now : Instant) (fileId : Int) (ids : SymbolIds) :
    List ChunkGroup → Store → StageOutcome → Except Error (Store × StageOutcome)
  | [], store, o => .ok (store, o)
  | g :: rest, store, o => do
    let (store, o) ← writeChunk q now fileId ids store o g
    writeChunks q now fileId ids rest store o

/-- The path under which a file is recorded. -/
def repoPath (q : StageRequest) : String :=
  String.ofList (Text.replaceChar '\\' '/' q.result.file.path.toList)

/-- Writes the result of one file. -/
def stage (store : Store) (now : Instant) (q : StageRequest) : Except Error (Store × StageOutcome) := do
  let groups ← ChunkGroup.ofChunks q.result.chunks
  let file := q.result.file
  let (store, fileId) ← (store.upsertFile {
    batchId := q.batchId
    path := repoPath q
    lang := file.language
    sha := q.fileSha.getD file.checksum
    mtimeNs := q.mtimeNs
    sizeBytes := file.metadata.int? "size_bytes" }).mapError .database
  let (store, o, ids) ← writeSymbols q fileId q.result.symbols store { fileId }
  let store ← linkParents ids q.result.symbols store
  writeChunks q now fileId ids groups store o

end Staging

end SourceSlices
