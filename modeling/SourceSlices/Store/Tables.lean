import SourceSlices.Error
import SourceSlices.Store.Rows

/-!
The store: four tables whose rows refer to each other. Row numbers are never given twice, and rows
stand in the order of their numbers.
-/
namespace SourceSlices

structure Store where
  batches : List Batch := []
  files : List FileRow := []
  symbols : List SymbolRow := []
  slices : List Slice := []
  /-- Largest numbers given so far. -/
  lastFile : Int := 0
  lastSymbol : Int := 0
  lastSlice : Int := 0
  deriving DecidableEq

namespace Store

def empty : Store := {}

instance : Inhabited Store := ⟨empty⟩

/-! ### Batches -/

def batch? (s : Store) (id : String) : Option Batch := s.batches.find? (·.id = id)

def hasBatch (s : Store) (id : String) : Bool := s.batches.any (·.id = id)

/-- Records a batch. One that is there already only gets the details that are given. -/
def ensureBatch (s : Store) (b : Batch) : Store :=
  if s.hasBatch b.id then
    { s with batches := s.batches.map fun old =>
        if old.id = b.id then { old with ref := b.ref.or old.ref, notes := b.notes.or old.notes } else old }
  else { s with batches := s.batches ++ [b] }

def isUsed (s : Store) (batch : String) : Bool :=
  s.files.any (·.info.batchId = batch) || s.slices.any (·.batchId = batch)

/-- Removes a batch that no file and no slice names, and tells whether it was there. -/
def dropBatch (s : Store) (batch : String) : Store × Bool :=
  if s.hasBatch batch && !s.isUsed batch then
    ({ s with batches := s.batches.filter (·.id ≠ batch) }, true)
  else (s, false)

/-! ### Files -/

def file? (s : Store) (path : String) : Option FileRow := s.files.find? (·.info.path = path)

def fileId? (s : Store) (path : String) : Option Int := (s.file? path).map (·.id)

/-- Files in the order of their paths. -/
def fileList (s : Store) : List FileRow := s.files.mergeSort fun a b => a.info.path ≤ b.info.path

/-- Records a file under the number its path has, or under a new one. -/
def upsertFile (s : Store) (f : FileInfo) : Except StoreFault (Store × Int) :=
  if s.hasBatch f.batchId then
    let next := s.lastFile + 1
    match s.fileId? f.path with
    | some id =>
      .ok ({ s with
        files := s.files.map fun row => if row.info.path = f.path then { row with info := f } else row
        lastFile := next }, id)
    | none => .ok ({ s with files := s.files ++ [⟨next, f⟩], lastFile := next }, next)
  else .error .foreignKey

/-! ### Symbols -/

def symbol? (s : Store) (fileId : Int) (path : String) : Option SymbolRow :=
  s.symbols.find? fun r => r.fileId = fileId ∧ r.path = path

def symbolsOf (s : Store) (fileId : Int) : List SymbolRow := s.symbols.filter (·.fileId = fileId)

/-- Adds a symbol without a parent under a new number. -/
def insertSymbol (s : Store) (r : SymbolRow) : Store × Int :=
  let id := s.lastSymbol + 1
  ({ s with symbols := s.symbols ++ [{ r with id, parentId := none }], lastSymbol := id }, id)

def changeSymbol (s : Store) (id : Int) (change : SymbolRow → SymbolRow) : Store :=
  { s with symbols := s.symbols.map fun r => if r.id = id then change r else r }

/-! ### Slices -/

/-- Whether a slice is the newest row of its slot among those seen in a batch. -/
def isNewestIn (s : Store) (batch : String) (c : Slice) : Bool :=
  s.slices.all fun v => !(v.isSeenIn batch && v.slot = c.slot) || v.id ≤ c.id

/-- Rows that a batch shows: written or confirmed by it, the newest of each slot. -/
def visibleIn (s : Store) (batch : String) : List Slice :=
  s.slices.filter fun c => c.isSeenIn batch && s.isNewestIn batch c

/-- Order by chunk and part. -/
def byChunk (a b : Slice) : Bool :=
  a.content.chunkId < b.content.chunkId ||
    (a.content.chunkId = b.content.chunkId && a.content.partIndex ≤ b.content.partIndex)

def fileSlices (s : Store) (batch : String) (fileId : Int) : List Slice :=
  ((s.visibleIn batch).filter (·.content.fileId = fileId)).mergeSort byChunk

def chunkSlices (s : Store) (batch chunkId : String) : List Slice :=
  ((s.visibleIn batch).filter (·.content.chunkId = chunkId)).mergeSort fun a b =>
    a.content.fileId < b.content.fileId ||
      (a.content.fileId = b.content.fileId && a.content.partIndex ≤ b.content.partIndex)

/-- All versions of all chunks of a file, for each slot in the order of writing. -/
def history (s : Store) (fileId : Int) : List Slice :=
  (s.slices.filter (·.content.fileId = fileId)).mergeSort byChunk

/-- All versions of all parts of one chunk in the order of writing. -/
def chunkHistory (s : Store) (fileId : Int) (chunkId : String) : List Slice :=
  s.slices.filter fun r => r.content.fileId = fileId ∧ r.content.chunkId = chunkId

def summaries (s : Store) (batch : String) : List SliceSummary :=
  ((s.visibleIn batch).mergeSort fun a b =>
    a.content.fileId < b.content.fileId ||
      (a.content.fileId = b.content.fileId && byChunk a b)).map Slice.summary

/-- Whether all rows that a slice refers to are there. -/
def admits (s : Store) (c : Slice) : Bool :=
  let isSymbol (id : Option Int) : Bool := id.all fun i => s.symbols.any (·.id = i)
  s.hasBatch c.batchId && s.files.any (·.id = c.content.fileId) &&
    isSymbol c.content.symbolId && isSymbol c.content.parentSymbolId

/-- Writes a slice into the slot it has in its batch. A row that is there keeps its number, its
first batch and the time of its making. -/
def putSlice (s : Store) (c : Slice) : Except StoreFault Store :=
  if s.admits c then
    let next := s.lastSlice + 1
    let isOld (r : Slice) : Bool := r.batchId = c.batchId && r.slot = c.slot
    if s.slices.any isOld then
      .ok { s with
        slices := s.slices.map fun r =>
          if isOld r then
            { r with content := c.content, updatedAt := c.updatedAt, lastSeen := c.lastSeen }
          else r
        lastSlice := next }
    else .ok { s with slices := s.slices ++ [{ c with id := next }], lastSlice := next }
  else .error .foreignKey

/-- Removes the parts of a chunk from an index on, as far as the batch wrote them. -/
def dropParts (s : Store) (batch : String) (fileId : Int) (chunkId : String) (total : Int) : Store :=
  { s with slices := s.slices.filter fun r =>
      !(r.batchId = batch && r.content.fileId = fileId && r.content.chunkId = chunkId &&
        total ≤ r.content.partIndex) }

/-- Confirms rows for a batch. -/
def confirm (s : Store) (ids : List Int) (batch : String) (now : Instant) : Store :=
  { s with slices := s.slices.map fun r =>
      if ids.contains r.id then { r with lastSeen := batch, updatedAt := now } else r }

/-- Removes the rows that a batch wrote, and tells how many. -/
def deleteSlices (s : Store) (batch : String) : Store × Nat :=
  ({ s with slices := s.slices.filter (·.batchId ≠ batch) },
    (s.slices.filter (·.batchId = batch)).length)

end Store

end SourceSlices
