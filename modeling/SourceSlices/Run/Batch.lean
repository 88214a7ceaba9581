import SourceSlices.Instant
import SourceSlices.Json.Value
import SourceSlices.Run.Plan
import SourceSlices.Staging

/-!
Writing the results of a plan into the store as one batch. A file that cannot be written leaves no
trace and does not stop the others. The id of a new batch is 128 bits in groups of hexadecimal digits. It
begins with the time, so later ids come after earlier ones.
-/
namespace SourceSlices

structure StagedBatch where
  files : List (PlanEntry × StageOutcome) := []
  /-- Paths that could not be written, with the reason. -/
  failures : List (String × String) := []
  metrics : RunMetrics := {}

namespace StagedBatch

/-- The first reason for which results do not belong to a plan, if there is one. -/
def complaint? (p : RunPlan) : List String → List ReadResult → Option String
  | _, [] => none
  | seen, (e, result) :: rest =>
    if !p.entries.any (·.relative = e.relative) then
      some ("result entry missing from plan: " ++ e.relative)
    else if seen.contains e.relative then some ("duplicate handler result for " ++ e.relative)
    else if Path.key result.file.path ≠ Path.key e.relative then
      some ("handler result path mismatch for " ++ e.relative ++ " (got " ++ result.file.path ++ ")")
    else complaint? p (e.relative :: seen) rest

/-- The time of the last change of a file, as far as the store can hold it. -/
def mtimeOf (t : FileTree) (path : String) : Option Int :=
  (t.modified? path).filter fun n => 0 ≤ n ∧ n ≤ MetaValue.intMax

/-- What has been written so far, with the handler versions known so far. -/
structure Progress where
  store : Store
  versions : SortedMap String
  staged : StagedBatch

/-- A file that a handler could not read, or that could not be written. -/
def Progress.skip (g : Progress) : Progress :=
  { g with staged := { g.staged with metrics := g.staged.metrics.failFile } }

def Progress.fail (g : Progress) (path message : String) : Progress :=
  let g := g.skip
  { g with staged := { g.staged with failures := g.staged.failures ++ [(path, message)] } }

def countOutcome (m : RunMetrics) (o : StageOutcome) : RunMetrics :=
  { m with
    chunksEmitted := m.chunksEmitted + o.chunksInserted
    chunksReused := m.chunksReused + o.chunksReused
    filesReused := if o.symbolsWritten = 0 ∧ o.chunksInserted = 0 then m.filesReused + 1 else m.filesReused }

def Progress.finish (g : Progress) (e : PlanEntry) (store : Store) (o : StageOutcome) : Progress :=
  { g with
    store
    staged := { g.staged with
      files := g.staged.files ++ [(e, o)]
      metrics := countOutcome g.staged.metrics o } }

def Progress.add (t : FileTree) (now : Instant) (batch : String) (g : Progress) (r : ReadResult) :
    Progress :=
  let (e, result) := r
  if !result.errors.isEmpty then g.skip
  else
    let versions :=
      if g.versions.contains e.selection.name then g.versions
      else g.versions.insert e.selection.name e.selection.version
    let g := { g with versions }
    match Staging.stage g.store now
        { batchId := batch, handlerName := e.selection.name, handlerVersion := e.selection.version
          versions, result, fileSha := some e.hash, mtimeNs := mtimeOf t e.path } with
    | .ok (store, o) => g.finish e store o
    | .error fault => g.fail e.relative fault.message

/-- Writes the results of a plan under a batch. -/
def stage (store : Store) (t : FileTree) (now : Instant) (batch : String) (ref : Option String)
    (p : RunPlan) (results : List ReadResult) : Except Error (Store × StagedBatch) :=
  if results.isEmpty then .ok (store, { metrics := p.metrics })
  else
    match complaint? p [] results with
    | some text => .error (.plan text)
    | none =>
      let store := store.ensureBatch { id := batch, ref, generatedAt := now }
      let start : Progress := ⟨store, p.handlerVersions, { metrics := p.metrics }⟩
      let done := results.foldl (Progress.add t now batch) start
      .ok (done.store, done.staged)

end StagedBatch

namespace BatchId

def hexText (width n : Nat) : String :=
  String.ofList ((List.range width).map fun i => Json.hexDigit (n / Nat.pow 16 (width - 1 - i) % 16))

/-- Milliseconds since the first day of 1970. -/
def millis (t : Instant) : Nat := (t.toNanos / 1000000).toNat

/-- The time, the version mark 7, twelve random bits, the variant mark and 62 more random bits. -/
def make (t : Instant) (random : Nat) : String :=
  let time := millis t % 0x1000000000000
  let short := random % 0x1000
  let long := random / 0x1000 % 0x4000000000000000
  hexText 8 (time / 0x10000) ++ "-" ++ hexText 4 (time % 0x10000) ++ "-7" ++ hexText 3 short ++ "-" ++
    hexText 4 (0x8000 + long / 0x1000000000000) ++ "-" ++ hexText 12 (long % 0x1000000000000)

end BatchId

end SourceSlices
