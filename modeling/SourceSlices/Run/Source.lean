import SourceSlices.Health.Assessment
import SourceSlices.Run.Batch

/-!
A whole run over a source: it is planned, read, written into the store and recorded in the manifest.
-/
namespace SourceSlices

/-- What runs change: the files and the store. -/
structure Workspace where
  tree : FileTree := {}
  store : Store := {}
  deriving Inhabited

/-- What is told of a run beyond its plan. -/
structure RunDetails where
  startedAt : Option Instant := none
  status : Option HealthStatus := none
  summary : Option String := none
  warnings : List String := []
  errors : List String := []
  notes : List String := []
  metrics : Option RunMetrics := none

structure RunOutcome where
  source : String
  batchId : Option String
  record : RunRecord
  state : RunState
  failedFiles : List String

namespace RunRecord

/-- Errors are worse than warnings, and warnings worse than nothing. -/
def statusOf (warnings errors : List String) : HealthStatus :=
  if !errors.isEmpty then .error else if !warnings.isEmpty then .degraded else .ok

/-- The record of a run with its messages after those of the plan. -/
def ofPlan (p : RunPlan) (batch : Option String) (d : RunDetails) (now : Instant) : RunRecord :=
  let warnings := distinctMessages (p.warnings ++ d.warnings)
  let errors := distinctMessages (p.errors ++ d.errors)
  { batchId := batch
    startedAt := d.startedAt.getD now
    completedAt := some now
    status := d.status.getD (statusOf warnings errors)
    summary := d.summary
    warnings, errors
    notes := d.notes
    handlerVersions := p.handlerVersions
    metrics := d.metrics.getD p.metrics }

end RunRecord

namespace Runner

/-- Records a run in the manifest file. -/
def recordRun (r : Runner) (t : FileTree) (now : Instant) (source : String) (record : RunRecord) :
    Except Error (FileTree × RunState) :=
  Manifest.record t r.manifestPath now source fun s => { s.apply record with enabled := r.config.enabled }

def loadState (r : Runner) (t : FileTree) (source : String) : Except Error RunState := do
  let m ← Manifest.load t r.manifestPath
  .ok ((m.state? source).getD {})

/-- Health as the manifest has it, without a look into the store. -/
def healthReport (r : Runner) (t : FileTree) (source : String) : Except Error HealthReport := do
  let state ← r.loadState t source
  .ok (state.report source)

def checkHealth (r : Runner) (t : FileTree) (store : Option Store) : List HealthReport :=
  Health.check r.config (Manifest.load t r.manifestPath) store

/-! ### Runs -/

def shown (entry : PlanEntry) (message : String) : String := entry.relative ++ ": " ++ message

def warningsOf (results : List ReadResult) : List String :=
  results.flatMap fun (e, result) => result.warnings.map (shown e)

def errorsOf (results : List ReadResult) : List String :=
  results.flatMap fun (e, result) => result.errors.map (shown e)

/-- Paths of the files that a handler could not read. -/
def unreadFiles (results : List ReadResult) : List String :=
  (results.filter fun (_, result) => !result.errors.isEmpty).map fun (e, _) => e.relative

/-- First characters of the id of a batch, without dashes. -/
def shortRef (batch : String) : String := String.ofList ((batch.toList.filter (· ≠ '-')).take 12)

/-- What the attempt to write a run into the store comes to. -/
structure Written where
  store : Store
  /-- The batch, if one was written. -/
  batchId : Option String := none
  errors : List String := []
  failedFiles : List String := []
  metrics : RunMetrics

/-- Writes the results, unless no file could be read. -/
def write (w : Workspace) (now : Instant) (batch : String) (p : RunPlan) (results : List ReadResult) :
    Written :=
  let unread := (unreadFiles results).length
  if results.all fun (_, result) => !result.errors.isEmpty then
    { store := w.store
      metrics := { p.metrics with
        filesFailed := p.metrics.filesFailed + unread
        filesParsed := p.metrics.filesParsed - unread } }
  else
    match StagedBatch.stage w.store w.tree now batch (some (shortRef batch)) p results with
    | .ok (store, staged) =>
      { store, batchId := some batch
        errors := staged.failures.map fun (path, fault) => path ++ ": failed to stage: " ++ fault
        failedFiles := staged.failures.map (·.1)
        metrics := staged.metrics }
    | .error e =>
      { store := w.store, errors := ["Failed to stage parser batch: " ++ e.message], metrics := p.metrics }

/-- Runs over the files of a source. A new batch has the given id, or else the fresh one. -/
def run (r : Runner) (w : Workspace) (now : Instant) (fresh source : String) (scope : List String)
    (batch : Option String) : Workspace × Except Error RunOutcome :=
  match r.plan w.tree source scope with
  | .error e => (w, .error e)
  | .ok p =>
    let results := r.readPlan w.tree p
    let p := timed p
    let written := write w now (batch.getD fresh) p results
    let errors := errorsOf results ++ written.errors
    let hasFailures := !p.errors.isEmpty || !errors.isEmpty
    let record := RunRecord.ofPlan p written.batchId
      { startedAt := some now
        summary := some (written.metrics.summary p.entries.length hasFailures)
        warnings := warningsOf results
        errors
        metrics := some written.metrics } now
    let w := { w with store := written.store }
    match r.recordRun w.tree now source record with
    | .error e => (w, .error e)
    | .ok (tree, state) =>
      ({ w with tree }, .ok {
        source, batchId := written.batchId, record, state
        failedFiles := unreadFiles results ++ written.failedFiles })

/-- Removes the slices that a batch wrote, and the batch itself if nothing names it any more. -/
def deleteBatch (r : Runner) (store : Store) (source batch : String) : Except Error (Store × Nat) := do
  let _ ← r.sourceRoot source
  let (store, removed) := store.deleteSlices batch
  .ok ((store.dropBatch batch).1, removed)

end Runner

end SourceSlices
