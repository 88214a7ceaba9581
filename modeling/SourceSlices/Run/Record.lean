
import SourceSlices.Data.SortedMap
import SourceSlices.Health
import SourceSlices.Instant

/-!
The counters of a run, its outcome, and what the manifest keeps of the last one.
-/
namespace SourceSlices

/-! ### Counters -/

structure RunMetrics where
  filesDiscovered : Nat := 0
  filesParsed : Nat := 0
  filesReused : Nat := 0
  filesFailed : Nat := 0
  chunksEmitted : Nat := 0
  chunksReused : Nat := 0
  fallbacks : Nat := 0
  queueDepth : Nat := 0
  /-- Number of files by handler. -/
  handlersInvoked : SortedMap Nat := ∅
  handlerRuntimeSeconds : SortedMap Float := ∅
  lockWaitSeconds : Float := 0.0
  lockContentionEvents : Nat := 0
  deriving Inhabited

namespace RunMetrics

/-- Shorter waits do not count as contention. -/
def contentionEpsilon : Float := 1e-6

/-- Time is never negative. -/
def elapsed (seconds : Float) : Float := if 0.0 < seconds then seconds else 0.0

def countHandler (m : RunMetrics) (handler : String) : RunMetrics :=
  let n := (m.handlersInvoked.find? handler).getD 0
  { m with handlersInvoked := m.handlersInvoked.insert handler (n + 1) }

def addRuntime (m : RunMetrics) (handler : String) (seconds : Float) : RunMetrics :=
  let before := (m.handlerRuntimeSeconds.find? handler).getD 0.0
  { m with
    handlerRuntimeSeconds := m.handlerRuntimeSeconds.insert handler (before + elapsed seconds) }

def addFallback (m : RunMetrics) : RunMetrics := { m with fallbacks := m.fallbacks + 1 }

def addLockWait (m : RunMetrics) (seconds : Float) : RunMetrics :=
  let seconds := elapsed seconds
  { m with
    lockWaitSeconds := m.lockWaitSeconds + seconds
    lockContentionEvents :=
      if contentionEpsilon < seconds then m.lockContentionEvents + 1 else m.lockContentionEvents }

/-- Counts a planned file as failed after all. -/
def failFile (m : RunMetrics) : RunMetrics :=
  { m with filesFailed := m.filesFailed + 1, filesParsed := m.filesParsed - 1 }

/-- One line about a run; `planned` is the number of files it was to read. -/
def summary (m : RunMetrics) (planned : Nat) (hasFailures : Bool) : String :=
  if planned = 0 && !hasFailures && m.chunksEmitted = 0 && m.filesParsed = 0 && m.filesFailed = 0 then
    "no changes"
  else
    let status :=
      if hasFailures || 0 < m.filesFailed then "completed with failures"
      else if planned = 0 then "no changes" else "completed"
    let field (isShown : Bool) (name : String) (n : Nat) : List String :=
      if isShown then [name ++ "=" ++ toString n] else []
    let details := field (0 < m.filesReused) "reused" m.filesReused ++
      field (0 < m.filesFailed) "failed" m.filesFailed ++
      field (0 < m.filesDiscovered && m.filesDiscovered ≠ m.filesParsed) "discovered" m.filesDiscovered
    let files := "files parsed=" ++ toString m.filesParsed ++
      (if details.isEmpty then "" else " (" ++ String.intercalate ", " details ++ ")")
    let chunks := String.intercalate ", " (("chunks inserted=" ++ toString m.chunksEmitted) ::
      (field (0 < m.chunksReused) "reused" m.chunksReused ++
        field (0 < m.fallbacks) "fallbacks" m.fallbacks))
    status ++ ": " ++ files ++ "; " ++ chunks

end RunMetrics

/-! ### Outcomes -/

structure RunRecord where
  batchId : Option String
  startedAt : Instant
  completedAt : Option Instant
  status : HealthStatus
  summary : Option String
  warnings : List String := []
  errors : List String := []
  notes : List String := []
  handlerVersions : SortedMap String := ∅
  metrics : RunMetrics := {}

structure RunState where
  enabled : Bool := true
  lastBatchId : Option String := none
  lastRunStartedAt : Option Instant := none
  lastRunCompletedAt : Option Instant := none
  lastRunStatus : HealthStatus := .unknown
  lastRunSummary : Option String := none
  lastRunWarnings : List String := []
  lastRunErrors : List String := []
  lastRunNotes : List String := []
  handlerVersions : SortedMap String := ∅
  metrics : RunMetrics := {}
  deriving Inhabited

/-- What is told about the health of a source. -/
structure HealthReport where
  name : String
  status : HealthStatus
  summary : Option String
  actions : List String
  lastRefreshAt : Option Instant

namespace RunState

/-- Takes over the outcome of a run. A run without a batch leaves the last batch in place. -/
def apply (s : RunState) (r : RunRecord) : RunState :=
  { s with
    lastBatchId := r.batchId.or s.lastBatchId
    lastRunStartedAt := some r.startedAt
    lastRunCompletedAt := r.completedAt
    lastRunStatus := r.status
    lastRunSummary := r.summary
    lastRunWarnings := r.warnings
    lastRunErrors := r.errors
    lastRunNotes := r.notes
    handlerVersions := r.handlerVersions
    metrics := r.metrics }

def summaryText (s : RunState) : String := s.lastRunSummary.getD "parser healthy"

/-- Health as the last run left it. -/
def report (s : RunState) (name : String) : HealthReport :=
  ⟨name, s.lastRunStatus, some s.summaryText, s.lastRunNotes, s.lastRunCompletedAt⟩

end RunState

end SourceSlices
