import SourceSlices.Config
import SourceSlices.Manifest
import SourceSlices.Metadata
import SourceSlices.Store.Tables

/-!
The health of a source: judged by its last run, by the slices of its last batch and by how long the
run waited for locks.
-/
namespace SourceSlices

/-- What was found wrong, how severe it is, and what to do about it. -/
structure Findings where
  severity : Option HealthStatus := none
  /-- Each issue once, in the order of finding. -/
  issues : List String := []
  actions : List String := []

namespace Findings

/-- The more severe of two; anything is more severe than nothing. -/
def worst : Option HealthStatus → HealthStatus → HealthStatus
  | none, s => s
  | some a, s => a.worse s

def raise (f : Findings) (status : HealthStatus) (issue : String) : Findings :=
  { f with
    severity := some (worst f.severity status)
    issues := if f.issues.contains issue then f.issues else f.issues ++ [issue] }

def advise (f : Findings) (action : String) : Findings := { f with actions := action :: f.actions }

/-- The actions in alphabetical order, each once. -/
def actionList (f : Findings) : List String := f.actions.eraseDups.mergeSort fun a b => a ≤ b

/-- The report of a source with these findings. -/
def report (f : Findings) (name : String) (state : RunState) : HealthReport where
  name := name
  status := match f.severity with
    | some s => s.worse state.lastRunStatus
    | none => state.lastRunStatus
  summary := some (if f.issues.isEmpty then state.summaryText else String.intercalate ", " f.issues)
  actions := f.actionList
  lastRefreshAt := state.lastRunCompletedAt

end Findings

namespace Health

def rerunAction (source : String) : String :=
  "Run \x60chunkloom parse " ++ source ++ "\x60 to rebuild parser data."

def concurrencyAction : String :=
  "Inspect parser lock telemetry and lower \x60max_concurrency\x60 or stagger runs."

/-! ### Slices of a batch -/

def about (chunkId problem : String) : String := "chunk '" ++ chunkId ++ "' " ++ problem

/-- The number of parts that the first row of a chunk records. -/
def recordedTotal (rows : List SliceSummary) (chunkId : String) : Int :=
  ((rows.find? (·.chunkId = chunkId)).map (·.partTotal)).getD 0

/-- Metadata of a row; none if nothing is written. -/
def metadataOf (row : SliceSummary) : Option (Except Json.Fault Metadata) :=
  (row.metadataJson.filter fun raw => !Text.isAllBlank raw.toList).map Metadata.read

def rowIssues (rows : List SliceSummary) (row : SliceSummary) : List String :=
  (if row.partTotal = recordedTotal rows row.chunkId then []
    else [about row.chunkId "has inconsistent part totals"]) ++
  match metadataOf row with
  | some (.error _) => [about row.chunkId "metadata not valid JSON"]
  | _ => []

/-- The different chunks in alphabetical order. -/
def chunkIds (rows : List SliceSummary) : List String :=
  (rows.map (·.chunkId)).eraseDups.mergeSort fun a b => a ≤ b

/-- Whether the parts of a chunk are numbered from zero up to its recorded total. -/
def isComplete (rows : List SliceSummary) (chunkId : String) : Bool :=
  let indices := ((rows.filter (·.chunkId = chunkId)).map (·.partIndex)).mergeSort fun a b => a ≤ b
  (indices.length : Int) = max 0 (recordedTotal rows chunkId) &&
    indices = (List.range indices.length).map Int.ofNat

def gapIssues (rows : List SliceSummary) : List String :=
  (chunkIds rows).filterMap fun id =>
    if isComplete rows id then none else some (about id "part indices not contiguous")

/-- The chunk that a row says it was made for. -/
def parentOf (row : SliceSummary) : Option String :=
  match metadataOf row with
  | some (.ok m) => (m.str? "delegate_parent_chunk").filter (· ≠ "")
  | _ => none

def parentIssues (rows : List SliceSummary) : List String :=
  rows.filterMap fun row =>
    match parentOf row with
    | some parent =>
      if rows.any (·.chunkId = parent) then none
      else some (about row.chunkId ("references missing parent '" ++ parent ++ "'"))
    | none => none

/-- All that is wrong with the slices of a batch. -/
def sliceIssues (rows : List SliceSummary) : List String :=
  rows.flatMap (rowIssues rows) ++ gapIssues rows ++ parentIssues rows

def assessSlices (rows : List SliceSummary) (f : Findings) : Findings :=
  (sliceIssues rows).foldl (fun f issue => f.raise .error issue) f

/-! ### Waiting for locks -/

def waitText (kind : String) (wait threshold : Float) : String :=
  "parser lock waits accumulated " ++ Decimal.twoPlaces wait ++ "s (" ++ kind ++ " threshold " ++
    Decimal.twoPlaces threshold ++ "s)"

def assessWait (m : RunMetrics) (h : HealthConfig) (f : Findings) : Findings :=
  let wait := m.lockWaitSeconds
  if h.lockWaitErrorSeconds ≤ wait then f.raise .error (waitText "error" wait h.lockWaitErrorSeconds)
  else if h.lockWaitWarningSeconds ≤ wait then
    f.raise .degraded (waitText "warning" wait h.lockWaitWarningSeconds)
  else f

def contentionText (kind : String) (events threshold : Nat) : String :=
  "parser recorded " ++ toString events ++ " lock contention events (" ++ kind ++ " threshold " ++
    toString threshold ++ ")"

def assessContention (m : RunMetrics) (h : HealthConfig) (f : Findings) : Findings :=
  let events := m.lockContentionEvents
  if h.lockContentionError ≤ events then
    f.raise .error (contentionText "error" events h.lockContentionError)
  else if h.lockContentionWarning ≤ events then
    f.raise .degraded (contentionText "warning" events h.lockContentionWarning)
  else f

/-- Advice is given if the locks make the findings more severe. -/
def assessLocks (m : RunMetrics) (h : HealthConfig) (f : Findings) : Findings :=
  let after := assessContention m h (assessWait m h f)
  if after.severity = f.severity then after else after.advise concurrencyAction

/-! ### Reports -/

def failure (name summary : String) (refreshed : Option Instant) : HealthReport :=
  ⟨name, .error, some summary, [rerunAction name], refreshed⟩

/-- The report of a source whose state and last batch are known. -/
def evaluateBatch (name : String) (h : HealthConfig) (state : RunState) (f : Findings)
    (rows : List SliceSummary) : HealthReport :=
  let checked := assessSlices rows f
  let checked := if f.issues.length < checked.issues.length then checked.advise (rerunAction name) else checked
  (assessLocks state.metrics h checked).report name state

/-- The report of a source, from its state in the manifest and from the store. -/
def evaluateState (name : String) (h : HealthConfig) (store : Option Store) (entry : Option RunState) :
    HealthReport :=
  let state := entry.getD {}
  let f : Findings := { actions := state.lastRunNotes }
  let f := if entry.isSome then f
    else (f.raise .unknown "parser manifest entry missing").advise (rerunAction name)
  match state.lastBatchId with
  | none =>
    ((f.raise .unknown "parser has not completed a batch yet").advise (rerunAction name)).report name state
  | some batch =>
    let failed (summary : String) : HealthReport := failure name summary state.lastRunCompletedAt
    match store with
    | none => failed "Parser database missing while manifest references a batch."
    | some store =>
      if !store.hasBatch batch then failed "Manifest last_batch_id missing from batches table."
      else
        match store.summaries batch with
        | [] => failed
            "Chunk slices missing for manifest last_batch_id; rerun the parser to repopulate data."
        | rows => evaluateBatch name h state f rows

/-- The report of a source, from the manifest file and from the store. -/
def evaluate (name : String) (h : HealthConfig) (manifest : Except Error Manifest)
    (store : Option Store) : HealthReport :=
  match manifest with
  | .ok m => evaluateState name h store (m.state? name)
  | .error e => failure name ("Failed to read manifest: " ++ e.message) none

/-- What is told when nothing is checked. -/
def disabledReport : HealthReport where
  name := "parser-module"
  status := .unknown
  summary := some "Parser module disabled via configuration."
  actions := ["Set \x60enabled = true\x60 in the parser configuration to enable checks."]
  lastRefreshAt := none

/-- One report for each source. -/
def check (c : Config) (manifest : Except Error Manifest) (store : Option Store) : List HealthReport :=
  if c.enabled then c.sources.keys.map fun name => evaluate name c.health manifest store
  else [disabledReport]

end Health

end SourceSlices
