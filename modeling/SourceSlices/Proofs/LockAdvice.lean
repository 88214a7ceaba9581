import SourceSlices.Health.Assessment
import SourceSlices.Proofs.MetadataKeys

/-!
The advice of a health report. What is wrong with the slices of a batch is counted, and any issue
brings the advice to run again. What is wrong with the locks shows only in the severity, so its advice
is lost where the slices have made the findings as severe as they can be.
-/
namespace SourceSlices

namespace HealthStatus

/-- The most severe of a list. -/
def Worst (s : HealthStatus) (all : List HealthStatus) : Prop := s ∈ all ∧ ∀ t ∈ all, ¬ s < t

instance (s : HealthStatus) (all : List HealthStatus) : Decidable (Worst s all) :=
  inferInstanceAs (Decidable (_ ∧ _))

variable {s t u : HealthStatus} {all : List HealthStatus}

theorem lt_def : s < t ↔ s.rank < t.rank := Iff.rfl

theorem not_error_lt (s : HealthStatus) : ¬ .error < s := by
  cases s <;> decide

theorem worse_eq (s t : HealthStatus) : s.worse t = s ∨ s.worse t = t := by
  unfold worse
  split
  · exact Or.inr rfl
  · exact Or.inl rfl

theorem worse_lt_iff : s.worse t < u ↔ s < u ∧ t < u := by
  unfold worse
  split
  · rename_i less
    simp only [lt_def] at *
    omega
  · rename_i notLess
    simp only [lt_def] at *
    omega

theorem error_worse (s : HealthStatus) : HealthStatus.error.worse s = .error := by
  unfold worse
  rw [if_neg (not_error_lt s)]

theorem worst_singleton (s : HealthStatus) : Worst s [s] := by
  constructor
  · exact List.mem_singleton_self s
  · intro t mem
    rw [List.mem_singleton.1 mem]
    exact Nat.lt_irrefl s.rank

theorem Worst.snoc (worst : Worst s all) (t : HealthStatus) : Worst (s.worse t) (all ++ [t]) := by
  constructor
  · obtain same | same := worse_eq s t
    · rw [same]
      exact List.mem_append_left _ worst.1
    · rw [same]
      exact List.mem_append_right _ (List.mem_singleton_self t)
  · intro u mem less
    rw [worse_lt_iff] at less
    obtain old | new := List.mem_append.1 mem
    · exact worst.2 u old less.1
    · rw [List.mem_singleton.1 new] at less
      exact Nat.lt_irrefl t.rank less.2

theorem Worst.congr {all' : List HealthStatus} (worst : Worst s all) (same : ∀ t, t ∈ all ↔ t ∈ all') :
    Worst s all' := by
  constructor
  · exact (same s).1 worst.1
  · intro t mem
    exact worst.2 t ((same t).2 mem)

theorem Worst.eq_error (worst : Worst s all) (mem : .error ∈ all) : s = .error := by
  have top := worst.2 _ mem
  cases s
  case error => rfl
  all_goals exact absurd (by decide) top

end HealthStatus

namespace Findings

open HealthStatus

variable {f : Findings} {found : List (HealthStatus × String)} {all : List HealthStatus}

/-- Raises issues one after the other. -/
def raiseAll (f : Findings) (found : List (HealthStatus × String)) : Findings :=
  found.foldl (fun f x => f.raise x.1 x.2) f

@[simp] theorem raiseAll_nil (f : Findings) : f.raiseAll [] = f := rfl

@[simp] theorem raiseAll_cons (f : Findings) (x : HealthStatus × String) :
    f.raiseAll (x :: found) = (f.raise x.1 x.2).raiseAll found := rfl

theorem raiseAll_append (f : Findings) (before after : List (HealthStatus × String)) :
    f.raiseAll (before ++ after) = (f.raiseAll before).raiseAll after := by
  unfold raiseAll
  exact List.foldl_append

theorem actions_raiseAll (f : Findings) (found : List (HealthStatus × String)) :
    (f.raiseAll found).actions = f.actions := by
  induction found generalizing f with
  | nil => rfl
  | cons x rest ih =>
    rw [raiseAll_cons, ih]
    rfl

/-- Issues are listed in the order in which they are raised, each at its first place. -/
theorem issues_raiseAll {old : List String} (listed : f.issues = old.eraseDups) :
    (f.raiseAll found).issues = (old ++ found.map Prod.snd).eraseDups := by
  induction found generalizing f old with
  | nil =>
    rw [List.map_nil, List.append_nil]
    exact listed
  | cons x rest ih =>
    have next : (f.raise x.1 x.2).issues = (old ++ [x.2]).eraseDups := by
      rw [List.eraseDups_append, ← listed]
      by_cases known : x.2 ∈ old
      · have shown : x.2 ∈ f.issues := by rwa [listed, List.mem_eraseDups]
        simp [raise, shown, List.removeAll, known]
      · have new : x.2 ∉ f.issues := by rwa [listed, List.mem_eraseDups]
        simp [raise, new, List.removeAll, known, List.eraseDups_cons]
    rw [raiseAll_cons, ih next, List.append_assoc, List.map_cons, List.singleton_append]

/-- The severity of findings is that of the worst one, if there is any. -/
def Weighs (f : Findings) (all : List HealthStatus) : Prop :=
  match f.severity with
  | none => all = []
  | some s => Worst s all

theorem Weighs.raise (weighs : f.Weighs all) (s : HealthStatus) (issue : String) :
    (f.raise s issue).Weighs (all ++ [s]) := by
  unfold Weighs at weighs
  change Worst (worst f.severity s) (all ++ [s])
  cases severity : f.severity with
  | none =>
    simp only [severity] at weighs
    rw [weighs]
    exact worst_singleton s
  | some old =>
    simp only [severity] at weighs
    exact weighs.snoc s

theorem Weighs.raiseAll (weighs : f.Weighs all) (found : List (HealthStatus × String)) :
    (f.raiseAll found).Weighs (all ++ found.map Prod.fst) := by
  induction found generalizing f all with
  | nil =>
    rw [List.map_nil, List.append_nil]
    exact weighs
  | cons x rest ih =>
    have after := ih (weighs.raise x.1 x.2)
    rwa [List.append_assoc] at after

theorem severity_raiseAll_error (error : f.severity = some .error)
    (found : List (HealthStatus × String)) : (f.raiseAll found).severity = some .error := by
  induction found generalizing f with
  | nil => exact error
  | cons x rest ih =>
    apply ih
    change some (worst f.severity x.1) = some .error
    rw [error]
    exact congrArg some (error_worse x.1)

/-- Findings that consist of issues, in this order. -/
structure Holds (f : Findings) (found : List (HealthStatus × String)) : Prop where
  listed : f.issues = (found.map Prod.snd).eraseDups
  weighs : f.Weighs (found.map Prod.fst)

theorem holds_noted (actions : List String) : ({ actions := actions } : Findings).Holds [] :=
  ⟨rfl, rfl⟩

theorem Holds.raiseAll (holds : f.Holds found) (more : List (HealthStatus × String)) :
    (f.raiseAll more).Holds (found ++ more) := by
  constructor
  · rw [List.map_append]
    exact issues_raiseAll holds.listed
  · rw [List.map_append]
    exact holds.weighs.raiseAll more

theorem Holds.raise (holds : f.Holds found) (s : HealthStatus) (issue : String) :
    (f.raise s issue).Holds (found ++ [(s, issue)]) :=
  holds.raiseAll [(s, issue)]

theorem Holds.advise (holds : f.Holds found) (action : String) : (f.advise action).Holds found :=
  ⟨holds.listed, holds.weighs⟩

theorem Holds.issues_pos_iff (holds : f.Holds found) : 0 < f.issues.length ↔ found ≠ [] := by
  rw [holds.listed]
  cases found with
  | nil => simp
  | cons x rest => simp [List.eraseDups_cons]

theorem Holds.summary (holds : f.Holds found) (name : String) (state : RunState) :
    (f.report name state).summary = some (if found = [] then state.summaryText
      else String.intercalate ", " (found.map Prod.snd).eraseDups) := by
  unfold report
  rw [holds.listed]
  cases found with
  | nil => rfl
  | cons x rest =>
    rw [List.map_cons, List.eraseDups_cons]
    rfl

theorem Holds.status (holds : f.Holds found) (name : String) (state : RunState) :
    Worst (f.report name state).status (state.lastRunStatus :: found.map Prod.fst) := by
  have weighs := holds.weighs
  unfold Weighs at weighs
  unfold report
  cases severity : f.severity with
  | none =>
    simp only [severity] at weighs
    rw [weighs]
    exact worst_singleton state.lastRunStatus
  | some s =>
    simp only [severity] at weighs
    apply (weighs.snoc state.lastRunStatus).congr
    intro t
    simp [or_comm]

theorem mem_actions_report {action name : String} {state : RunState} :
    action ∈ (f.report name state).actions ↔ action ∈ f.actions := by
  change action ∈ f.actionList ↔ action ∈ f.actions
  rw [actionList, List.mem_mergeSort, List.mem_eraseDups]

end Findings

namespace Health

open HealthStatus Findings

variable {name : String} {h : HealthConfig} {state : RunState} {rows : List SliceSummary}

/-! ### Problems -/

/-- What there is to be told about a source: of its manifest and the store as such, of the slices of
its last batch, and of the locks of its last run. -/
structure Problems where
  general : List (HealthStatus × String) := []
  slices : List String := []
  locks : List (HealthStatus × String) := []

/-- Each problem with its severity. -/
def Problems.all (p : Problems) : List (HealthStatus × String) :=
  p.general ++ p.slices.map (HealthStatus.error, ·) ++ p.locks

def waitProblems (m : RunMetrics) (h : HealthConfig) : List (HealthStatus × String) :=
  let wait := m.lockWaitSeconds
  if h.lockWaitErrorSeconds ≤ wait then [(.error, waitText "error" wait h.lockWaitErrorSeconds)]
  else if h.lockWaitWarningSeconds ≤ wait then
    [(.degraded, waitText "warning" wait h.lockWaitWarningSeconds)]
  else []

def contentionProblems (m : RunMetrics) (h : HealthConfig) : List (HealthStatus × String) :=
  let events := m.lockContentionEvents
  if h.lockContentionError ≤ events then
    [(.error, contentionText "error" events h.lockContentionError)]
  else if h.lockContentionWarning ≤ events then
    [(.degraded, contentionText "warning" events h.lockContentionWarning)]
  else []

def lockProblems (m : RunMetrics) (h : HealthConfig) : List (HealthStatus × String) :=
  waitProblems m h ++ contentionProblems m h

def batchProblems (h : HealthConfig) (state : RunState) (rows : List SliceSummary) : Problems where
  slices := sliceIssues rows
  locks := lockProblems state.metrics h

def stateProblems (h : HealthConfig) (store : Option Store) (entry : Option RunState) : Problems :=
  let missing : List (HealthStatus × String) :=
    if entry.isSome then [] else [(.unknown, "parser manifest entry missing")]
  match (entry.getD {}).lastBatchId with
  | none => { general := missing ++ [(.unknown, "parser has not completed a batch yet")] }
  | some batch =>
    match store with
    | none => { general := [(.error, "Parser database missing while manifest references a batch.")] }
    | some store =>
      if !store.hasBatch batch then
        { general := [(.error, "Manifest last_batch_id missing from batches table.")] }
      else
        match store.summaries batch with
        | [] => { general := [(.error,
            "Chunk slices missing for manifest last_batch_id; rerun the parser to repopulate data.")] }
        | rows => batchProblems h (entry.getD {}) rows

/-- The problems of a source, from the manifest file and from the store. -/
def problems (name : String) (h : HealthConfig) (manifest : Except Error Manifest)
    (store : Option Store) : Problems :=
  match manifest with
  | .ok m => stateProblems h store (m.state? name)
  | .error e => { general := [(.error, "Failed to read manifest: " ++ e.message)] }

/-- The state that the manifest records for a source; the initial one if there is none. -/
def recorded (name : String) (manifest : Except Error Manifest) : RunState :=
  match manifest with
  | .ok m => (m.state? name).getD {}
  | .error _ => {}

/-! ### Findings -/

theorem assessSlices_eq (rows : List SliceSummary) (f : Findings) :
    assessSlices rows f = f.raiseAll ((sliceIssues rows).map (HealthStatus.error, ·)) := by
  rw [assessSlices, raiseAll, List.foldl_map]

theorem assessWait_eq (m : RunMetrics) (h : HealthConfig) (f : Findings) :
    assessWait m h f = f.raiseAll (waitProblems m h) := by
  unfold assessWait waitProblems
  by_cases error : h.lockWaitErrorSeconds ≤ m.lockWaitSeconds
  · simp only [error, if_true, raiseAll_cons, raiseAll_nil]
  · by_cases warning : h.lockWaitWarningSeconds ≤ m.lockWaitSeconds
    · simp only [error, warning, if_true, if_false, raiseAll_cons, raiseAll_nil]
    · simp only [error, warning, if_false, raiseAll_nil]

theorem assessContention_eq (m : RunMetrics) (h : HealthConfig) (f : Findings) :
    assessContention m h f = f.raiseAll (contentionProblems m h) := by
  unfold assessContention contentionProblems
  by_cases error : h.lockContentionError ≤ m.lockContentionEvents
  · simp only [error, if_true, raiseAll_cons, raiseAll_nil]
  · by_cases warning : h.lockContentionWarning ≤ m.lockContentionEvents
    · simp only [error, warning, if_true, if_false, raiseAll_cons, raiseAll_nil]
    · simp only [error, warning, if_false, raiseAll_nil]

theorem assessLocks_eq (m : RunMetrics) (h : HealthConfig) (f : Findings) :
    assessLocks m h f =
      if (f.raiseAll (lockProblems m h)).severity = f.severity then f.raiseAll (lockProblems m h)
      else (f.raiseAll (lockProblems m h)).advise concurrencyAction := by
  rw [assessLocks, assessWait_eq, assessContention_eq, lockProblems, raiseAll_append]

theorem holds_assessLocks {found : List (HealthStatus × String)} {f : Findings}
    (holds : f.Holds found) (m : RunMetrics) (h : HealthConfig) :
    (assessLocks m h f).Holds (found ++ lockProblems m h) := by
  rw [assessLocks_eq]
  split
  · exact holds.raiseAll _
  · exact (holds.raiseAll _).advise _

theorem mem_assessLocks {action : String} {m : RunMetrics} {h : HealthConfig} {f : Findings} :
    action ∈ (assessLocks m h f).actions ↔
      action = concurrencyAction ∧ (f.raiseAll (lockProblems m h)).severity ≠ f.severity ∨
        action ∈ f.actions := by
  rw [assessLocks_eq]
  split
  · rename_i same
    simp [actions_raiseAll, same]
  · rename_i changed
    simp [advise, actions_raiseAll, changed]

/-- Locks change the severity of what the slices show unless this is an error already. -/
theorem severity_locks_ne_iff {issues : List String} {f : Findings}
    (holds : f.Holds (issues.map (HealthStatus.error, ·))) {locks : List (HealthStatus × String)}
    (locked : locks ≠ []) : (f.raiseAll locks).severity ≠ f.severity ↔ issues = [] := by
  have weighs := holds.weighs
  unfold Weighs at weighs
  -- Slices only raise errors, and nothing is more severe.
  cases severity : f.severity with
  | none =>
    simp only [severity] at weighs
    have none : issues = [] := by simpa using weighs
    have after := (holds.raiseAll locks).weighs
    unfold Weighs at after
    constructor
    · intro _
      exact none
    · intro _ same
      simp only [same] at after
      simp [none, locked] at after
  | some s =>
    simp only [severity] at weighs
    have error : s = .error := by
      obtain ⟨finding, listed, same⟩ := List.mem_map.1 weighs.1
      obtain ⟨issue, -, rfl⟩ := List.mem_map.1 listed
      exact same.symm
    rw [error] at severity
    constructor
    · intro changed
      exact absurd (error ▸ severity_raiseAll_error severity locks) changed
    · intro none
      rw [none] at weighs
      exact absurd weighs.1 List.not_mem_nil

theorem head?_rerunAction (name : String) : (rerunAction name).toList.head? = some 'R' := by
  unfold rerunAction
  simp

theorem concurrencyAction_ne_rerunAction (name : String) : concurrencyAction ≠ rerunAction name := by
  intro same
  have inspect : concurrencyAction.toList.head? = some 'I' := by decide +kernel
  rw [same, head?_rerunAction] at inspect
  exact absurd inspect (by decide)

/-! ### Reports -/

/-- What a report tells of problems. -/
structure Tells (report : HealthReport) (name : String) (state : RunState) (p : Problems) : Prop where
  summary : report.summary = some (if p.all = [] then state.summaryText
    else String.intercalate ", " (p.all.map Prod.snd).eraseDups)
  status : Worst report.status (state.lastRunStatus :: p.all.map Prod.fst)
  rerun : p.slices ≠ [] → rerunAction name ∈ report.actions
  concurrency : p.locks ≠ [] →
    (concurrencyAction ∈ report.actions ↔ p.slices = [] ∨ concurrencyAction ∈ state.lastRunNotes)

theorem tells_failure (name summary : String) (refreshed : Option Instant) :
    Tells (failure name summary refreshed) name state { general := [(.error, summary)] } where
  summary := by
    change some summary = some (String.intercalate ", " [summary].eraseDups)
    simp [List.eraseDups_cons]
  status := by
    constructor
    · exact List.mem_cons_of_mem _ (List.mem_singleton_self _)
    · intro t _
      exact not_error_lt t
  rerun _ := List.mem_singleton_self _
  concurrency none := absurd rfl none

/-- Findings that concern neither slices nor locks. -/
theorem tells_general {general : List (HealthStatus × String)} {f : Findings}
    (holds : f.Holds general) (name : String) (state : RunState) :
    Tells (f.report name state) name state { general := general } := by
  have all : ({ general := general } : Problems).all = general := by
    simp [Problems.all]
  constructor
  · rw [all]
    exact holds.summary name state
  · rw [all]
    exact holds.status name state
  · intro slices
    exact absurd rfl slices
  · intro locks
    exact absurd rfl locks

/-- Slices are judged first, so an error among them hides what the locks add. -/
theorem tells_evaluateBatch (name : String) (h : HealthConfig) (state : RunState)
    (rows : List SliceSummary) :
    Tells (evaluateBatch name h state { actions := state.lastRunNotes } rows) name state
      (batchProblems h state rows) := by
  -- Findings grow in three steps: those on the slices, the advice that they bring, and those on the locks.
  let noted : Findings := { actions := state.lastRunNotes }
  let slices := (sliceIssues rows).map (HealthStatus.error, ·)
  let checked := noted.raiseAll slices
  let advised := if 0 < checked.issues.length then checked.advise (rerunAction name) else checked
  have made : evaluateBatch name h state noted rows =
      (assessLocks state.metrics h advised).report name state := by
    unfold evaluateBatch
    rw [assessSlices_eq]
    rfl
  have holds : checked.Holds slices := (holds_noted _).raiseAll slices
  have holdsAdvised : advised.Holds slices := by
    by_cases any : 0 < checked.issues.length
    · simp only [advised, if_pos any]
      exact holds.advise _
    · simp only [advised, if_neg any]
      exact holds
  have actions (action : String) : action ∈ advised.actions ↔
      action = rerunAction name ∧ sliceIssues rows ≠ [] ∨ action ∈ state.lastRunNotes := by
    have kept : checked.actions = state.lastRunNotes := actions_raiseAll noted slices
    have any : 0 < checked.issues.length ↔ sliceIssues rows ≠ [] := by
      rw [holds.issues_pos_iff]
      exact not_congr List.map_eq_nil_iff
    by_cases wrong : sliceIssues rows = []
    · have idle : advised = checked := if_neg fun some => any.1 some wrong
      rw [idle, kept]
      simp [wrong]
    · have told : advised = checked.advise (rerunAction name) := if_pos (any.2 wrong)
      rw [told, Findings.advise, kept]
      simp [wrong]
  rw [made]
  constructor
  · exact (holds_assessLocks holdsAdvised state.metrics h).summary name state
  · exact (holds_assessLocks holdsAdvised state.metrics h).status name state
  · intro wrong
    rw [mem_actions_report, mem_assessLocks]
    exact Or.inr ((actions _).2 (Or.inl ⟨rfl, wrong⟩))
  · intro locked
    have shown := severity_locks_ne_iff holdsAdvised locked
    rw [mem_actions_report, mem_assessLocks, actions]
    simpa [concurrencyAction_ne_rerunAction, batchProblems] using or_congr_left shown

/-- Every report is made of the problems of its source. -/
theorem tells_evaluateState (name : String) (h : HealthConfig) (store : Option Store)
    (entry : Option RunState) :
    Tells (evaluateState name h store entry) name (entry.getD {}) (stateProblems h store entry) := by
  cases entry with
  | none =>
    have raised := (holds_noted []).raise .unknown "parser manifest entry missing"
    have holds := (raised.advise (rerunAction name)).raise .unknown
      "parser has not completed a batch yet"
    exact tells_general (holds.advise (rerunAction name)) name {}
  | some state =>
    unfold evaluateState stateProblems
    simp only [Option.getD_some, Option.isSome_some, if_true]
    cases state.lastBatchId with
    | none =>
      have holds := (holds_noted state.lastRunNotes).raise .unknown
        "parser has not completed a batch yet"
      exact tells_general (holds.advise (rerunAction name)) name state
    | some batch =>
      cases store with
      | none => exact tells_failure name _ _
      | some store =>
        by_cases known : store.hasBatch batch = true
        · cases rows : store.summaries batch with
          | nil =>
            simp only [known, rows, Bool.not_true, Bool.false_eq_true, if_false]
            exact tells_failure name _ _
          | cons row rest =>
            simp only [known, rows, Bool.not_true, Bool.false_eq_true, if_false]
            exact tells_evaluateBatch name h state (row :: rest)
        · simp only [known, Bool.not_false, if_true]
          exact tells_failure name _ _

/-- The locks of a run and the slices of its batch bring their advice independently, except that an
issue of the slices takes the advice on the locks away; it is left only if the run itself noted it. -/
theorem evaluate_tells (name : String) (h : HealthConfig) (manifest : Except Error Manifest)
    (store : Option Store) :
    Tells (evaluate name h manifest store) name (recorded name manifest)
      (problems name h manifest store) := by
  cases manifest with
  | error e => exact tells_failure name _ _
  | ok m => exact tells_evaluateState name h store (m.state? name)

/-! ### A run that met locks, over whole and over torn chunks -/

def contended : RunState where
  lastBatchId := some "b1"
  metrics := { lockContentionEvents := 1 }

def contendedManifest : Manifest where
  sources := SortedMap.ofList [("a", { state := some contended })]

/-- One part of a chunk that is said to have one part. -/
def storedPart (partIndex : Int) : Store where
  batches := [{ id := "b1", generatedAt := default }]
  slices := [{
    id := 1
    batchId := "b1"
    content := { fileId := 1, chunkId := "c", handlerName := "text", handlerVersion := "1.0.0", partIndex }
    createdAt := default
    updatedAt := default
    firstSeen := "b1"
    lastSeen := "b1" }]

theorem state?_contendedManifest : contendedManifest.state? "a" = some contended := by
  have found := SortedMap.find?_insert_self (∅ : SortedMap SourceEntry) "a" { state := some contended }
  exact congrArg (Option.bind · SourceEntry.state) found

theorem summaries_storedPart (partIndex : Int) :
    (storedPart partIndex).summaries "b1" = [⟨"c", partIndex, 1, none⟩] := by
  simp [Store.summaries, Store.visibleIn, Store.isNewestIn, Slice.isSeenIn, storedPart, Slice.summary]

theorem stateProblems_storedPart (partIndex : Int) :
    stateProblems {} (some (storedPart partIndex)) (some contended) =
      batchProblems {} contended [⟨"c", partIndex, 1, none⟩] := by
  have known : (storedPart partIndex).hasBatch "b1" = true := rfl
  have last : contended.lastBatchId = some "b1" := rfl
  simp only [stateProblems, Option.getD_some, last, known, summaries_storedPart, Bool.not_true,
    Bool.false_eq_true, if_false]

theorem lockProblems_contended : lockProblems contended.metrics {} ≠ [] := by
  intro none
  have events : contentionProblems contended.metrics {} = [] := (List.append_eq_nil_iff.1 none).2
  cases events

/-- One event of contention is told to be an error, but nothing is advised against it: the only chunk
lacks its first part, and that is an error already. -/
theorem torn_chunk_hides_lock_advice :
    let report (partIndex : Int) :=
      evaluate "a" {} (.ok contendedManifest) (some (storedPart partIndex))
    let found (partIndex : Int) :=
      problems "a" {} (.ok contendedManifest) (some (storedPart partIndex))
    (found 1).locks ≠ [] ∧ (found 1).slices = ["chunk 'c' part indices not contiguous"] ∧
      concurrencyAction ∉ (report 1).actions ∧
      (found 0).locks ≠ [] ∧ concurrencyAction ∈ (report 0).actions := by
  intro report found
  have told (partIndex : Int) := tells_evaluateState "a" {} (some (storedPart partIndex)) (some contended)
  have made (partIndex : Int) : report partIndex =
      evaluateState "a" {} (some (storedPart partIndex)) (some contended) := by
    simp only [report, evaluate, state?_contendedManifest]
  have known (partIndex : Int) : found partIndex =
      batchProblems {} contended [⟨"c", partIndex, 1, none⟩] := by
    simp only [found, problems, state?_contendedManifest, stateProblems_storedPart]
  simp only [stateProblems_storedPart, Option.getD_some] at told
  have torn : sliceIssues [⟨"c", 1, 1, none⟩] = ["chunk 'c' part indices not contiguous"] := by
    decide +kernel
  have whole : sliceIssues [⟨"c", 0, 1, none⟩] = [] := by decide +kernel
  have advised (partIndex : Int) : concurrencyAction ∈ (report partIndex).actions ↔
      sliceIssues [⟨"c", partIndex, 1, none⟩] = [] := by
    rw [made, (told partIndex).concurrency lockProblems_contended]
    exact or_iff_left List.not_mem_nil
  rw [known, known, advised, advised, whole]
  refine ⟨lockProblems_contended, torn, ?_, lockProblems_contended, rfl⟩
  rw [torn]
  exact List.cons_ne_nil _ _

end Health

end SourceSlices
