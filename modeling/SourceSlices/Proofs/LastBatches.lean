import SourceSlices.Proofs.FilledBatches
import SourceSlices.Proofs.ManifestText
import SourceSlices.Proofs.RunAccounts
import SourceSlices.Proofs.SavedFiles

/-!
The batch that the manifest names as the last one of a source. It is always in the store, but a call
names its batch as soon as one file could be read: if no file with chunks was written, the manifest
points at a batch that shows nothing.
-/
namespace SourceSlices

namespace Manifest

variable {m m' : Manifest} {t t' : FileTree} {path source : String} {now : Instant}

theorem save_steps (saved : m.save t path now = .ok t') : ∃ within draft : FileTree,
    within.write (path ++ ".tmp") (Text.encodeUtf8 m.text) now.toNanos = .ok draft ∧
      draft.rename (path ++ ".tmp") path = .ok t' := by
  unfold save at saved
  split at saved
  all_goals
    simp only [bind_ok_iff, mapError_ok_iff] at saved
    obtain ⟨within, -, draft, wrote, moved⟩ := saved
    exact ⟨within, draft, wrote, moved⟩

theorem load_saved (saved : m.save t path now = .ok t') (loaded : load t' path = .ok m') :
    m' = {} ∨ ofText m.text = .ok m' := by
  obtain ⟨within, draft, wrote, moved⟩ := save_steps saved
  unfold load at loaded
  split at loaded
  · cases loaded
    exact Or.inl rfl
  · cases loaded
  · rename_i bytes read
    rw [FileTree.read_replaced wrote moved read, Text.decodeUtf8_encodeUtf8] at loaded
    exact Or.inr loaded

theorem state?_update (m : Manifest) (source : String) (change : RunState → RunState) :
    (m.update source change).2 = change ((m.state? source).getD {}) ∧
      (m.update source change).1.state? source = some (m.update source change).2 := by
  refine ⟨?_, ?_⟩
  · unfold update state?
    cases m.sources.find? source <;> rfl
  · simp only [update, state?, SortedMap.find?_insert_self, Option.bind_some]

theorem load_text {text : String} (read : t.read path = .ok (Text.encodeUtf8 text)) :
    load t path = ofText text := by
  simp only [load, read, Text.decodeUtf8_encodeUtf8]

/-- The last batch of a source, from the characters of a manifest. -/
def readLast (source : String) (cs : List Char) : Option String :=
  if Text.isAllBlank cs then none
  else
    match Json.readValue (2 * cs.length + 2) Json.maxDepth cs with
    | .error _ => none
    | .ok (v, rest) =>
      if (Json.skipSpace rest).isEmpty then
        (ofJson? v).bind fun m => (m.state? source).bind (·.lastBatchId)
      else none

theorem ofText_of_readLast {text b : String} (read : readLast source text.toList = some b) :
    ∃ m s, ofText text = .ok m ∧ m.state? source = some s ∧ s.lastBatchId = some b := by
  unfold readLast at read
  split at read
  · cases read
  rename_i solid
  split at read
  · cases read
  rename_i v rest done
  split at read
  · rename_i ended
    obtain ⟨m, made, named⟩ := Option.bind_eq_some_iff.1 read
    obtain ⟨state, there, named⟩ := Option.bind_eq_some_iff.1 named
    refine ⟨m, state, ?_, there, named⟩
    simp only [ofText, solid, Json.read, done, made, ended, Bool.false_eq_true, if_false, if_true,
      bind, Except.bind]
  · cases read

end Manifest

namespace Store

variable {s : Store} {batch : String}

theorem hasBatch_ensureBatch_of (known : s.hasBatch batch = true) (b : Batch) :
    (s.ensureBatch b).hasBatch batch = true := by
  obtain ⟨old, mem, own⟩ := List.any_eq_true.1 known
  unfold ensureBatch
  split
  · refine List.any_eq_true.2 ⟨_, List.mem_map_of_mem mem, ?_⟩
    split
    · exact own
    · exact own
  · exact List.any_eq_true.2 ⟨old, List.mem_append_left _ mem, own⟩

end Store

namespace StagedBatch

open Store

variable {tree : FileTree} {now : Instant} {batch : String} {g : Progress} {results : List ReadResult}

theorem batches_addAll (regular : g.store.Regular) :
    (addAll tree now batch g results).store.batches = g.store.batches := by
  induction results generalizing g with
  | nil => rfl
  | cons x rest ih =>
    have after := ((added tree now batch regular x).leaves regular).regular
    rw [addAll, List.foldl_cons, ← addAll, ih after]
    unfold Progress.add
    by_cases unread : (!x.2.errors.isEmpty) = true
    · simp only [unread, if_true]
      rfl
    · simp only [unread, if_false, Bool.false_eq_true]
      split
      · rename_i done
        exact Staging.stage_batches regular.sound done
      · rfl

/-- Writing a batch keeps the batches that are known. -/
theorem hasBatch_stage {store out : Store} {ref : Option String} {plan : RunPlan}
    {staged : StagedBatch} (regular : store.Regular)
    (done : stage store tree now batch ref plan results = .ok (out, staged)) {b : String}
    (known : store.hasBatch b = true ∨ b = batch ∧ results ≠ []) : out.hasBatch b = true := by
  unfold stage at done
  split at done
  · rename_i none
    cases done
    exact known.resolve_right fun own => own.2 (List.isEmpty_iff.1 none)
  · split at done
    · cases done
    · cases done
      change (addAll tree now batch _ results).store.batches.any _ = true
      rw [batches_addAll (regular_ensureBatch regular _)]
      obtain old | ⟨rfl, -⟩ := known
      · exact hasBatch_ensureBatch_of old _
      · exact hasBatch_ensureBatch store _

end StagedBatch

namespace Runner

open Store StagedBatch

variable {r : Runner} {s : Store} {p : Pass} {source b : String} {passes before later : List Pass}
  {w : Workspace}

/-! ### Calls -/

/-- The batch that the manifest names as the last one of a source. -/
def lastBatch? (r : Runner) (t : FileTree) (source : String) : Option String :=
  match r.loadState t source with
  | .ok state => state.lastBatchId
  | .error _ => none

/-- What a call makes of the store and of the files. -/
def call (r : Runner) (s : Store) (p : Pass) : Workspace × Except Error RunOutcome :=
  r.run ⟨p.tree, s⟩ p.now p.fresh p.source p.scope p.batch

theorem loadState_ok_iff {t : FileTree} {state : RunState} : r.loadState t source = .ok state ↔
    ∃ m, Manifest.load t r.manifestPath = .ok m ∧ state = (m.state? source).getD {} := by
  simp only [loadState, bind_ok_iff, Except.ok.injEq]
  exact exists_congr fun m => and_congr_right fun _ => eq_comm

theorem lastBatch_some_iff {t : FileTree} : r.lastBatch? t source = some b ↔
    ∃ state, r.loadState t source = .ok state ∧ state.lastBatchId = some b := by
  unfold lastBatch?
  cases r.loadState t source with
  | error _ => simp
  | ok state => simp

/-- What is recorded names the batch of the record, or else the one that was named before. -/
theorem lastBatch_recordRun {t t' : FileTree} {now : Instant} {record : RunRecord} {state : RunState}
    (done : r.recordRun t now source record = .ok (t', state))
    (last : r.lastBatch? t' source = some b) :
    record.batchId = some b ∨ record.batchId = none ∧ r.lastBatch? t source = some b := by
  simp only [recordRun, Manifest.record, bind_ok_iff] at done
  obtain ⟨m, loaded, t'', saved, same⟩ := done
  cases same
  obtain ⟨state, read, named⟩ := lastBatch_some_iff.1 last
  obtain ⟨m', again, rfl⟩ := loadState_ok_iff.1 read
  obtain ⟨made, known⟩ := Manifest.state?_update m source
    fun s => { s.apply record with enabled := r.config.enabled }
  obtain rfl | text := Manifest.load_saved saved again
  · cases named
  obtain ⟨s', there, kept⟩ := Manifest.ofText_text known text
  rw [there, Option.getD_some, kept, made] at named
  cases own : record.batchId with
  | some c => exact Or.inl (by simpa [RunState.apply, own] using named)
  | none =>
    have before : ((m.state? source).getD {}).lastBatchId = some b := by
      simpa [RunState.apply, own] using named
    exact Or.inr ⟨rfl, lastBatch_some_iff.2 ⟨_, loadState_ok_iff.2 ⟨m, loaded, rfl⟩, before⟩⟩

/-- What is written either makes the batch or leaves the store as it was. -/
theorem write_cases (w : Workspace) (now : Instant) (batch : String) (plan : RunPlan)
    (results : List ReadResult) :
    let out := write w now batch plan results
    (out.batchId = none ∧ out.store = w.store) ∨ out.batchId = some batch ∧ results ≠ [] ∧
      ∃ staged, StagedBatch.stage w.store w.tree now batch (some (shortRef batch)) plan results =
        .ok (out.store, staged) := by
  intro out
  cases made : out.batchId with
  | some c =>
    obtain ⟨rfl, staged, done, -⟩ := write_staged made
    refine Or.inr ⟨rfl, ?_, staged, done⟩
    rintro rfl
    cases made
  | none =>
    refine Or.inl ⟨rfl, ?_⟩
    simp only [out, write] at made ⊢
    split at made
    · rename_i unread
      rw [if_pos unread]
    · rename_i read
      rw [if_neg read]
      split at made
      · cases made
      · rfl

/-- A call that fails leaves the files as they are. One that returns has recorded the batch that it
made, if it made one; else it leaves the store as it is. -/
theorem call_cases (r : Runner) (s : Store) (p : Pass) :
    ((∃ e, (r.call s p).2 = .error e) ∧ (r.call s p).1.tree = p.tree) ∨
      ∃ o, (r.call s p).2 = .ok o ∧
        r.recordRun p.tree p.now p.source o.record = .ok ((r.call s p).1.tree, o.state) ∧
        (o.record.batchId = none ∧ r.next s p = s ∨ o.record.batchId = some p.batchId ∧
          (s.Regular → (r.next s p).hasBatch p.batchId = true)) := by
  rw [next_eq]
  unfold call run
  cases r.plan p.tree p.source p.scope with
  | error e => exact Or.inl ⟨⟨e, rfl⟩, rfl⟩
  | ok plan =>
    dsimp only
    split
    · rename_i e _
      exact Or.inl ⟨⟨e, rfl⟩, rfl⟩
    · rename_i tree state recorded
      refine Or.inr ⟨_, rfl, recorded, ?_⟩
      rcases write_cases ⟨p.tree, s⟩ p.now p.batchId (timed plan) (r.readPlan p.tree plan) with
        ⟨made, same⟩ | ⟨made, some, staged, done⟩
      · exact Or.inl ⟨made, same⟩
      · exact Or.inr ⟨made, fun regular => hasBatch_stage regular done (Or.inr ⟨rfl, some⟩)⟩

theorem hasBatch_next (regular : s.Regular) (known : s.hasBatch b = true) :
    (r.next s p).hasBatch b = true := by
  rw [next_eq]
  cases r.plan p.tree p.source p.scope with
  | error e => exact known
  | ok plan =>
    rcases write_cases ⟨p.tree, s⟩ p.now p.batchId (timed plan) (r.readPlan p.tree plan) with
      ⟨-, same⟩ | ⟨-, -, staged, done⟩
    · exact (congrArg (hasBatch · b) same).trans known
    · exact hasBatch_stage regular done (Or.inl known)

/-! ### Histories -/

/-- A history of calls over one source. It begins with an empty store and without a last batch. Between
two calls the files may change, but nobody else writes the manifest. -/
inductive History (r : Runner) (source : String) : List Pass → Workspace → Prop where
  | start (tree : FileTree) (blank : r.lastBatch? tree source = none) :
      History r source [] ⟨tree, .empty⟩
  | call {before : List Pass} {w : Workspace} (earlier : History r source before w) (p : Pass)
      (own : p.source = source)
      (kept : p.tree.read r.manifestPath = w.tree.read r.manifestPath) :
      History r source (before ++ [p]) (r.call w.store p).1

def Returns (r : Runner) (s : Store) (p : Pass) : Prop := ∃ o, (r.call s p).2 = .ok o

/-- All calls of a list return. -/
def ReturnAll (r : Runner) : Store → List Pass → Prop
  | _, [] => True
  | s, p :: rest => r.Returns s p ∧ r.ReturnAll (r.next s p) rest

theorem returnAll_snoc : r.ReturnAll s (later ++ [p]) ↔
    r.ReturnAll s later ∧ r.Returns (later.foldl r.next s) p := by
  induction later generalizing s with
  | nil => simp [ReturnAll]
  | cons q later ih => simp only [List.cons_append, ReturnAll, ih, List.foldl_cons, and_assoc]

theorem storeAfter_append : r.storeAfter (before ++ later) = later.foldl r.next (r.storeAfter before) :=
  List.foldl_append

theorem History.store (history : History r source passes w) : w.store = r.storeAfter passes := by
  induction history with
  | start => rfl
  | call earlier p _ _ ih =>
    rw [storeAfter_snoc, ← ih]
    rfl

theorem lastBatch_congr {t t' : FileTree} (same : t'.read r.manifestPath = t.read r.manifestPath) :
    r.lastBatch? t' source = r.lastBatch? t source := by
  unfold lastBatch? loadState Manifest.load
  rw [same]

/-- A call of a history has made the batch, and if all calls since then have returned, they have left
the store alone. -/
structure MadeBy (r : Runner) (b : String) (before : List Pass) (p : Pass) (later : List Pass) :
    Prop where
  named : p.batchId = b
  known : (r.storeAfter (before ++ p :: later)).hasBatch b = true
  idle : r.ReturnAll (r.storeAfter (before ++ [p])) later →
    r.storeAfter (before ++ p :: later) = r.storeAfter (before ++ [p])

theorem append_snoc (before : List Pass) (p : Pass) (later : List Pass) (q : Pass) :
    before ++ p :: (later ++ [q]) = (before ++ p :: later) ++ [q] := by
  simp

/-- What a call has made is still made by it after a call that fails or leaves the store as it is. -/
theorem MadeBy.snoc {q : Pass} (made : r.MadeBy b before p later)
    (idle : r.Returns (r.storeAfter (before ++ p :: later)) q →
      r.next (r.storeAfter (before ++ p :: later)) q = r.storeAfter (before ++ p :: later)) :
    r.MadeBy b before p (later ++ [q]) where
  named := made.named
  known := by
    rw [append_snoc, storeAfter_snoc]
    exact hasBatch_next (storeAfter_spec r _).1 made.known
  idle all := by
    obtain ⟨others, returned⟩ := returnAll_snoc.1 all
    rw [← storeAfter_append, List.append_assoc, List.singleton_append] at returned
    rw [append_snoc, storeAfter_snoc, idle returned, made.idle others]

/-- The last batch was made by a call of the history. -/
theorem History.last_batch (history : History r source passes w)
    (last : r.lastBatch? w.tree source = some b) :
    ∃ before p later, passes = before ++ p :: later ∧ r.MadeBy b before p later := by
  induction history with
  | start tree blank =>
    rw [blank] at last
    cases last
  | @call passes w earlier p own kept ih =>
    have stored := earlier.store
    have older : r.lastBatch? p.tree source = r.lastBatch? w.tree source := lastBatch_congr kept
    -- If the last batch is still the old one, this call has failed or left the store as it is.
    have goes_on (named : r.lastBatch? p.tree source = some b)
        (idle : r.Returns w.store p → r.next w.store p = w.store) :
        ∃ before q later, passes ++ [p] = before ++ q :: later ∧ r.MadeBy b before q later := by
      obtain ⟨before, q, later, rfl, made⟩ := ih (older ▸ named)
      exact ⟨before, q, later ++ [p], (append_snoc before q later p).symm,
        made.snoc (stored ▸ idle)⟩
    obtain ⟨⟨e, failed⟩, same⟩ | ⟨o, -, recorded, outcome⟩ := call_cases r w.store p
    · rw [same] at last
      refine goes_on last ?_
      rintro ⟨o, returned⟩
      rw [failed] at returned
      cases returned
    · obtain ⟨none, same⟩ | ⟨made, known⟩ := outcome
      · obtain named | ⟨-, named⟩ := lastBatch_recordRun recorded (own ▸ last)
        · rw [none] at named
          cases named
        · exact goes_on (own ▸ named) fun _ => same
      · obtain named | ⟨none, -⟩ := lastBatch_recordRun recorded (own ▸ last)
        · refine ⟨passes, p, [], rfl, Option.some.inj (made.symm.trans named), ?_, fun _ => rfl⟩
          rw [storeAfter_snoc, ← stored, ← Option.some.inj (made.symm.trans named)]
          exact known (stored ▸ (storeAfter_spec r passes).1)
        · rw [none] at made
          cases made

/-- Calls with other batches bring no slices to a batch, and take away none that it wrote itself. -/
theorem spared_later (before : List Pass) (away : ∀ q ∈ later, q.batchId ≠ b) :
    ((r.storeAfter (before ++ later)).HasSlices b → (r.storeAfter before).HasSlices b) ∧
      ((∃ row ∈ (r.storeAfter before).slices, row.batchId = b) →
        ∃ row ∈ (r.storeAfter (before ++ later)).slices, row.batchId = b) := by
  induction later generalizing before with
  | nil =>
    rw [List.append_nil]
    exact ⟨id, id⟩
  | cons q later ih =>
    have other : b ≠ q.batchId := (away q List.mem_cons_self).symm
    have spares := (next_leaves (r := r) (p := q) (storeAfter_spec r before).1).spares
    obtain ⟨brought, stays⟩ := ih (before ++ [q]) fun x mem =>
      away x (List.mem_cons_of_mem _ mem)
    rw [List.append_assoc, List.singleton_append, storeAfter_snoc] at brought stays
    exact ⟨fun has => spares.hasSlices other (brought has),
      fun wrote => stays (spares.wrote other wrote)⟩

/-- The health of a source whose last batch is in the store depends on what the batch shows. -/
theorem evaluate_last {t : FileTree} {state : RunState} (read : r.loadState t source = .ok state)
    (named : state.lastBatchId = some b) (known : s.hasBatch b = true) (h : HealthConfig) :
    Health.evaluate source h (Manifest.load t r.manifestPath) (some s) =
      if s.visibleIn b = [] then
        Health.failure source
          "Chunk slices missing for manifest last_batch_id; rerun the parser to repopulate data."
          state.lastRunCompletedAt
      else Health.evaluateBatch source h state { actions := state.lastRunNotes } (s.summaries b) := by
  obtain ⟨m, loaded, rfl⟩ := loadState_ok_iff.1 read
  cases entry : m.state? source with
  | none =>
    rw [entry] at named
    cases named
  | some state =>
    rw [entry, Option.getD_some] at named
    have shown : s.summaries b = [] ↔ s.visibleIn b = [] := by
      rw [summaries, List.map_eq_nil_iff, ← List.length_eq_zero_iff, List.length_mergeSort,
        List.length_eq_zero_iff]
    simp only [loaded, Health.evaluate, Health.evaluateState, entry, Option.getD_some,
      Option.isSome_some, if_true, named, known, Bool.not_true, Bool.false_eq_true, if_false]
    split
    · rename_i none
      rw [if_pos (shown.1 none)]
    · rename_i some
      rw [if_neg fun none => some (shown.2 none)]

/-! ### A source with a blank file -/

def notesEntry : PlanEntry where
  path := "/" ++ "a" ++ "/" ++ "notes.txt"
  relative := "notes.txt"
  selection := ⟨"text", "1.0.0", "extension:txt", false⟩
  hash := Hashing.hashBytes [] "1.0.0" [displayPath "notes.txt"]
  shebang := shebangOf []

def notesPlan : RunPlan where
  source := "a"
  root := FileTree.pathText ["a"]
  entries := [notesEntry]
  metrics := RunMetrics.countHandler { filesDiscovered := 1, filesParsed := 1, queueDepth := 1 } "text"
  handlerVersions := overThree.registry.versions

def notesMetrics : RunMetrics := { (timed notesPlan).metrics with filesReused := 1 }

/-- The record of the first call over the blank file. -/
def notesRecord : RunRecord where
  batchId := some "b1"
  startedAt := .epoch
  completedAt := some .epoch
  status := .ok
  summary := some (notesMetrics.summary 1 false)
  handlerVersions := overThree.registry.versions
  metrics := notesMetrics

def notesManifest : Manifest :=
  (({} : Manifest).update "a" fun s =>
    { s.apply notesRecord with enabled := overThree.config.enabled }).1

theorem notes_planned : overThree.plan threeRoots "a" [] = .ok notesPlan := by
  obtain ⟨root, made, found, resolved⟩ := overThree_finds (x := ("a", "notes.txt")) (by decide)
  have content := read_root (x := ("a", "notes.txt")) (by decide)
  have quiet : overThree.degradedWarnings = [] := by decide +kernel
  have enabled : overThree.config.enabled = true := rfl
  have traversed : Traversal.make threeRoots ("/" ++ "a") overThree.config.gitignoreBehavior
      overThree.config.workspaceIgnorePatterns overThree.config.followSymlinks =
        .ok ⟨["a"], .workspace, [], false⟩ := made
  simp only [plan, enabled, root, traversed, bind, Except.bind, Bool.not_true, Bool.false_eq_true,
    if_false]
  simp only [found, List.foldl_cons, List.foldl_nil, planFile, content, resolved, Except.toOption,
    Option.bind_some, addFallback, addEntry, quiet, Bool.false_eq_true, if_false]
  rfl

/-- The file is read without symbols and chunks. -/
theorem notes_results : ∃ file, Path.key file.path = Path.key "notes.txt" ∧
    overThree.readPlan threeRoots notesPlan = [(notesEntry, { file })] := by
  obtain ⟨file, there, read⟩ := readEntry_empty (r := overThree) (t := threeRoots)
    (FileTree.pathText ["a"]) (e := notesEntry) rfl (read_root (x := ("a", "notes.txt")) (by decide))
  refine ⟨file, ?_, ?_⟩
  · rw [there]
    decide +kernel
  · show [(notesEntry, overThree.readEntry threeRoots (FileTree.pathText ["a"]) notesEntry)] = _
    rw [read]

theorem notes_written {file : HandlerFile} (key : Path.key file.path = Path.key "notes.txt") :
    ∃ store, write ⟨threeRoots, .empty⟩ .epoch "b1" (timed notesPlan) [(notesEntry, { file })] =
      { store, batchId := some "b1", metrics := notesMetrics } := by
  have accepted : complaint? (timed notesPlan) [] [(notesEntry, { file })] = none := by
    simp [complaint?, timed, notesPlan, notesEntry, key]
  simp only [write, List.all_cons, List.isEmpty_nil, Bool.not_true, Bool.false_and, Bool.false_eq_true,
    if_false, StagedBatch.stage, List.isEmpty_cons, accepted, List.foldl_cons, List.foldl_nil]
  generalize start : Progress.mk _ _ _ = g
  have known : g.store.hasBatch "b1" = true := start ▸ hasBatch_ensureBatch .empty _
  obtain ⟨versions, store, fileId, added⟩ := add_finishes known notesEntry file
  rw [added, ← start]
  exact ⟨_, rfl⟩

/-- The call is recorded, and its record can be read. -/
theorem notes_recorded : ∃ o, (overThree.call .empty (passOver "a" "b1")).2 = .ok o ∧
    (overThree.call .empty (passOver "a" "b1")).1.tree.read "/manifest.json" =
      .ok (Text.encodeUtf8 notesManifest.text) := by
  obtain ⟨file, key, results⟩ := notes_results
  obtain ⟨store, written⟩ := notes_written key
  obtain ⟨t, recorded, read⟩ := overThree_saved .epoch "a" notesRecord
  have own : RunRecord.ofPlan (timed notesPlan) (some "b1")
      { startedAt := some .epoch
        summary := some (notesMetrics.summary (timed notesPlan).entries.length
          (!(timed notesPlan).errors.isEmpty || !(errorsOf [(notesEntry, { file })] ++ []).isEmpty))
        warnings := warningsOf [(notesEntry, { file })]
        errors := errorsOf [(notesEntry, { file })] ++ []
        metrics := some notesMetrics } .epoch = notesRecord := rfl
  simp only [call, passOver, run, notes_planned, results, Option.getD_none, written]
  rw [own, recorded]
  exact ⟨_, rfl, read⟩

theorem notes_read : Manifest.readLast "a" notesManifest.text.toList = some "b1" := by
  rw [Manifest.text, Json.pretty, Json.prettyAt_toList]
  decide +kernel

/-- After the call the manifest names a batch that nothing has been written for. -/
theorem notes_last :
    History overThree "a" [passOver "a" "b1"] (overThree.call .empty (passOver "a" "b1")).1 ∧
    overThree.lastBatch? (overThree.call .empty (passOver "a" "b1")).1.tree "a" = some "b1" ∧
    ¬ overThree.Fills .empty (passOver "a" "b1") := by
  have blank : overThree.lastBatch? threeRoots "a" = none := by
    have absent : threeRoots.read overThree.manifestPath = .error .notFound := manifest_absent
    have loaded : Manifest.load threeRoots overThree.manifestPath = .ok {} := by
      simp only [Manifest.load, absent]
    simp only [lastBatch?, loadState, loaded]
    rfl
  obtain ⟨o, -, read⟩ := notes_recorded
  obtain ⟨m, state, text, there, named⟩ := Manifest.ofText_of_readLast notes_read
  have first : History overThree "a" ([] ++ [passOver "a" "b1"]) _ :=
    .call (.start threeRoots blank) (passOver "a" "b1") rfl rfl
  refine ⟨first, lastBatch_some_iff.2 ⟨state, loadState_ok_iff.2 ⟨m, ?_, ?_⟩, named⟩, ?_⟩
  · exact (Manifest.load_text read).trans text
  · rw [there, Option.getD_some]
  · rintro ⟨x, mem, -, some⟩
    obtain ⟨file, -, results⟩ := notes_results
    have listed : overThree.resultsOf (passOver "a" "b1") = [(notesEntry, { file })] := by
      simp only [resultsOf, passOver, notes_planned, results]
    rw [listed] at mem
    obtain rfl := List.mem_singleton.1 mem
    exact some rfl

/-! ### What the last batch shows -/

/-- After every history of calls over one source, each with a batch of its own, the batch that the
manifest names is in the store and was made by one of the calls. If all calls since then have returned,
it shows a slice exactly if its own call has written a file with chunks; it never shows one without
that, and a row that its call has written itself is never lost. The check of the health says that slices
are missing exactly if the batch shows none; it never says that the batch is missing. -/
theorem last_batch_shows_iff (history : History r source passes w)
    (distinct : (passes.map Pass.batchId).Nodup) (last : r.lastBatch? w.tree source = some b) :
    w.store.hasBatch b = true ∧
    (∃ before p later, passes = before ++ p :: later ∧ p.batchId = b ∧
      (r.ReturnAll (r.storeAfter (before ++ [p])) later →
        (w.store.visibleIn b ≠ [] ↔ r.Fills (r.storeAfter before) p)) ∧
      (w.store.visibleIn b ≠ [] → r.Fills (r.storeAfter before) p) ∧
      ((∃ row ∈ (r.storeAfter (before ++ [p])).slices, row.batchId = b) → w.store.visibleIn b ≠ [])) ∧
    ∃ state, r.loadState w.tree source = .ok state ∧ ∀ h,
      Health.evaluate source h (Manifest.load w.tree r.manifestPath) (some w.store) =
        if w.store.visibleIn b = [] then
          Health.failure source
            "Chunk slices missing for manifest last_batch_id; rerun the parser to repopulate data."
            state.lastRunCompletedAt
        else Health.evaluateBatch source h state { actions := state.lastRunNotes }
          (w.store.summaries b) := by
  obtain ⟨before, p, later, rfl, rfl, known, idle⟩ := history.last_batch last
  rw [← history.store] at known idle
  obtain ⟨state, read, named⟩ := lastBatch_some_iff.1 last
  refine ⟨known, ⟨before, p, later, rfl, rfl, ?_⟩, state, read, evaluate_last read named known⟩
  rw [List.map_append, List.map_cons, List.nodup_append, List.nodup_cons] at distinct
  obtain ⟨-, ⟨new, -⟩, apart⟩ := distinct
  have fresh : p.batchId ∉ before.map Pass.batchId := fun old => apart _ old _ List.mem_cons_self rfl
  have away : ∀ q ∈ later, q.batchId ≠ p.batchId := fun q mem same =>
    new (same ▸ List.mem_map_of_mem mem)
  have sound : w.store.Sound := history.store ▸ (storeAfter_spec r _).1.sound
  have whole : w.store = r.storeAfter (before ++ [p] ++ later) := by
    rw [history.store, List.append_assoc, List.singleton_append]
  obtain ⟨brought, stays⟩ := spared_later (r := r) (before ++ [p]) away
  rw [visible_iff_hasSlices sound]
  refine ⟨fun all => ?_, fun has => ?_, fun wrote => ?_⟩
  · rw [idle all]
    exact hasSlices_fresh before fresh
  · rw [whole] at has
    exact (hasSlices_fresh before fresh).1 (brought has)
  · obtain ⟨row, mem, own⟩ := stays wrote
    rw [whole]
    exact ⟨row, mem, isSeenIn_iff.2 (Or.inl own)⟩

/-- The only call over a blank file makes a batch, which is then reported to lack its slices. -/
theorem blank_file_reported_missing :
    let w := (overThree.call .empty (passOver "a" "b1")).1
    History overThree "a" [passOver "a" "b1"] w ∧ ([passOver "a" "b1"].map Pass.batchId).Nodup ∧
    overThree.lastBatch? w.tree "a" = some "b1" ∧
    w.store.hasBatch "b1" = true ∧ w.store.visibleIn "b1" = [] ∧ ∃ refreshed, ∀ h,
      Health.evaluate "a" h (Manifest.load w.tree overThree.manifestPath) (some w.store) =
        Health.failure "a"
          "Chunk slices missing for manifest last_batch_id; rerun the parser to repopulate data."
          refreshed := by
  intro w
  obtain ⟨history, last, empty⟩ := notes_last
  have distinct : ([passOver "a" "b1"].map Pass.batchId).Nodup := by decide
  obtain ⟨known, ⟨before, p, later, split, -, -, fills, -⟩, state, -, report⟩ :=
    last_batch_shows_iff history distinct last
  have none : w.store.visibleIn "b1" = [] := by
    by_contra shown
    cases before with
    | nil =>
      obtain ⟨rfl, rfl⟩ := List.cons.inj split
      exact empty (fills shown)
    | cons q before => simp at split
  refine ⟨history, distinct, last, known, none, state.lastRunCompletedAt, fun h => ?_⟩
  rw [report h, if_pos none]

/-- A batch need not show anything to be the last one. -/
theorem blank_file_makes_empty_batch : ¬ ∀ (r : Runner) (source : String) (passes : List Pass)
    (w : Workspace) (b : String), History r source passes w → (passes.map Pass.batchId).Nodup →
    r.lastBatch? w.tree source = some b →
    w.store.hasBatch b = true ∧ w.store.visibleIn b ≠ [] := by
  intro points
  obtain ⟨history, last, empty⟩ := notes_last
  obtain ⟨-, shown⟩ := points overThree "a" [passOver "a" "b1"] _ "b1" history (by decide) last
  have sound := (storeAfter_spec overThree [passOver "a" "b1"]).1.sound
  have has := (visible_iff_hasSlices sound).1 shown
  exact empty ((hasSlices_fresh [] (by decide)).1 has)

end Runner

end SourceSlices
