import SourceSlices.Proofs.OtherBatches
import SourceSlices.Run.Source

/-!
Runs over several sources that share one store. A run writes its results one after the other; what
one of them leaves of the files and batches that were there, all of them leave.
-/
namespace SourceSlices

namespace Store

variable {s t u : Store} {path batch : String}

/-- What holds of every store that calls have made. -/
structure Regular (s : Store) : Prop where
  sound : s.Sound
  numbered : s.Numbered

theorem regular_empty : empty.Regular := ⟨sound_empty, List.nodup_nil⟩

theorem regular_ensureBatch (regular : s.Regular) (b : Batch) : (s.ensureBatch b).Regular :=
  ⟨sound_ensureBatch regular.sound b, by
    simpa only [Numbered, Ledger.files_ensureBatch] using regular.numbered⟩

/-- Two stores have the same record of a path, and the same rows of the file that it is. -/
structure Keeps (s t : Store) (path : String) : Prop where
  record : t.file? path = s.file? path
  rows : ∀ id, s.fileId? path = some id → SameFile s t id

theorem Keeps.refl (s : Store) (path : String) : Keeps s s path :=
  ⟨rfl, fun id _ => .of_tables rfl rfl id⟩

theorem Keeps.trans (first : Keeps s t path) (second : Keeps t u path) : Keeps s u path where
  record := second.record.trans first.record
  rows id known := (first.rows id known).trans (second.rows id (by
    rw [fileId?, first.record]
    exact known))

theorem keeps_ensureBatch (s : Store) (b : Batch) (path : String) :
    Keeps s (s.ensureBatch b) path where
  record := by rw [file?, file?, Ledger.files_ensureBatch]
  rows id _ := .of_tables (slices_ensureBatch s b) (by unfold ensureBatch; split <;> rfl) id

/-- The record of a path names a batch. -/
def RecordedBy (s : Store) (batch path : String) : Prop :=
  ∃ row, s.file? path = some row ∧ row.info.batchId = batch

theorem RecordedBy.unique {other : String} (recorded : s.RecordedBy batch path)
    (again : s.RecordedBy other path) : batch = other := by
  obtain ⟨row, found, rfl⟩ := recorded
  obtain ⟨row', found', rfl⟩ := again
  obtain rfl := Option.some.inj (found.symm.trans found')
  rfl

theorem Keeps.recordedBy_iff (kept : Keeps s t path) :
    t.RecordedBy batch path ↔ s.RecordedBy batch path := by
  rw [RecordedBy, RecordedBy, kept.record]

/-- What is left of a store when files are written under a batch: `staged` tells their paths, and
`named` the symbols that they name under each path. -/
structure Leaves (batch : String) (staged : String → Prop) (named : String → String → Prop)
    (s t : Store) : Prop where
  regular : t.Regular
  apart : ∀ path, ¬ staged path → Keeps s t path
  numbers : ∀ path id, s.fileId? path = some id → t.fileId? path = some id
  owners : ∀ owner path, t.RecordedBy owner path → s.RecordedBy owner path ∨ owner = batch
  own : ∀ path, s.RecordedBy batch path → t.RecordedBy batch path
  spares : Spares batch s t
  unnamed : ∀ path id, s.fileId? path = some id → ∀ row ∈ s.symbolsOf id, ¬ named path row.path →
    row ∈ t.symbolsOf id

variable {staged staged' : String → Prop} {named named' : String → String → Prop}

theorem Leaves.of_keeps (regular : t.Regular) (kept : ∀ path, Keeps s t path)
    (spares : Spares batch s t) : Leaves batch staged named s t where
  regular
  apart path _ := kept path
  numbers path id known := by
    rw [fileId?, (kept path).record]
    exact known
  owners owner path recorded := Or.inl ((kept path).recordedBy_iff.1 recorded)
  own path recorded := (kept path).recordedBy_iff.2 recorded
  spares
  unnamed path id known row mem _ := ((kept path).rows id known).symbols ▸ mem

theorem Leaves.trans (first : Leaves batch staged named s t) (second : Leaves batch staged named t u) :
    Leaves batch staged named s u where
  regular := second.regular
  apart path away := (first.apart path away).trans (second.apart path away)
  numbers path id known := second.numbers path id (first.numbers path id known)
  owners owner path recorded := by
    rcases second.owners owner path recorded with before | own
    · exact first.owners owner path before
    · exact Or.inr own
  own path recorded := second.own path (first.own path recorded)
  spares := first.spares.trans second.spares
  unnamed path id known row mem away :=
    second.unnamed path id (first.numbers path id known) row
      (first.unnamed path id known row mem away) away

theorem Leaves.mono (leaves : Leaves batch staged named s t) (paths : ∀ path, staged path → staged' path)
    (symbols : ∀ path symbol, named path symbol → named' path symbol) :
    Leaves batch staged' named' s t :=
  { leaves with
    apart := fun path away => leaves.apart path fun here => away (paths path here)
    unnamed := fun path id known row mem away =>
      leaves.unnamed path id known row mem fun here => away (symbols path row.path here) }

theorem leaves_ensureBatch (regular : s.Regular) (b : Batch) :
    Leaves batch staged named s (s.ensureBatch b) :=
  .of_keeps (regular_ensureBatch regular b) (keeps_ensureBatch s b)
    (.of_slices (slices_ensureBatch s b) batch)

end Store

namespace Staging

open Store

variable {s t : Store} {now : Instant} {q : StageRequest} {o : StageOutcome}

theorem stage_recordedBy (sound : s.Sound) (done : stage s now q = .ok (t, o)) :
    t.RecordedBy q.batchId (repoPath q) := by
  obtain ⟨f, u, ⟨path, batch⟩, file, -, files⟩ := stage_file sound done
  refine ⟨⟨o.fileId, f⟩, ?_, batch⟩
  rw [← path, ← upsertFile_file file]
  simp only [file?, files]

theorem stage_keeps (regular : s.Regular) (done : stage s now q = .ok (t, o)) {path : String}
    (away : path ≠ repoPath q) : Keeps s t path :=
  ⟨stage_other regular.sound done away, fun _ known =>
    (stage_apart regular.sound regular.numbered done away known).2⟩

theorem stage_leaves (regular : s.Regular) (done : stage s now q = .ok (t, o)) :
    Leaves q.batchId (· = repoPath q)
      (fun path symbol => path = repoPath q ∧ ∃ y ∈ q.result.symbols, y.symbolId = symbol) s t where
  regular :=
    ⟨sound_stage regular.sound done, numbered_stage regular.sound regular.numbered done⟩
  apart _ := stage_keeps regular done
  numbers _ _ := stage_keeps_number regular.sound done
  owners owner path recorded := by
    by_cases here : path = repoPath q
    · subst here
      exact Or.inr (recorded.unique (stage_recordedBy regular.sound done))
    · exact Or.inl ((stage_keeps regular done here).recordedBy_iff.1 recorded)
  own path recorded := by
    by_cases here : path = repoPath q
    · subst here
      exact stage_recordedBy regular.sound done
    · exact (stage_keeps regular done here).recordedBy_iff.2 recorded
  spares := stage_spares regular.sound done
  unnamed path id known row mem away := by
    by_cases here : path = repoPath q
    · obtain ⟨inside, file⟩ := List.mem_filter.1 mem
      refine List.mem_filter.2 ⟨stage_unnamed regular.sound done inside fun y there same => ?_, file⟩
      exact away ⟨here, y, there, same.symm⟩
    · exact ((stage_keeps regular done here).rows id known).symbols ▸ mem

end Staging

/-! ### Writing the results of one plan -/

namespace StagedBatch

open Store

variable {tree : FileTree} {now : Instant} {batch : String} {g : Progress} {results : List ReadResult}

/-- The path under which a result is recorded. -/
def pathOf (x : ReadResult) : String := Runner.displayPath x.2.file.path

/-- The planned files that have been written. -/
def Progress.entries (g : Progress) : List PlanEntry := g.staged.files.map Prod.fst

/-- Some result that is listed as written has the path. -/
def StagedAmong (written : List PlanEntry) (results : List ReadResult) (path : String) : Prop :=
  ∃ x ∈ results, x.1 ∈ written ∧ pathOf x = path

/-- Some result that is listed as written has the path and names the symbol. -/
def NamedAmong (written : List PlanEntry) (results : List ReadResult) (path symbol : String) : Prop :=
  ∃ x ∈ results, x.1 ∈ written ∧ pathOf x = path ∧ ∃ y ∈ x.2.symbols, y.symbolId = symbol

/-- What is left of a store when the listed results are written. -/
def LeavesAmong (batch : String) (written : List PlanEntry) (results : List ReadResult) :
    Store → Store → Prop :=
  Leaves batch (StagedAmong written results) (NamedAmong written results)

theorem LeavesAmong.mono {s t : Store} {written listed : List PlanEntry} {more : List ReadResult}
    (leaves : LeavesAmong batch written results s t) (wider : written ⊆ listed)
    (larger : results ⊆ more) : LeavesAmong batch listed more s t :=
  Leaves.mono leaves
    (fun _ ⟨x, mem, there, here⟩ => ⟨x, larger mem, wider there, here⟩)
    (fun _ _ ⟨x, mem, there, named⟩ => ⟨x, larger mem, wider there, named⟩)

/-- What becomes of one result: it changes nothing, or it is written and listed. -/
inductive Added (batch : String) (x : ReadResult) (g h : Progress) : Prop where
  | nothing (store : h.store = g.store) (entries : h.entries = g.entries)
  | written (own : h.store.RecordedBy batch (pathOf x))
      (leaves : LeavesAmong batch [x.1] [x] g.store h.store) (entries : h.entries = g.entries ++ [x.1])

theorem added_of_staged (regular : g.store.Regular) {q : StageRequest} {o : StageOutcome}
    {store : Store} (done : Staging.stage g.store now q = .ok (store, o)) (e : PlanEntry) {h : Progress}
    (finished : h.store = store) (entries : h.entries = g.entries ++ [e]) :
    Added q.batchId (e, q.result) g h := by
  subst finished
  have here : pathOf (e, q.result) = Staging.repoPath q := rfl
  refine .written (here ▸ Staging.stage_recordedBy regular.sound done) ?_ entries
  refine (Staging.stage_leaves regular done).mono (fun path own => ?_) fun path symbol own => ?_
  · exact ⟨_, List.mem_cons_self, List.mem_cons_self, here.trans own.symm⟩
  · exact ⟨_, List.mem_cons_self, List.mem_cons_self, here.trans own.1.symm, own.2⟩

theorem added (tree : FileTree) (now : Instant) (batch : String) (regular : g.store.Regular)
    (x : ReadResult) : Added batch x g (g.add tree now batch x) := by
  obtain ⟨e, result⟩ := x
  unfold Progress.add
  by_cases unread : (!result.errors.isEmpty) = true
  · simp only [unread, if_true]
    exact .nothing rfl rfl
  · simp only [unread, if_false, Bool.false_eq_true]
    split
    · rename_i done
      refine added_of_staged regular done e rfl ?_
      simp only [Progress.entries, Progress.finish, List.map_append, List.map_cons, List.map_nil]
    · exact .nothing rfl rfl

theorem leaves_self {s : Store} {written : List PlanEntry} (regular : s.Regular) :
    LeavesAmong batch written results s s :=
  .of_keeps regular (Keeps.refl s) (.of_slices rfl batch)

theorem Added.leaves {x : ReadResult} {h : Progress} (step : Added batch x g h)
    (regular : g.store.Regular) : LeavesAmong batch h.entries [x] g.store h.store := by
  cases step with
  | nothing store =>
    rw [store]
    exact leaves_self regular
  | written _ leaves entries => exact leaves.mono (by simp [entries]) (List.Subset.refl _)

theorem Added.entries_iff {x : ReadResult} {h : Progress} (step : Added batch x g h) {e : PlanEntry} :
    e ∈ h.entries ↔ e ∈ g.entries ∨ e = x.1 ∧ x.1 ∈ h.entries := by
  cases step with
  | nothing _ entries =>
    rw [entries]
    exact ⟨Or.inl, fun mem => mem.elim id fun ⟨same, own⟩ => same ▸ own⟩
  | written _ _ entries => simp [entries]

def addAll (tree : FileTree) (now : Instant) (batch : String) (g : Progress)
    (results : List ReadResult) : Progress :=
  results.foldl (Progress.add tree now batch) g

/-- What writing all results leaves; the list of written files only grows, and by their entries. -/
theorem addAll_spec (tree : FileTree) (now : Instant) (batch : String) (results : List ReadResult)
    (regular : g.store.Regular) :
    LeavesAmong batch (addAll tree now batch g results).entries results g.store
        (addAll tree now batch g results).store ∧
      g.entries ⊆ (addAll tree now batch g results).entries ∧
      (addAll tree now batch g results).entries ⊆ g.entries ++ results.map Prod.fst := by
  induction results generalizing g with
  | nil => exact ⟨leaves_self regular, List.Subset.refl _, List.subset_append_left _ _⟩
  | cons x rest ih =>
    have step := added tree now batch regular x
    have first := step.leaves regular
    obtain ⟨leaves, grows, origin⟩ := ih first.regular
    refine ⟨?_, fun e old => grows (step.entries_iff.2 (Or.inl old)), fun e mem => ?_⟩
    · exact (first.mono grows (by simp)).trans
        (leaves.mono (List.Subset.refl _) (List.subset_cons_self _ _))
    · simp only [List.map_cons, List.mem_append, List.mem_cons]
      rcases List.mem_append.1 (origin mem) with before | later
      · rcases step.entries_iff.1 before with old | ⟨same, -⟩
        · exact Or.inl old
        · exact Or.inr (Or.inl same)
      · exact Or.inr (Or.inr later)

theorem recordedBy_addAll (regular : g.store.Regular) (distinct : (results.map Prod.fst).Nodup)
    (fresh : ∀ e ∈ results.map Prod.fst, e ∉ g.entries) {x : ReadResult} (mem : x ∈ results)
    (listed : x.1 ∈ (addAll tree now batch g results).entries) :
    (addAll tree now batch g results).store.RecordedBy batch (pathOf x) := by
  induction results generalizing g with
  | nil => cases mem
  | cons y rest ih =>
    have step := added tree now batch regular y
    have after := (step.leaves regular).regular
    simp only [List.map_cons, List.nodup_cons] at distinct
    rcases List.mem_cons.1 mem with rfl | later
    · -- No later result has this entry, so it was listed for `x` itself.
      obtain ⟨leaves, -, origin⟩ := addAll_spec tree now batch rest after
      have here : x.1 ∈ (g.add tree now batch x).entries :=
        (List.mem_append.1 (origin listed)).resolve_right distinct.1
      refine leaves.own _ ?_
      cases step with
      | nothing _ entries => exact absurd (entries ▸ here) (fresh _ List.mem_cons_self)
      | written own => exact own
    · refine ih after distinct.2 (fun e inside old => ?_) later listed
      rcases step.entries_iff.1 old with before | ⟨rfl, -⟩
      · exact fresh e (List.mem_cons_of_mem _ inside) before
      · exact distinct.1 inside

theorem distinct_of_accepted {plan : RunPlan} {seen : List String}
    (accepted : complaint? plan seen results = none) :
    (results.map Prod.fst).Nodup ∧ ∀ x ∈ results, x.1.relative ∉ seen := by
  induction results generalizing seen with
  | nil => exact ⟨List.nodup_nil, fun _ mem => by cases mem⟩
  | cons x rest ih =>
    simp only [complaint?] at accepted
    split at accepted
    · cases accepted
    · split at accepted
      · cases accepted
      · rename_i unseen
        split at accepted
        · cases accepted
        · obtain ⟨distinct, others⟩ := ih accepted
          refine ⟨List.nodup_cons.2 ⟨fun again => ?_, distinct⟩, fun y mem old => ?_⟩
          · obtain ⟨y, mem, same⟩ := List.mem_map.1 again
            exact others y mem (by rw [same]; exact List.mem_cons_self)
          · rcases List.mem_cons.1 mem with rfl | later
            · exact unseen (by simpa using old)
            · exact others y later (List.mem_cons_of_mem _ old)

theorem addAll_unread (unread : ∀ x ∈ results, (!x.2.errors.isEmpty) = true) :
    (addAll tree now batch g results).entries = g.entries := by
  induction results generalizing g with
  | nil => rfl
  | cons x rest ih =>
    have skipped : g.add tree now batch x = g.skip := by
      simp only [Progress.add, unread x List.mem_cons_self, if_true]
    rw [addAll, List.foldl_cons, skipped]
    exact ih fun y mem => unread y (List.mem_cons_of_mem _ mem)

/-- Writing a batch without results does nothing; else the results are written after the batch. -/
theorem stage_writes {store out : Store} {ref : Option String} {plan : RunPlan}
    {staged : StagedBatch} (done : stage store tree now batch ref plan results = .ok (out, staged)) :
    (out = store ∧ staged.files.map Prod.fst = []) ∨
      (results.map Prod.fst).Nodup ∧ ∃ (b : Batch) (start : Progress),
        start.store = store.ensureBatch b ∧ start.entries = [] ∧
        out = (addAll tree now batch start results).store ∧
        staged.files.map Prod.fst = (addAll tree now batch start results).entries := by
  unfold stage at done
  split at done
  · cases done
    exact Or.inl ⟨rfl, rfl⟩
  · split at done
    · cases done
    · rename_i accepted
      cases done
      exact Or.inr ⟨(distinct_of_accepted accepted).1, _, _, rfl, rfl, rfl, rfl⟩

end StagedBatch

/-! ### Runs -/

namespace Runner

open Store StagedBatch

/-- A call of `run`, with the files as they are at that time. -/
structure Pass where
  tree : FileTree
  now : Instant
  fresh : String
  source : String
  scope : List String := []
  batch : Option String := none

def Pass.batchId (p : Pass) : String := p.batch.getD p.fresh

variable (r : Runner) (s : Store) (p : Pass)

/-- The store after a call. -/
def next : Store := (r.run ⟨p.tree, s⟩ p.now p.fresh p.source p.scope p.batch).1.store

/-- The store after a history of calls, all of them over the same store. -/
def storeAfter (passes : List Pass) : Store := passes.foldl r.next .empty

/-- What the handlers make of the planned files. -/
def resultsOf : List ReadResult :=
  match r.plan p.tree p.source p.scope with
  | .error _ => []
  | .ok plan => r.readPlan p.tree plan

/-- The planned files that a call writes. -/
def writtenEntries : List PlanEntry :=
  match r.plan p.tree p.source p.scope with
  | .error _ => []
  | .ok plan =>
    match StagedBatch.stage s p.tree p.now p.batchId (some (shortRef p.batchId)) (timed plan)
      (r.readPlan p.tree plan) with
    | .error _ => []
    | .ok (_, staged) => staged.files.map Prod.fst

/-- A call stages a file under a path. -/
def Stages : String → Prop := StagedAmong (r.writtenEntries s p) (r.resultsOf p)

/-- A call stages a file under a path that names a symbol. -/
def Names : String → String → Prop := NamedAmong (r.writtenEntries s p) (r.resultsOf p)

variable {r s p}

/-- The manifest has no part in what a call writes. -/
theorem next_eq : r.next s p =
    match r.plan p.tree p.source p.scope with
    | .error _ => s
    | .ok plan =>
      (write ⟨p.tree, s⟩ p.now p.batchId (timed plan) (r.readPlan p.tree plan)).store := by
  unfold next run
  cases r.plan p.tree p.source p.scope with
  | error _ => rfl
  | ok plan =>
    simp only
    split <;> rfl

/-- A call writes nothing, or it writes the results into the store with its batch. -/
theorem next_cases : (r.next s p = s ∧ r.writtenEntries s p = []) ∨
    ((r.resultsOf p).map Prod.fst).Nodup ∧ ∃ (b : Batch) (start : Progress),
      start.store = s.ensureBatch b ∧ start.entries = [] ∧
      r.next s p = (addAll p.tree p.now p.batchId start (r.resultsOf p)).store ∧
      r.writtenEntries s p = (addAll p.tree p.now p.batchId start (r.resultsOf p)).entries := by
  rw [next_eq, writtenEntries, resultsOf]
  cases r.plan p.tree p.source p.scope with
  | error _ => exact Or.inl ⟨rfl, rfl⟩
  | ok plan =>
    simp only [write]
    generalize r.readPlan p.tree plan = results
    cases staging : StagedBatch.stage s p.tree p.now p.batchId (some (shortRef p.batchId))
      (timed plan) results with
    | error _ =>
      refine Or.inl ⟨?_, rfl⟩
      split <;> rfl
    | ok made =>
      obtain ⟨out, staged⟩ := made
      split
      · -- Nothing could be read: staging would list no file either.
        rename_i unread
        refine Or.inl ⟨rfl, ?_⟩
        obtain ⟨-, none⟩ | ⟨-, b, start, -, empty, -, listed⟩ := stage_writes staging
        · exact none
        · simp only [listed]
          rw [addAll_unread (by simpa using unread), empty]
      · exact stage_writes staging

theorem next_leaves (regular : s.Regular) :
    Leaves p.batchId (r.Stages s p) (r.Names s p) s (r.next s p) := by
  obtain ⟨same, -⟩ | ⟨-, b, start, before, -, after, listed⟩ := next_cases (r := r) (s := s) (p := p)
  · rw [same]
    exact leaves_self regular
  · have ensured : start.store.Regular := before ▸ regular_ensureBatch regular b
    have leaves := (addAll_spec p.tree p.now p.batchId (r.resultsOf p) ensured).1
    rw [← listed, ← after, before] at leaves
    exact (leaves_ensureBatch regular b).trans leaves

theorem next_recordedBy (regular : s.Regular) {path : String} (stages : r.Stages s p path) :
    (r.next s p).RecordedBy p.batchId path := by
  obtain ⟨x, mem, written, rfl⟩ := stages
  obtain ⟨-, none⟩ | ⟨distinct, b, start, before, empty, after, listed⟩ :=
    next_cases (r := r) (s := s) (p := p)
  · rw [none] at written
    cases written
  · rw [after]
    refine recordedBy_addAll (before ▸ regular_ensureBatch regular b) distinct ?_ mem
      (listed ▸ written)
    simp [empty]

variable (r) in
theorem storeAfter_snoc (before : List Pass) (p : Pass) :
    r.storeAfter (before ++ [p]) = r.next (r.storeAfter before) p := by
  simp [storeAfter, List.foldl_append]

/-- After every history the store is in order, and its records name batches of the history. -/
theorem storeAfter_spec (r : Runner) (passes : List Pass) :
    (r.storeAfter passes).Regular ∧ ∀ owner path, (r.storeAfter passes).RecordedBy owner path →
      owner ∈ passes.map Pass.batchId := by
  induction passes using List.reverseRecOn with
  | nil =>
    refine ⟨regular_empty, fun owner path ⟨row, found, _⟩ => ?_⟩
    cases found
  | append_singleton before p ih =>
    obtain ⟨regular, owners⟩ := ih
    rw [storeAfter_snoc, List.map_append]
    have leaves := next_leaves (r := r) (p := p) regular
    refine ⟨leaves.regular, fun owner path recorded => List.mem_append.2 ?_⟩
    rcases leaves.owners owner path recorded with old | rfl
    · exact Or.inl (owners owner path old)
    · exact Or.inr List.mem_cons_self

end Runner

end SourceSlices
