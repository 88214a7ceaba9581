import SourceSlices.Proofs.GrownStores
import SourceSlices.Proofs.RecordedPaths
import SourceSlices.Proofs.RunAccounts

/-!
The results of a batch one by one. Whether a result can be written does not depend on what was written
before, and a result whose path no other has is written as it would be if it were the only one.
-/
namespace SourceSlices

theorem ne_of_nodup_map {α β : Type} {f : α → β} {before after : List α} {x y : α}
    (once : ((before ++ x :: after).map f).Nodup) (mem : y ∈ before) : f y ≠ f x := by
  rw [List.map_append, List.nodup_append] at once
  exact once.2.2 _ (List.mem_map_of_mem mem) _ (List.mem_map_of_mem List.mem_cons_self)

namespace Staging

variable {q : StageRequest} {now : Instant} {s t : Store}

theorem stage_succeeds_again (known : t.hasBatch q.batchId = true) (done : Succeeds (stage s now q)) :
    Succeeds (stage t now q) :=
  (stage_succeeds_iff now).2 { (stage_succeeds_iff now).1 done with batch := known }

end Staging

namespace StagedBatch

open Store

variable {tree : FileTree} {now : Instant} {batch : String} {start g h : Progress} {x y : ReadResult}
  {results : List ReadResult} {m : RunMetrics}

/-! ### Results that belong to a plan -/

/-- A result is for a planned file, and says so. -/
def Belongs (p : RunPlan) (x : ReadResult) : Prop :=
  (∃ e ∈ p.entries, e.relative = x.1.relative) ∧ Path.key x.2.file.path = Path.key x.1.relative

theorem accepted_cons_iff {p : RunPlan} {seen : List String} :
    complaint? p seen (x :: results) = none ↔ Belongs p x ∧ x.1.relative ∉ seen ∧
      complaint? p (x.1.relative :: seen) results = none := by
  obtain ⟨e, result⟩ := x
  have planned : p.entries.any (·.relative = e.relative) = true ↔
      ∃ d ∈ p.entries, d.relative = e.relative := by
    simp
  simp only [complaint?, Belongs, ← planned]
  split
  · simp_all
  · split
    · simp_all
    · split <;> simp_all

/-- Results are accepted if each belongs to the plan and no file has two. -/
theorem accepted_iff {p : RunPlan} {seen : List String} : complaint? p seen results = none ↔
    (∀ x ∈ results, Belongs p x ∧ x.1.relative ∉ seen) ∧ (results.map (·.1.relative)).Nodup := by
  induction results generalizing seen with
  | nil => simp [complaint?]
  | cons x rest ih =>
    rw [accepted_cons_iff, ih, List.forall_mem_cons, List.map_cons, List.nodup_cons]
    constructor
    · rintro ⟨own, new, others, distinct⟩
      refine ⟨⟨⟨own, new⟩, fun y mem => ⟨(others y mem).1, fun old => (others y mem).2 ?_⟩⟩,
        fun again => ?_, distinct⟩
      · exact List.mem_cons_of_mem _ old
      · obtain ⟨y, mem, same⟩ := List.mem_map.1 again
        exact (others y mem).2 (same ▸ List.mem_cons_self)
    · rintro ⟨⟨⟨own, new⟩, others⟩, apart, distinct⟩
      refine ⟨own, new, fun y mem => ⟨(others y mem).1, fun old => ?_⟩, distinct⟩
      rcases List.mem_cons.1 old with same | old
      · exact apart (List.mem_map.2 ⟨y, mem, same⟩)
      · exact (others y mem).2 old

/-! ### One result -/

/-- What is handed to the store of a result. -/
def requestOf (tree : FileTree) (batch : String) (versions : SortedMap String) (x : ReadResult) :
    StageRequest where
  batchId := batch
  handlerName := x.1.selection.name
  handlerVersion := x.1.selection.version
  versions
  result := x.2
  fileSha := some x.1.hash
  mtimeNs := mtimeOf tree x.1.path

/-- What becomes of a result whose handler is known already. -/
inductive Handled (tree : FileTree) (now : Instant) (batch : String) (x : ReadResult) (g : Progress) :
    Progress → Prop where
  | unread (errors : x.2.errors ≠ []) : Handled tree now batch x g g.skip
  | failed {fault : Error} (read : x.2.errors = [])
      (stopped : Staging.stage g.store now (requestOf tree batch g.versions x) = .error fault) :
      Handled tree now batch x g (g.fail x.1.relative fault.message)
  | staged {store : Store} {o : StageOutcome} (read : x.2.errors = [])
      (done : Staging.stage g.store now (requestOf tree batch g.versions x) = .ok (store, o)) :
      Handled tree now batch x g (g.finish x.1 store o)

theorem handled_add (tree : FileTree) (now : Instant) (batch : String)
    (covered : g.versions.contains x.1.selection.name = true) :
    Handled tree now batch x g (g.add tree now batch x) := by
  obtain ⟨e, result⟩ := x
  replace covered : g.versions.contains e.selection.name = true := covered
  unfold Progress.add
  cases read : result.errors.isEmpty with
  | false =>
    simp only [read, Bool.not_false, if_true]
    exact .unread fun none => by simp [show result.errors = [] from none] at read
  | true =>
    simp only [read, Bool.not_true, Bool.false_eq_true, if_false, covered, if_true]
    have errors : result.errors = [] := List.isEmpty_iff.1 read
    split
    · rename_i done
      exact .staged (x := (e, result)) errors done
    · rename_i stopped
      exact .failed (x := (e, result)) errors stopped

/-- What staging needs of the store, and what it leaves so. -/
structure Open (batch : String) (g : Progress) : Prop where
  regular : g.store.Regular
  referenced : g.store.Referenced
  known : g.store.hasBatch batch = true

theorem Handled.versions (step : Handled tree now batch x g h) : h.versions = g.versions := by
  cases step <;> rfl

theorem Handled.grows (step : Handled tree now batch x g h) : Grows g.store h.store := by
  cases step with
  | unread _ => exact Grows.refl _
  | failed _ _ => exact Grows.refl _
  | staged _ done => exact Staging.grows_stage done

theorem Handled.isOpen (step : Handled tree now batch x g h) (ready : Open batch g) : Open batch h := by
  cases step with
  | unread _ => exact ⟨ready.regular, ready.referenced, ready.known⟩
  | failed _ _ => exact ⟨ready.regular, ready.referenced, ready.known⟩
  | staged _ done =>
    refine ⟨(Staging.stage_leaves ready.regular done).regular,
      Staging.referenced_stage ready.referenced done, ?_⟩
    show Store.hasBatch _ batch = true
    rw [hasBatch, Progress.finish, Staging.stage_batches ready.regular.sound done]
    exact ready.known

/-- A result that is handled at the start of a batch, and also after others: nothing comes of it both
times, or it is written both times, with the same rows up to the numbers. -/
inductive HandledTwice (x : ReadResult) (start first g h : Progress) : Prop where
  | nothing (alone : first.store = start.store) (store : h.store = g.store)
      (unlisted : first.staged.files = start.staged.files) (files : h.staged.files = g.staged.files)
  | staged {o : StageOutcome} (listed : first.staged.files = start.staged.files ++ [(x.1, o)])
      (files : h.staged.files =
        g.staged.files ++ [(x.1, (Renaming.between start.store g.store).outcome o)])
      (number : first.store.fileId? (pathOf x) = some o.fileId)
      (alike : Alike (Renaming.between start.store g.store) first.store h.store o.fileId)
      (record : h.store.file? (pathOf x) =
        (first.store.file? (pathOf x)).map (Renaming.between start.store g.store).fileRow)

theorem Handled.twice {first : Progress} (alone : Handled tree now batch x start first)
    (step : Handled tree now batch x g h) (versions : g.versions = start.versions)
    (ready : Open batch start) (ready' : Open batch g) (grows : Grows start.store g.store)
    (kept : Keeps start.store g.store (pathOf x)) : HandledTwice x start first g h := by
  -- Of the store, staging needs only the batch: it cannot fail at one place and succeed at the other.
  have again {s t : Store} (known : t.hasBatch batch = true)
      (done : Succeeds (Staging.stage s now (requestOf tree batch start.versions x))) :
      Succeeds (Staging.stage t now (requestOf tree batch start.versions x)) :=
    Staging.stage_succeeds_again known done
  cases alone with
  | unread errors =>
    cases step with
    | unread _ => exact .nothing rfl rfl rfl rfl
    | failed _ _ => exact .nothing rfl rfl rfl rfl
    | staged read _ => exact absurd read errors
  | failed read stopped =>
    cases step with
    | unread _ => exact .nothing rfl rfl rfl rfl
    | failed _ _ => exact .nothing rfl rfl rfl rfl
    | staged _ done =>
      rw [versions] at done
      obtain ⟨_, done⟩ := again ready.known ⟨_, done⟩
      cases done.symm.trans stopped
  | staged read done =>
    cases step with
    | unread errors => exact absurd read errors
    | failed _ stopped =>
      rw [versions] at stopped
      obtain ⟨_, done⟩ := again ready'.known ⟨_, done⟩
      cases done.symm.trans stopped
    | staged _ done' =>
      rw [versions] at done'
      have here : pathOf x = Staging.repoPath (requestOf tree batch start.versions x) := rfl
      rw [here] at kept
      obtain ⟨alike, counts, record⟩ := Staging.stage_grown ready.regular.sound ready.referenced
        ready'.regular.sound ready'.referenced grows kept done done'
      have number := Staging.stage_fileId ready.regular.sound done
      rw [counts]
      exact .staged rfl rfl number alike record

/-! ### All results -/

theorem addAll_snoc (tree : FileTree) (now : Instant) (batch : String) (g : Progress)
    (results : List ReadResult) (x : ReadResult) :
    addAll tree now batch g (results ++ [x]) =
      (addAll tree now batch g results).add tree now batch x := by
  simp [addAll, List.foldl_append]

theorem addAll_append (tree : FileTree) (now : Instant) (batch : String) (g : Progress)
    (first rest : List ReadResult) : addAll tree now batch g (first ++ rest) =
      addAll tree now batch (addAll tree now batch g first) rest := by
  simp [addAll, List.foldl_append]

/-- The handlers of all results are known. -/
def Covered (versions : SortedMap String) (results : List ReadResult) : Prop :=
  ∀ x ∈ results, versions.contains x.1.selection.name = true

/-- What holds at the start and is kept by each result holds after all of them; no handler becomes
known meanwhile. -/
theorem addAll_induction {P : List ReadResult → Progress → Prop}
    (covered : Covered start.versions results) (begin : P [] start)
    (step : ∀ {l : List ReadResult} {x : ReadResult} {g h : Progress}, l ++ [x] <+: results → P l g →
      Handled tree now batch x g h → P (l ++ [x]) h) :
    P results (addAll tree now batch start results) ∧
      (addAll tree now batch start results).versions = start.versions := by
  suffices all : ∀ l, l <+: results → P l (addAll tree now batch start l) ∧
      (addAll tree now batch start l).versions = start.versions from all results List.prefix_rfl
  -- Induction on what has been written so far, which stays a beginning of the results.
  intro l
  induction l using List.reverseRecOn with
  | nil => exact fun _ => ⟨begin, rfl⟩
  | append_singleton l x ih =>
    intro within
    obtain ⟨before, versions⟩ := ih ((List.prefix_append l [x]).trans within)
    have handled := handled_add tree now batch (g := addAll tree now batch start l) (x := x) (by
      rw [versions]
      exact covered x (within.subset List.mem_append_cons_self))
    rw [addAll_snoc]
    exact ⟨step within before handled, handled.versions.trans versions⟩

variable (tree now) in
theorem addAll_open (ready : Open batch start) (covered : Covered start.versions results) :
    Open batch (addAll tree now batch start results) ∧
      Grows start.store (addAll tree now batch start results).store :=
  (addAll_induction (P := fun _ g => Open batch g ∧ Grows start.store g.store) covered
    ⟨ready, Grows.refl _⟩
    fun _ before handled => ⟨handled.isOpen before.1, before.2.trans handled.grows⟩).1

theorem versions_addAll (covered : Covered start.versions results) :
    (addAll tree now batch start results).versions = start.versions :=
  (addAll_induction (P := fun _ _ => True) covered trivial fun _ _ _ => trivial).2

theorem keeps_addAll (ready : Open batch start) {path : String} (away : ∀ x ∈ results, pathOf x ≠ path) :
    Keeps start.store (addAll tree now batch start results).store path :=
  (addAll_spec tree now batch results ready.regular).1.apart path
    fun ⟨x, mem, _, here⟩ => away x mem here

variable (tree now) in
theorem twice_snoc (ready : Open batch start) (covered : Covered start.versions (results ++ [x]))
    (apart : ((results ++ [x]).map pathOf).Nodup) :
    HandledTwice x start (start.add tree now batch x) (addAll tree now batch start results)
      (addAll tree now batch start (results ++ [x])) := by
  have mine (y : ReadResult) (mem : y ∈ results) := covered y (List.mem_append_left _ mem)
  have own := covered x List.mem_append_cons_self
  have versions : (addAll tree now batch start results).versions = start.versions :=
    versions_addAll mine
  obtain ⟨readyNow, grows⟩ := addAll_open tree now ready mine
  have kept : Keeps start.store (addAll tree now batch start results).store (pathOf x) :=
    keeps_addAll ready fun y mem => ne_of_nodup_map apart mem
  rw [addAll_snoc]
  exact (handled_add tree now batch own).twice (handled_add tree now batch (by rwa [versions])) versions
    ready readyNow grows kept

theorem HandledTwice.distances {first : Progress} (twice : HandledTwice x start first g h) :
    h.store.lastFile - g.store.lastFile = first.store.lastFile - start.store.lastFile ∧
      h.store.lastSymbol - g.store.lastSymbol = first.store.lastSymbol - start.store.lastSymbol ∧
      h.store.lastSlice - g.store.lastSlice = first.store.lastSlice - start.store.lastSlice := by
  cases twice with
  | nothing alone store =>
    rw [alone, store]
    simp only [Int.sub_self, and_self]
  | staged _ _ _ alike _ =>
    have file := (follows_shift _ _).distance alike.nextFile
    have symbol := (follows_shift _ _).distance alike.nextSymbol
    have slice := (follows_shift _ _).distance alike.nextSlice
    omega

/-- How many numbers of a kind a result takes if it is the only one. -/
def taken (tree : FileTree) (now : Instant) (batch : String) (last : Store → Int) (start : Progress)
    (x : ReadResult) : Int :=
  last (start.add tree now batch x).store - last start.store

theorem last_addAll {last : Store → Int}
    (step : ∀ {x first g h}, HandledTwice x start first g h →
      last h.store - last g.store = last first.store - last start.store)
    (ready : Open batch start) (covered : Covered start.versions results)
    (apart : (results.map pathOf).Nodup) :
    last (addAll tree now batch start results).store =
      last start.store + (results.map (taken tree now batch last start)).sum := by
  induction results using List.reverseRecOn with
  | nil => simp [addAll]
  | append_singleton results x ih =>
    have own := step (twice_snoc tree now ready covered apart)
    rw [List.map_append, List.nodup_append] at apart
    have here := ih (fun y mem => covered y (List.mem_append_left _ mem)) apart.1
    simp only [List.map_append, List.map_singleton, List.sum_append, List.sum_singleton]
    rw [taken]
    omega

variable (tree now) in
/-- What is left of a result when all are written: it is as it would be if it were the only one. -/
theorem addAll_at (ready : Open batch start) {before after : List ReadResult}
    (covered : Covered start.versions (before ++ x :: after))
    (apart : ((before ++ x :: after).map pathOf).Nodup) :
    HandledTwice x start (start.add tree now batch x) (addAll tree now batch start before)
        (addAll tree now batch start (before ++ [x])) ∧
      Keeps (addAll tree now batch start (before ++ [x])).store
        (addAll tree now batch start (before ++ x :: after)).store (pathOf x) := by
  have split : before ++ x :: after = (before ++ [x]) ++ after := by simp
  rw [split] at covered apart ⊢
  rw [List.map_append, List.nodup_append] at apart
  obtain ⟨first, -, later⟩ := apart
  have mine (y : ReadResult) (mem : y ∈ before ++ [x]) := covered y (List.mem_append_left _ mem)
  refine ⟨twice_snoc tree now ready mine first, ?_⟩
  rw [addAll_append _ _ _ _ (before ++ [x])]
  refine keeps_addAll (addAll_open tree now ready mine).1 fun y mem same => ?_
  exact later (pathOf x) (List.mem_map_of_mem List.mem_append_cons_self) _
    (List.mem_map_of_mem mem) same.symm

/-! ### What is listed -/

/-- A result is written as the only one, with this outcome. -/
def Lists (tree : FileTree) (now : Instant) (batch : String) (start : Progress) (x : ReadResult)
    (o : StageOutcome) : Prop :=
  (start.add tree now batch x).staged.files = [(x.1, o)]

/-- Exactly the results are listed that would be if they were the only ones. -/
theorem mem_files_addAll (ready : Open batch start) (none : start.staged.files = [])
    (covered : Covered start.versions results) (apart : (results.map pathOf).Nodup)
    {e : PlanEntry × StageOutcome} : e ∈ (addAll tree now batch start results).staged.files ↔
      ∃ before x after o, results = before ++ x :: after ∧ Lists tree now batch start x o ∧
        e = (x.1, (Renaming.between start.store (addAll tree now batch start before).store).outcome o) := by
  induction results using List.reverseRecOn with
  | nil =>
    refine iff_of_false (by simp [addAll, none]) ?_
    rintro ⟨before, x, after, o, split, -⟩
    simp at split
  | append_singleton results x ih =>
    have twice := twice_snoc tree now ready covered apart
    rw [List.map_append, List.nodup_append] at apart
    have ih := ih (fun y mem => covered y (List.mem_append_left _ mem)) apart.1
    -- The last result adds its own entry or nothing.
    have added : e ∈ (addAll tree now batch start (results ++ [x])).staged.files ↔
        e ∈ (addAll tree now batch start results).staged.files ∨ ∃ o, Lists tree now batch start x o ∧
          e = (x.1,
            (Renaming.between start.store (addAll tree now batch start results).store).outcome o) := by
      simp only [Lists]
      cases twice with
      | nothing _ _ unlisted files => simp [files, unlisted, none]
      | staged listed files _ _ _ => simp [files, listed, none]
    rw [added, ih]
    constructor
    · rintro (⟨before, y, after, o, rfl, listed⟩ | ⟨o, listed⟩)
      · exact ⟨before, y, after ++ [x], o, by simp, listed⟩
      · exact ⟨results, x, [], o, rfl, listed⟩
    · rintro ⟨before, y, after, o, split, listed⟩
      rcases List.eq_nil_or_concat after with rfl | ⟨after, z, rfl⟩
      · obtain ⟨rfl, same⟩ := List.append_inj' split rfl
        cases same
        exact Or.inr ⟨o, listed⟩
      · rw [List.concat_eq_append, ← List.cons_append, ← List.append_assoc] at split
        exact Or.inl ⟨before, y, after, o, (List.append_inj' split rfl).1, listed⟩

/-- What the lists tell of the results: a result that is listed had no errors, and a failure is told of
a result that is not listed. -/
structure Told (results : List ReadResult) (g : Progress) : Prop where
  listed : ∀ e ∈ g.entries, ∃ x ∈ results, x.1 = e ∧ x.2.errors = []
  failed : ∀ path ∈ g.staged.failures.map Prod.fst, path ∈ results.map (·.1.relative)
  apart : ∀ e ∈ g.entries, e.relative ∉ g.staged.failures.map Prod.fst

theorem Handled.told (step : Handled tree now batch x g h) (told : Told results g)
    (new : x.1.relative ∉ results.map (·.1.relative)) : Told (results ++ [x]) h := by
  have before (e : PlanEntry) (mem : e ∈ g.entries) : ∃ y ∈ results ++ [x], y.1 = e ∧ y.2.errors = [] := by
    obtain ⟨y, inside, own⟩ := told.listed e mem
    exact ⟨y, List.mem_append_left _ inside, own⟩
  have known (path : String) (mem : path ∈ g.staged.failures.map Prod.fst) :
      path ∈ (results ++ [x]).map (·.1.relative) := by
    rw [List.map_append]
    exact List.mem_append_left _ (told.failed path mem)
  -- The path of the new result is not among the earlier ones, so it neither was staged nor failed before.
  cases step with
  | unread _ => exact ⟨before, known, told.apart⟩
  | @failed fault _ _ =>
    have failures : (g.fail x.1.relative fault.message).staged.failures.map Prod.fst =
        g.staged.failures.map Prod.fst ++ [x.1.relative] := by
      simp only [Progress.fail, Progress.skip, List.map_append, List.map_cons, List.map_nil]
    refine ⟨before, fun path mem => ?_, fun e mem named => ?_⟩
    · rcases List.mem_append.1 (failures ▸ mem) with old | here
      · exact known path old
      · rw [List.mem_singleton.1 here, List.map_append]
        exact List.mem_append_cons_self
    · rcases List.mem_append.1 (failures ▸ named) with old | here
      · exact told.apart e mem old
      · obtain ⟨y, inside, rfl, -⟩ := told.listed e mem
        exact new (List.mem_singleton.1 here ▸ List.mem_map_of_mem inside)
  | @staged store o read _ =>
    have entries : (g.finish x.1 store o).entries = g.entries ++ [x.1] := by
      simp only [Progress.entries, Progress.finish, List.map_append, List.map_cons, List.map_nil]
    refine ⟨fun e mem => ?_, known, fun e mem named => ?_⟩
    · rcases List.mem_append.1 (entries ▸ mem) with old | here
      · exact before e old
      · exact ⟨x, List.mem_append_cons_self, (List.mem_singleton.1 here).symm, read⟩
    · rcases List.mem_append.1 (entries ▸ mem) with old | here
      · exact told.apart e old named
      · exact new (told.failed _ (List.mem_singleton.1 here ▸ named))

theorem told_addAll (fresh : start.staged.files = [] ∧ start.staged.failures = [])
    (covered : Covered start.versions results) (distinct : (results.map (·.1.relative)).Nodup) :
    Told results (addAll tree now batch start results) := by
  refine (addAll_induction covered ?_ fun {l x _ _} within told handled => handled.told told ?_).1
  · constructor <;> simp [Progress.entries, fresh]
  · intro old
    obtain ⟨y, mem, same⟩ := List.mem_map.1 old
    exact ne_of_nodup_map ((within.sublist.map (·.1.relative)).nodup distinct) mem same

/-- The counters of chunks are sums over the listed files. -/
structure Sums (m : RunMetrics) (b : StagedBatch) : Prop where
  emitted : b.metrics.chunksEmitted = m.chunksEmitted + (b.files.map (·.2.chunksInserted)).sum
  reused : b.metrics.chunksReused = m.chunksReused + (b.files.map (·.2.chunksReused)).sum

theorem Handled.sums (step : Handled tree now batch x g h) (sums : Sums m g.staged) :
    Sums m h.staged := by
  cases step with
  | unread _ => exact ⟨sums.emitted, sums.reused⟩
  | failed _ _ => exact ⟨sums.emitted, sums.reused⟩
  | staged _ _ =>
    constructor
    · simp [Progress.finish, countOutcome, sums.emitted, Nat.add_assoc]
    · simp [Progress.finish, countOutcome, sums.reused, Nat.add_assoc]

theorem sums_addAll (fresh : Sums m start.staged) (covered : Covered start.versions results) :
    Sums m (addAll tree now batch start results).staged :=
  (addAll_induction (P := fun _ g => Sums m g.staged) covered fresh
    fun _ before handled => handled.sums before).1

/-! ### The batch of a plan -/

/-- What a batch begins with. -/
def opening (s : Store) (now : Instant) (batch : String) (ref : Option String) (p : RunPlan) : Progress :=
  ⟨s.ensureBatch { id := batch, ref, generatedAt := now }, p.handlerVersions, { metrics := p.metrics }⟩

variable {s u : Store} {ref : Option String} {p : RunPlan} {b : StagedBatch}

variable (now batch ref p) in
theorem open_opening (regular : s.Regular) (referenced : s.Referenced) :
    Open batch (opening s now batch ref p) :=
  ⟨regular_ensureBatch regular _, referenced_ensureBatch referenced _, hasBatch_ensureBatch s _⟩

theorem accepted_of_stage (done : stage s tree now batch ref p results = .ok (u, b)) :
    complaint? p [] results = none := by
  unfold stage at done
  split at done
  · rename_i empty
    rw [List.isEmpty_iff.1 empty, complaint?]
  · split at done
    · cases done
    · assumption

variable (tree now batch ref) in
/-- Accepted results are written one by one. -/
theorem stage_of_accepted (regular : s.Regular) (accepted : complaint? p [] results = none) :
    ∃ u, stage s tree now batch ref p results =
        .ok (u, (addAll tree now batch (opening s now batch ref p) results).staged) ∧
      u.Regular ∧ ∀ path,
        Keeps (addAll tree now batch (opening s now batch ref p) results).store u path := by
  unfold stage
  cases results with
  | nil =>
    -- Here the batch itself is not made, which no file shows.
    refine ⟨s, rfl, regular, fun path => ⟨(keeps_ensureBatch s _ path).record.symm, fun id _ => ?_⟩⟩
    exact .of_tables (slices_ensureBatch s _).symm (by
      show s.symbols = (s.ensureBatch _).symbols
      unfold ensureBatch
      split <;> rfl) id
  | cons x rest =>
    simp only [List.isEmpty_cons, Bool.false_eq_true, if_false, accepted]
    exact ⟨_, rfl, (addAll_spec tree now batch _ (regular_ensureBatch regular _)).1.regular,
      fun path => Keeps.refl _ path⟩

end StagedBatch

end SourceSlices
