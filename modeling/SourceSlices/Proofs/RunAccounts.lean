import Mathlib
import SourceSlices.Proofs.Restaging
import SourceSlices.Proofs.SharedPaths

/-!
The counters of a run. They are moved when files are planned, when results are written, and where no
file could be read; in each of these places a planned file that fails is moved from the parsed files to
the failed ones, so that both together stay what was found. A failure is also told.
-/
namespace SourceSlices

/-! ### The parts of one result -/

namespace Staging

variable {q : StageRequest} {now : Instant} {fileId : Int} {ids : SymbolIds} {s t : Store}
  {o o' : StageOutcome}

theorem writeChunk_chunkCounts {g : ChunkGroup} (done : writeChunk q now fileId ids s o g = .ok (t, o')) :
    o'.chunksInserted + o'.chunksReused = o.chunksInserted + o.chunksReused + g.parts.length := by
  simp only [writeChunk, bind_ok_iff] at done
  obtain ⟨contents, made, done⟩ := done
  have length := length_of_map_ok (mapM_ok_iff.1 made)
  cases kept : unchanged? (s.chunkHistory fileId g.chunkId) contents with
  | some rows =>
    simp only [kept] at done
    cases done
    simp only [length, Nat.add_assoc]
  | none =>
    simp only [kept, bind_ok_iff] at done
    obtain ⟨u, -, done⟩ := done
    cases done
    simp only [length]
    omega

theorem writeChunks_chunkCounts {groups : List ChunkGroup}
    (done : writeChunks q now fileId ids groups s o = .ok (t, o')) :
    o'.chunksInserted + o'.chunksReused =
      o.chunksInserted + o.chunksReused + (groups.flatMap (·.parts)).length := by
  induction groups generalizing s o with
  | nil =>
    cases done
    rfl
  | cons g rest ih =>
    simp only [writeChunks, bind_ok_iff] at done
    obtain ⟨⟨u, p⟩, first, done⟩ := done
    rw [ih done, writeChunk_chunkCounts first, List.flatMap_cons, List.length_append, Nat.add_assoc]

/-- Every part of a staged result is counted once, as inserted or as reused. -/
theorem stage_chunkCounts (done : stage s now q = .ok (t, o)) :
    o.chunksInserted + o.chunksReused = q.result.chunks.length := by
  obtain ⟨groups, s1, fileId, s2, o2, ids, s3, grouped, -, symbols, -, chunks⟩ := stage_ok_iff.1 done
  obtain ⟨rfl, -⟩ := ChunkGroup.ofChunks_ok_iff.1 grouped
  obtain ⟨inserted, reused⟩ := writeSymbols_chunkCounts symbols
  rw [writeChunks_chunkCounts chunks, (ChunkGroup.parts_perm q.result.chunks).length_eq, inserted,
    reused, Nat.add_zero, Nat.zero_add]

end Staging

namespace Runner

/-! ### Messages -/

theorem mem_distinctMessages {messages : List String} {text : String} :
    text ∈ distinctMessages messages ↔ text ∈ messages ∧ text ≠ "" := by
  simp [distinctMessages, List.mem_eraseDups]

/-- Something is told in a list of messages. -/
def Tells (messages : List String) : Prop := ∃ text ∈ messages, text ≠ ""

theorem Tells.mono {messages more : List String} (tells : Tells messages) (subset : messages ⊆ more) :
    Tells more := by
  obtain ⟨text, mem, some⟩ := tells
  exact ⟨text, subset mem, some⟩

theorem Tells.distinct {messages : List String} (tells : Tells messages) :
    Tells (distinctMessages messages) := by
  obtain ⟨text, mem, some⟩ := tells
  exact ⟨text, mem_distinctMessages.2 ⟨mem, some⟩, some⟩

/-! ### Planning -/

/-- The counters of a plan in the making, with the number of files that are found but not yet sorted
in. Nothing has been written, and a file that failed has been told. -/
structure Counted (pending : Nat) (p : RunPlan) : Prop where
  found : p.metrics.filesDiscovered = p.metrics.filesParsed + p.metrics.filesFailed + pending
  parsed : p.metrics.filesParsed = p.entries.length
  reused : p.metrics.filesReused = 0
  chunks : p.metrics.chunksEmitted + p.metrics.chunksReused = 0
  told : 0 < p.metrics.filesFailed → Tells p.errors

variable {p : RunPlan} {n : Nat}

theorem counted_addError (counted : Counted (n + 1) p) {message : String} (some : message ≠ "") :
    Counted n (addError p message) where
  found := by
    have := counted.found
    simp only [addError]
    omega
  parsed := counted.parsed
  reused := counted.reused
  chunks := counted.chunks
  told _ := ⟨message, List.mem_append_right _ List.mem_cons_self, some⟩

theorem counted_addFallback (counted : Counted n p) (display : String) (s : Selection) :
    Counted n (addFallback p display s) := by
  unfold addFallback
  split
  · exact ⟨counted.found, counted.parsed, counted.reused, counted.chunks, counted.told⟩
  · exact counted

theorem counted_addEntry (counted : Counted (n + 1) p) (e : PlanEntry) : Counted n (addEntry p e) where
  found := by
    have := counted.found
    simp only [addEntry, RunMetrics.countHandler]
    omega
  parsed := by
    simp only [addEntry, RunMetrics.countHandler, counted.parsed, List.length_append, List.length_cons,
      List.length_nil]
  reused := counted.reused
  chunks := counted.chunks
  told := counted.told

theorem counted_planFile (r : Runner) (t : FileTree) (counted : Counted n p) (f : FoundFile) :
    Counted n (r.planFile t p f) := by
  have found : Counted (n + 1)
      { p with metrics := { p.metrics with filesDiscovered := p.metrics.filesDiscovered + 1 } } :=
    ⟨by rw [counted.found, Nat.add_assoc], counted.parsed, counted.reused, counted.chunks, counted.told⟩
  unfold planFile
  dsimp only
  split
  · exact counted_addError found (by simp [String.append_eq_empty_iff])
  · have fallback := counted_addFallback found (displayPath f.relative)
    split
    · exact counted_addError (fallback _) (by simp [String.append_eq_empty_iff])
    · exact counted_addEntry (fallback _) _

theorem counted_plan {r : Runner} {t : FileTree} {source : String} {scope : List String}
    (planned : r.plan t source scope = .ok p) : Counted 0 p := by
  unfold plan at planned
  split at planned
  · cases planned
  · simp only [bind_ok_iff] at planned
    obtain ⟨root, -, w, -, planned⟩ := planned
    cases planned
    have counted := List.foldlRecOn (w.files t scope) (r.planFile t) (motive := Counted 0)
      (b := { source, root := FileTree.pathText w.root, warnings := r.degradedWarnings
              handlerVersions := r.registry.versions })
      ⟨rfl, rfl, rfl, rfl, fun failed => absurd failed (Nat.lt_irrefl 0)⟩
      fun p counted f _ => counted_planFile r t counted f
    exact ⟨counted.found, counted.parsed, counted.reused, counted.chunks,
      fun failed => (counted.told failed).distinct⟩

end Runner

/-! ### Writing the results of one plan -/

namespace StagedBatch

open Runner

theorem filter_keys_eq {α κ : Type} [DecidableEq κ] (key : α → κ) {part whole : List α}
    (among : part.Sublist whole) (distinct : (whole.map key).Nodup) :
    whole.filter (fun a => key a ∈ part.map key) = part := by
  induction among with
  | slnil => rfl
  | @cons part whole a among ih =>
    obtain ⟨away, distinct⟩ := List.nodup_cons.1 distinct
    have out : key a ∉ part.map key := fun mem => away ((among.map key).subset mem)
    rw [List.filter_cons_of_neg (by simpa using out), ih distinct]
  | @cons_cons part whole a among ih =>
    obtain ⟨away, distinct⟩ := List.nodup_cons.1 distinct
    rw [List.filter_cons_of_pos (by simp)]
    refine congrArg (a :: ·) (Eq.trans (List.filter_congr fun b mem => ?_) (ih distinct))
    have other : key b ≠ key a := fun same => away (same ▸ List.mem_map_of_mem mem)
    simp [other]

/-- What the counters say when results have been written: some are listed as written, and each of the
others could not be read or could not be written. -/
structure Tally (m : RunMetrics) (results written : List ReadResult) (b : StagedBatch) : Prop where
  among : written.Sublist results
  files : b.files.map Prod.fst = written.map Prod.fst
  lost : results.length = written.length + (unreadFiles results).length + b.failures.length
  discovered : b.metrics.filesDiscovered = m.filesDiscovered
  parsed : b.metrics.filesParsed = m.filesParsed - (results.length - written.length)
  failed : b.metrics.filesFailed = m.filesFailed + (results.length - written.length)
  reused : b.metrics.filesReused ≤ m.filesReused + written.length
  chunks : b.metrics.chunksEmitted + b.metrics.chunksReused =
    m.chunksEmitted + m.chunksReused + (written.map (·.2.chunks.length)).sum

variable {tree : FileTree} {now : Instant} {batch : String} {g : Progress} {m : RunMetrics}
  {results written : List ReadResult}

theorem tally_none (m : RunMetrics) : Tally m [] [] { metrics := m } where
  among := .slnil
  files := rfl
  lost := rfl
  discovered := rfl
  parsed := rfl
  failed := rfl
  reused := Nat.le_refl _
  chunks := rfl

theorem unreadFiles_snoc (results : List ReadResult) (x : ReadResult) :
    (unreadFiles (results ++ [x])).length =
      (unreadFiles results).length + if x.2.errors.isEmpty then 0 else 1 := by
  simp only [unreadFiles, List.filter_append, List.map_append, List.length_append, List.filter_cons]
  cases x.2.errors.isEmpty <;> rfl

/-- A result that is not written is lost in one of the two ways, and moves one file. -/
theorem tally_lose {b c : StagedBatch} (tally : Tally m results written b) {x : ReadResult}
    (files : c.files = b.files) (moved : c.metrics = b.metrics.failFile)
    (lost : (if x.2.errors.isEmpty then 0 else 1) + c.failures.length = b.failures.length + 1) :
    Tally m (results ++ [x]) written c := by
  have fewer := tally.among.length_le
  have before := tally.lost
  have parsed := tally.parsed
  have failed := tally.failed
  have longer : (results ++ [x]).length = results.length + 1 := List.length_append
  constructor
  · exact tally.among.trans (List.sublist_append_left _ _)
  · rw [files, tally.files]
  · rw [unreadFiles_snoc]
    omega
  · rw [moved, ← tally.discovered, RunMetrics.failFile]
  · simp only [moved, RunMetrics.failFile]
    omega
  · simp only [moved, RunMetrics.failFile]
    omega
  · rw [moved]
    exact tally.reused
  · rw [moved]
    exact tally.chunks

theorem tally_finish (tally : Tally m results written g.staged) {x : ReadResult}
    (read : x.2.errors.isEmpty = true) (store : Store) {o : StageOutcome}
    (counts : o.chunksInserted + o.chunksReused = x.2.chunks.length) :
    Tally m (results ++ [x]) (written ++ [x]) (g.finish x.1 store o).staged := by
  have before := tally.lost
  have parsed := tally.parsed
  have failed := tally.failed
  have reused := tally.reused
  have chunks := tally.chunks
  have longer : (results ++ [x]).length = results.length + 1 := List.length_append
  have more : (written ++ [x]).length = written.length + 1 := List.length_append
  constructor
  · exact tally.among.append (List.Sublist.refl _)
  · simp only [Progress.finish, List.map_append, tally.files, List.map_cons, List.map_nil]
  · simp only [Progress.finish, unreadFiles_snoc, read, if_true]
    omega
  · exact tally.discovered
  · simp only [Progress.finish, countOutcome]
    omega
  · simp only [Progress.finish, countOutcome]
    omega
  · simp only [Progress.finish, countOutcome]
    split <;> omega
  · simp only [Progress.finish, countOutcome, List.map_append, List.map_cons, List.map_nil,
      List.sum_append, List.sum_cons, List.sum_nil]
    omega

theorem tally_add (tally : Tally m results written g.staged) (x : ReadResult) :
    ∃ more, Tally m (results ++ [x]) more (g.add tree now batch x).staged := by
  obtain ⟨e, result⟩ := x
  unfold Progress.add
  cases read : result.errors.isEmpty with
  | false =>
    simp only [read, Bool.not_false, if_true]
    exact ⟨written, tally_lose tally rfl rfl (by simp [read, Progress.skip, Nat.add_comm])⟩
  | true =>
    simp only [read, Bool.not_true, Bool.false_eq_true, if_false]
    split
    · rename_i store o done
      exact ⟨_, tally_finish tally read store (Staging.stage_chunkCounts done)⟩
    · exact ⟨written, tally_lose tally rfl rfl (by simp [read, Progress.fail, Progress.skip])⟩

theorem tally_addAll (m : RunMetrics) (start : Progress) (begin : start.staged = { metrics := m })
    (results : List ReadResult) :
    ∃ written, Tally m results written (addAll tree now batch start results).staged := by
  induction results using List.reverseRecOn with
  | nil => exact ⟨[], begin ▸ tally_none m⟩
  | append_singleton results x ih =>
    obtain ⟨written, tally⟩ := ih
    rw [addAll, List.foldl_append]
    exact tally_add tally x

/-- A staged batch: the written results, and the counters in terms of the plan. -/
theorem tally_stage {store out : Store} {ref : Option String} {p : RunPlan} {staged : StagedBatch}
    (done : stage store tree now batch ref p results = .ok (out, staged)) :
    Tally p.metrics results (results.filter fun x => x.1 ∈ staged.files.map Prod.fst) staged := by
  unfold stage at done
  split at done
  · rename_i empty
    cases done
    rw [List.isEmpty_iff.1 empty]
    exact tally_none p.metrics
  · split at done
    · cases done
    · rename_i accepted
      cases done
      obtain ⟨written, tally⟩ := tally_addAll p.metrics
        ⟨store.ensureBatch { id := batch, ref, generatedAt := now }, p.handlerVersions,
          { metrics := p.metrics }⟩ rfl results
      have own := filter_keys_eq Prod.fst tally.among (distinct_of_accepted accepted).1
      rw [← tally.files] at own
      rw [addAll] at tally own
      rw [own]
      exact tally

end StagedBatch

/-! ### Runs -/

namespace Runner

variable {r : Runner} {w : Workspace} {now : Instant} {batch : String} {p : RunPlan} {n : Nat}
  {results : List ReadResult}

theorem timed_metrics (p : RunPlan) :
    ∃ seconds, (timed p).metrics = { p.metrics with handlerRuntimeSeconds := seconds } := by
  refine List.foldlRecOn p.entries _ (motive := fun m : RunMetrics =>
    ∃ seconds, m = { p.metrics with handlerRuntimeSeconds := seconds }) ⟨_, rfl⟩ ?_
  rintro m ⟨seconds, rfl⟩ e -
  exact ⟨_, rfl⟩

theorem counted_timed (counted : Counted n p) : Counted n (timed p) := by
  obtain ⟨seconds, metrics⟩ := timed_metrics p
  constructor <;> rw [metrics]
  exacts [counted.found, counted.parsed, counted.reused, counted.chunks, counted.told]

theorem tells_errorsOf (unread : 0 < (unreadFiles results).length) : Tells (errorsOf results) := by
  obtain ⟨path, mem⟩ := List.exists_mem_of_length_pos unread
  obtain ⟨⟨e, result⟩, mem, -⟩ := List.mem_map.1 mem
  obtain ⟨inside, failed⟩ := List.mem_filter.1 mem
  obtain ⟨text, told⟩ := List.exists_mem_of_ne_nil result.errors (by simpa using failed)
  exact ⟨shown e text, List.mem_flatMap.2 ⟨_, inside, List.mem_map_of_mem told⟩,
    by simp [shown, String.append_eq_empty_iff]⟩

variable (w now batch) in
/-- However the results end, the counters stay balanced and a failure is told. -/
theorem write_accounts (counted : Counted 0 p) (each : results.length = p.entries.length) :
    (write w now batch p results).metrics.filesDiscovered =
        (write w now batch p results).metrics.filesParsed +
          (write w now batch p results).metrics.filesFailed ∧
      (0 < (write w now batch p results).metrics.filesFailed →
        Tells (p.errors ++ (errorsOf results ++ (write w now batch p results).errors))) := by
  have found := counted.found
  have parsed := counted.parsed
  have planned (failed : 0 < p.metrics.filesFailed) (more : List String) : Tells (p.errors ++ more) :=
    (counted.told failed).mono (List.subset_append_left _ _)
  have unreadable (unread : 0 < (unreadFiles results).length) (more : List String) :
      Tells (p.errors ++ (errorsOf results ++ more)) :=
    (tells_errorsOf unread).mono
      (List.Subset.trans (List.subset_append_left _ _) (List.subset_append_right _ _))
  -- Either nothing could be read, or the files are staged one by one, or staging fails as a whole.
  unfold write
  dsimp only
  split
  · rename_i unread
    have all : (unreadFiles results).length = results.length := by
      rw [unreadFiles, List.length_map, List.filter_eq_self.2 (List.all_eq_true.1 unread)]
    refine ⟨by dsimp only; omega, fun failed => ?_⟩
    by_cases before : 0 < p.metrics.filesFailed
    · exact planned before _
    · exact unreadable (by dsimp only at failed; omega) _
  · split
    · rename_i store staged done
      have tally := StagedBatch.tally_stage done
      have fewer := tally.among.length_le
      have lost := tally.lost
      refine ⟨by dsimp only; rw [tally.discovered, tally.parsed, tally.failed]; omega, fun failed => ?_⟩
      dsimp only at failed
      rw [tally.failed] at failed
      by_cases before : 0 < p.metrics.filesFailed
      · exact planned before _
      · by_cases unread : 0 < (unreadFiles results).length
        · exact unreadable unread _
        · obtain ⟨⟨path, fault⟩, mem⟩ := List.exists_mem_of_length_pos (l := staged.failures) (by omega)
          exact ⟨path ++ ": failed to stage: " ++ fault,
            List.mem_append_right _ (List.mem_append_right _
              (List.mem_map.2 ⟨(path, fault), mem, rfl⟩)), by simp [String.append_eq_empty_iff]⟩
    · rename_i e _
      exact ⟨found, fun _ => ⟨"Failed to stage parser batch: " ++ e.message,
        List.mem_append_right _ (List.mem_append_right _ List.mem_cons_self),
        by simp [String.append_eq_empty_iff]⟩⟩

/-- What a batch was made of. -/
theorem write_staged {b : String} (made : (write w now batch p results).batchId = some b) :
    b = batch ∧ ∃ staged,
      StagedBatch.stage w.store w.tree now batch (some (shortRef batch)) p results =
        .ok ((write w now batch p results).store, staged) ∧
      (write w now batch p results).metrics = staged.metrics := by
  unfold write at made ⊢
  dsimp only at made ⊢
  split at made
  · cases made
  · split at made
    · rename_i unread _ store staged done
      cases made
      rw [if_neg unread]
      refine ⟨rfl, staged, ?_, ?_⟩ <;> simp only [done]
    · cases made

/-- The accounts of a run add up, however it ends. Every file that was found is parsed or failed. If a
batch was written, the parsed files are those that it lists, and each part of their results is counted
once, as emitted or as reused. A run with a failed file has errors and says so. -/
theorem run_accounts (r : Runner) (w : Workspace) (now : Instant) (fresh source : String)
    (scope : List String) (batch : Option String) {after : Workspace} {o : RunOutcome}
    (ran : r.run w now fresh source scope batch = (after, .ok o)) :
    let m := o.record.metrics
    m.filesDiscovered = m.filesParsed + m.filesFailed ∧
    (∀ b, o.batchId = some b → ∃ p staged, r.plan w.tree source scope = .ok p ∧
      StagedBatch.stage w.store w.tree now b (some (shortRef b)) (timed p) (r.readPlan w.tree p) =
        .ok (after.store, staged) ∧
      m.filesParsed = staged.files.length ∧ m.filesReused ≤ m.filesParsed ∧
      m.chunksEmitted + m.chunksReused =
        (((r.readPlan w.tree p).filter fun x => x.1 ∈ staged.files.map Prod.fst).map
          (·.2.chunks.length)).sum) ∧
    (0 < m.filesFailed → o.record.errors ≠ [] ∧ o.record.status = .error) := by
  unfold run at ran
  split at ran
  · cases ran
  rename_i p planned
  have counted := counted_timed (counted_plan planned)
  have each : (r.readPlan w.tree p).length = (timed p).entries.length := List.length_map _
  obtain ⟨balanced, told⟩ := write_accounts w now (batch.getD fresh) counted each
  dsimp only at ran
  split at ran
  · cases ran
  cases ran
  refine ⟨balanced, fun b made => ?_, fun failed => ?_⟩
  · obtain ⟨rfl, staged, done, metrics⟩ := write_staged made
    have tally := StagedBatch.tally_stage done
    have lists := congrArg List.length tally.files
    rw [List.length_map, List.length_map] at lists
    have fewer := tally.among.length_le
    have own := counted.parsed
    refine ⟨p, staged, planned, done, ?_, ?_, ?_⟩
    · show (write _ _ _ _ _).metrics.filesParsed = _
      rw [metrics, tally.parsed]
      omega
    · show (write _ _ _ _ _).metrics.filesReused ≤ (write _ _ _ _ _).metrics.filesParsed
      have reused := tally.reused
      rw [counted.reused] at reused
      rw [metrics, tally.parsed]
      omega
    · show (write _ _ _ _ _).metrics.chunksEmitted + (write _ _ _ _ _).metrics.chunksReused = _
      rw [metrics, tally.chunks, counted.chunks, Nat.zero_add]
  · obtain ⟨text, mem, -⟩ := (told failed).distinct
    have some : distinctMessages ((timed p).errors ++ (errorsOf (r.readPlan w.tree p) ++
      (write w now (batch.getD fresh) (timed p) (r.readPlan w.tree p)).errors)) ≠ [] :=
      List.ne_nil_of_mem mem
    refine ⟨some, ?_⟩
    simp only [RunRecord.ofPlan, Option.getD_none, RunRecord.statusOf]
    rw [if_pos]
    simpa using some

/-- A call that stages a file makes its batch, if its record can be kept. -/
theorem run_of_stages {s : Store} {c : Pass} {path : String} (stages : r.Stages s c path)
    (recorded : ∀ record, Succeeds (r.recordRun c.tree c.now c.source record)) :
    ∃ after o, r.run ⟨c.tree, s⟩ c.now c.fresh c.source c.scope c.batch = (after, .ok o) ∧
      o.batchId = some c.batchId ∧ r.writtenEntries s c ≠ [] := by
  obtain ⟨x, -, listed, -⟩ := stages
  have some : r.writtenEntries s c ≠ [] := List.ne_nil_of_mem listed
  have before := some
  unfold writtenEntries at some
  split at some
  · exact absurd rfl some
  rename_i p planned
  split at some
  · exact absurd rfl some
  rename_i store staged done
  -- If nothing could be read, nothing would be listed.
  have read : ¬ ((r.readPlan c.tree p).all fun x => !x.2.errors.isEmpty) = true := by
    intro unread
    obtain ⟨-, none⟩ | ⟨-, b, start, -, empty, -, entries⟩ := StagedBatch.stage_writes done
    · exact some none
    · rw [StagedBatch.addAll_unread (List.all_eq_true.1 unread), empty] at entries
      exact some entries
  have made : (write ⟨c.tree, s⟩ c.now c.batchId (timed p) (r.readPlan c.tree p)).batchId =
      .some c.batchId := by
    unfold write
    dsimp only
    rw [if_neg read, done]
  unfold run
  rw [planned]
  dsimp only
  obtain ⟨⟨tree, state⟩, done⟩ := recorded _
  rw [done]
  exact ⟨_, _, rfl, made, before⟩

/-- There is no manifest beside the three roots. -/
theorem manifest_absent : threeRoots.read "/manifest.json" = .error .notFound := by
  have named : FileTree.names (threeRoots.absolute "/manifest.json") = ["manifest.json"] := by
    decide +kernel
  simp [FileTree.read, FileTree.entry?, FileTree.locate_new named rfl (by decide), bind, Except.bind]

/-- A file can be written beside the three roots, and is read again from there. -/
theorem overThree_saved (now : Instant) (source : String) (record : RunRecord) :
    ∃ t, let saved := ({} : Manifest).update source fun s =>
        { s.apply record with enabled := overThree.config.enabled }
      overThree.recordRun threeRoots now source record = .ok (t, saved.2) ∧
        t.read "/manifest.json" = .ok (Text.encodeUtf8 saved.1.text) := by
  have named : FileTree.names (threeRoots.absolute "/manifest.json") = ["manifest.json"] ∧
      FileTree.names (threeRoots.absolute "/manifest.json.tmp") = ["manifest.json.tmp"] := by
    decide +kernel
  have parent : Path.parent? "/manifest.json" = some "/" ∧
      Path.components (threeRoots.absolute "/") = [] := by
    decide +kernel
  have draft : "/manifest.json" ++ ".tmp" = "/manifest.json.tmp" := rfl
  simp only [recordRun, overThree, Manifest.record, Manifest.load, manifest_absent, Manifest.save,
    parent.1, draft,
    FileTree.makeDirs, parent.2, FileTree.makeEach, Except.mapError, FileTree.write,
    FileTree.locate_new named.2 rfl (by decide), bind, Except.bind]
  generalize Text.encodeUtf8 _ = bytes
  have source := FileTree.locate_direct false named.2
    (t := threeRoots.put ["manifest.json.tmp"] (some (.file bytes now.toNanos))) rfl
    (fun _ same => by cases same) (by decide)
  have target : (threeRoots.put ["manifest.json.tmp"] (some (.file bytes now.toNanos))).locate
      "/manifest.json" false = .ok (["manifest.json"], none) :=
    FileTree.locate_new named.1 rfl (by decide)
  simp only [FileTree.rename, source, target, bind, Except.bind]
  exact ⟨_, rfl, FileTree.read_direct _ named.1 rfl (by decide)⟩

theorem overThree_recorded (now : Instant) (source : String) (record : RunRecord) :
    Succeeds (overThree.recordRun threeRoots now source record) := by
  obtain ⟨t, done, -⟩ := overThree_saved now source record
  exact ⟨_, done⟩

/-- A run that writes its file. -/
theorem notes_accounts : ∃ after o,
    overThree.run ⟨threeRoots, .empty⟩ .epoch "b1" "a" [] none = (after, .ok o) ∧
      o.batchId = some "b1" ∧ 0 < o.record.metrics.filesParsed ∧
      o.record.metrics.filesDiscovered = o.record.metrics.filesParsed + o.record.metrics.filesFailed := by
  obtain ⟨after, o, ran, made, listed⟩ :=
    run_of_stages notes_known.1 (overThree_recorded .epoch "a")
  obtain ⟨balanced, written, -⟩ := run_accounts overThree ⟨threeRoots, .empty⟩ .epoch "b1" "a" [] none ran
  obtain ⟨p, staged, planned, done, parsed, -⟩ := written "b1" made
  refine ⟨after, o, ran, made, ?_, balanced⟩
  have entries : overThree.writtenEntries .empty (passOver "a" "b1") = staged.files.map Prod.fst := by
    unfold writtenEntries
    dsimp only [passOver, Pass.batchId]
    rw [planned]
    dsimp only
    rw [Option.getD_none, done]
  rw [parsed]
  exact List.length_pos_iff.2 fun none => listed (by rw [entries, none]; rfl)

end Runner

end SourceSlices
