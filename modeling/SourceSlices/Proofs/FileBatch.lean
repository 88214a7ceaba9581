import Mathlib.Data.List.Flatten
import Mathlib.Data.List.Perm.Basic
import SourceSlices.Health.Assessment
import SourceSlices.Proofs.LeadingParts
import SourceSlices.Proofs.OtherFiles
import SourceSlices.Proofs.Overwriting
import SourceSlices.Proofs.Readback
import SourceSlices.Proofs.WholeVersions

/-!
Several files staged under one fresh batch. The check of the batch sees the parts of all results
together, without their files, so it is silent exactly if no two files share a chunk id.
-/

/-!
### The check of a batch

It reads the rows without their files: it finds nothing if and only if the rows of each chunk id are
numbered without gap, record how many they are, have metadata that can be read, and name chunk ids that
occur. Their order does not matter.
-/
namespace SourceSlices.Health

variable {rows rows' : List SliceSummary} {id : String}

/-- The part indices that occur under a chunk id. -/
def indices (rows : List SliceSummary) (id : String) : List Int :=
  (rows.filter (·.chunkId = id)).map (·.partIndex)

/-- Rows in which there is nothing to be found. -/
structure Consistent (rows : List SliceSummary) : Prop where
  readable : ∀ row ∈ rows, ∀ e, metadataOf row ≠ some (.error e)
  counted : ∀ row ∈ rows, row.partTotal = ((indices rows row.chunkId).length : Int)
  numbered : ∀ row ∈ rows, (indices rows row.chunkId).Perm
    ((List.range (indices rows row.chunkId).length).map Int.ofNat)
  parents : ∀ row ∈ rows, ∀ parent, parentOf row = some parent → ∃ r ∈ rows, r.chunkId = parent

theorem Consistent.perm (consistent : Consistent rows) (perm : rows.Perm rows') : Consistent rows' := by
  have same (id : String) : (indices rows id).Perm (indices rows' id) := (perm.filter _).map _
  refine ⟨fun row mem => consistent.readable row (perm.mem_iff.2 mem), fun row mem => ?_,
    fun row mem => ?_, fun row mem parent names => ?_⟩
  · rw [← (same row.chunkId).length_eq]
    exact consistent.counted row (perm.mem_iff.2 mem)
  · rw [← (same row.chunkId).length_eq]
    exact (same row.chunkId).symm.trans (consistent.numbered row (perm.mem_iff.2 mem))
  · obtain ⟨r, there, own⟩ := consistent.parents row (perm.mem_iff.2 mem) parent names
    exact ⟨r, perm.mem_iff.1 there, own⟩

theorem consistent_perm_iff (perm : rows.Perm rows') : Consistent rows ↔ Consistent rows' :=
  ⟨fun consistent => consistent.perm perm, fun consistent => consistent.perm perm.symm⟩

theorem indices_pos {row : SliceSummary} (mem : row ∈ rows) :
    0 < (indices rows row.chunkId).length := by
  rw [indices, List.length_map]
  exact List.length_pos_of_mem (List.mem_filter.2 ⟨mem, decide_eq_true rfl⟩)

theorem recordedTotal_spec {row : SliceSummary} (mem : row ∈ rows) :
    ∃ first ∈ rows, first.chunkId = row.chunkId ∧
      recordedTotal rows row.chunkId = first.partTotal := by
  cases found : rows.find? (·.chunkId = row.chunkId) with
  | none => simpa using List.find?_eq_none.1 found row mem
  | some first =>
    exact ⟨first, List.mem_of_find?_eq_some found, by simpa using List.find?_some found,
      by rw [recordedTotal, found]; rfl⟩

theorem isComplete_iff : isComplete rows id = true ↔
    ((indices rows id).length : Int) = max 0 (recordedTotal rows id) ∧
      (indices rows id).Perm ((List.range (indices rows id).length).map Int.ofNat) := by
  have sorted (n : Nat) : ((List.range n).map Int.ofNat).Pairwise (· ≤ ·) :=
    List.pairwise_map.2 (List.pairwise_lt_range.imp fun less => Int.ofNat_le.2 (Nat.le_of_lt less))
  have perm := List.mergeSort_perm (indices rows id) fun a b => a ≤ b
  rw [isComplete, Bool.and_eq_true, decide_eq_true_eq, decide_eq_true_eq, ← indices,
    List.length_mergeSort]
  refine and_congr_right fun _ => ⟨fun same => perm.symm.trans (List.Perm.of_eq same), fun all => ?_⟩
  have ascending : ((indices rows id).mergeSort fun a b => a ≤ b).Pairwise (· ≤ ·) := by
    refine (List.pairwise_mergeSort (fun a b c ab bc => ?_) (fun a b => ?_) _).imp of_decide_eq_true
    · simp only [decide_eq_true_eq] at *
      omega
    · simp only [Bool.or_eq_true, decide_eq_true_eq]
      omega
  exact (perm.trans all).eq_of_pairwise (fun _ _ _ _ => Int.le_antisymm) ascending (sorted _)

theorem rowIssues_nil_iff {row : SliceSummary} : rowIssues rows row = [] ↔
    row.partTotal = recordedTotal rows row.chunkId ∧ ∀ e, metadataOf row ≠ some (.error e) := by
  rw [rowIssues, List.append_eq_nil_iff]
  refine and_congr (by simp) ?_
  split
  · rename_i e found
    simp [found]
  · rename_i other
    exact iff_of_true rfl fun e found => other e found

theorem gapIssues_nil_iff : gapIssues rows = [] ↔ ∀ row ∈ rows, isComplete rows row.chunkId = true := by
  rw [gapIssues, List.filterMap_eq_nil_iff]
  simp [chunkIds]

theorem parentIssues_nil_iff : parentIssues rows = [] ↔
    ∀ row ∈ rows, ∀ parent, parentOf row = some parent → ∃ r ∈ rows, r.chunkId = parent := by
  rw [parentIssues, List.filterMap_eq_nil_iff]
  refine forall₂_congr fun row _ => ?_
  cases parentOf row with
  | none => simp
  | some parent => simp

theorem sliceIssues_nil_iff : sliceIssues rows = [] ↔ Consistent rows := by
  simp only [sliceIssues, List.append_eq_nil_iff, List.flatMap_eq_nil_iff, rowIssues_nil_iff,
    gapIssues_nil_iff, parentIssues_nil_iff, isComplete_iff]
  constructor
  · rintro ⟨⟨each, whole⟩, parents⟩
    refine ⟨fun row mem => (each row mem).2, fun row mem => ?_, fun row mem => (whole row mem).2, parents⟩
    have := indices_pos mem
    have := (whole row mem).1
    rw [(each row mem).1]
    omega
  · intro consistent
    -- Rows of one chunk count the same indices, so they record the same total.
    have total (row : SliceSummary) (mem : row ∈ rows) :
        row.partTotal = recordedTotal rows row.chunkId := by
      obtain ⟨first, there, same, recorded⟩ := recordedTotal_spec mem
      rw [recorded, consistent.counted row mem, consistent.counted first there, same]
    refine ⟨⟨fun row mem => ⟨total row mem, consistent.readable row mem⟩, fun row mem => ?_⟩,
      consistent.parents⟩
    refine ⟨?_, consistent.numbered row mem⟩
    rw [← total row mem, consistent.counted row mem]
    omega

theorem issues_foldl_iff {issues : List String} {f : Findings} :
    (issues.foldl (fun f issue => f.raise .error issue) f).issues = [] ↔ f.issues = [] ∧ issues = [] := by
  induction issues generalizing f with
  | nil => simp
  | cons issue rest ih =>
    rw [List.foldl_cons, ih]
    have raised : (f.raise .error issue).issues ≠ [] := by
      simp only [Findings.raise]
      split
      · rename_i known
        exact List.ne_nil_of_mem (List.contains_iff_mem.1 known)
      · simp
    simp [raised]

theorem assessSlices_silent_iff : (assessSlices rows {}).issues = [] ↔ Consistent rows := by
  rw [assessSlices, issues_foldl_iff, sliceIssues_nil_iff]
  exact and_iff_right rfl

end SourceSlices.Health

/-! ### Files of one batch -/

namespace SourceSlices

/-- Files staged one after the other, each with the number that it got. -/
inductive StagedAll : Store → List Staged → Store → Prop where
  | nil (s : Store) : StagedAll s [] s
  | cons {s t u : Store} {now : Instant} {q : StageRequest} {o : StageOutcome} {rest : List Staged}
      (done : Staging.stage s now q = .ok (u, o)) (others : StagedAll u rest t) :
      StagedAll s (⟨q, o.fileId⟩ :: rest) t

/-- The path under which the file of a staging is recorded. -/
def Staged.path (e : Staged) : String := Staging.repoPath e.request

namespace StagedAll

open Staging

variable {s t : Store} {staged : List Staged} {path batch : String} {id : Int}

theorem sound (all : StagedAll s staged t) (start : s.Sound) : t.Sound := by
  induction all with
  | nil => exact start
  | cons done _ ih => exact ih (sound_stage start done)

theorem numbered (all : StagedAll s staged t) (start : s.Sound) (numbers : s.Numbered) :
    t.Numbered := by
  induction all with
  | nil => exact numbers
  | cons done _ ih => exact ih (sound_stage start done) (numbered_stage start numbers done)

/-- A file whose path is not staged keeps its number and its rows. -/
theorem apart (all : StagedAll s staged t) (start : s.Sound) (numbers : s.Numbered)
    (away : ∀ e ∈ staged, path ≠ e.path) (known : s.fileId? path = some id) :
    t.fileId? path = some id ∧ s.SameFile t id := by
  induction all with
  | nil => exact ⟨known, .of_tables rfl rfl id⟩
  | @cons s t u now q o rest done _ ih =>
    have other : path ≠ repoPath q := away ⟨q, o.fileId⟩ List.mem_cons_self
    obtain ⟨kept, same⟩ := stage_apart start numbers done other known
    obtain ⟨kept', same'⟩ := ih (sound_stage start done) (numbered_stage start numbers done)
      (fun e mem => away e (List.mem_cons_of_mem _ mem)) kept
    exact ⟨kept', same.trans same'⟩

theorem elsewhere (all : StagedAll s staged t) (start : s.Sound) (away : id ∉ staged.map (·.fileId)) :
    s.SameFile t id := by
  induction all with
  | nil => exact .of_tables rfl rfl id
  | cons done _ ih =>
    rw [List.map_cons, List.mem_cons, not_or] at away
    exact (stage_elsewhere start done away.1).trans (ih (sound_stage start done) away.2)

theorem fileIds (all : StagedAll s staged t) (start : s.Sound) (numbers : s.Numbered)
    (files : (staged.map Staged.path).Nodup) {e : Staged} (mem : e ∈ staged) :
    t.fileId? e.path = some e.fileId := by
  induction all with
  | nil => cases mem
  | @cons s t u now q o rest done others ih =>
    obtain ⟨first, files'⟩ := List.nodup_cons.1 files
    have sound := sound_stage start done
    have numbers' := numbered_stage start numbers done
    rcases List.mem_cons.1 mem with rfl | mem
    · have away : ∀ e ∈ rest, repoPath q ≠ e.path := fun e there same =>
        first (List.mem_map.2 ⟨e, there, same.symm⟩)
      exact (others.apart sound numbers' away (stage_fileId start done)).1
    · exact ih sound numbers' files' mem

theorem numbers_apart (all : StagedAll s staged t) (start : s.Sound) (numbers : s.Numbered)
    (files : (staged.map Staged.path).Nodup) : (staged.map (·.fileId)).Nodup := by
  refine List.pairwise_map.2 ((List.pairwise_map.1 files).imp_of_mem fun ha hb apart same => apart ?_)
  exact Store.path_unique (all.numbered start numbers) (all.fileIds start numbers files ha)
    (same ▸ all.fileIds start numbers files hb)

end StagedAll

namespace Store

variable {s t : Store} {batch : String} {fileId : Int}

theorem SameFile.unseen (same : s.SameFile t fileId) (unseen : s.Unseen batch fileId) :
    t.Unseen batch fileId := by
  intro r mem file
  have there : r ∈ s.rowsAt r.slot := same.slices r.slot file ▸ mem_rowsAt.2 ⟨mem, rfl⟩
  exact unseen r (mem_rowsAt.1 there).1 file

end Store

namespace Staging

open Store Health

/-- What the check reads of a part once it is stored. -/
def partSummary (p : Chunk) : SliceSummary :=
  ⟨p.chunkId, count p.partIndex, (p.metadata.int? "part_total").getD 1,
    if p.metadata.isEmpty then none else some p.metadata.canonical⟩

def summaryColumn (q : StageRequest) (fileId : Int) (ids : SymbolIds) :
    Column q fileId ids SliceSummary where
  ofRow c := ⟨c.chunkId, c.partIndex, c.partTotal, c.metadataJson⟩
  ofPart := partSummary
  agree p c done := by
    obtain ⟨slot, -, -, total, -, -, json⟩ := sliceContent_columns done
    obtain ⟨-, slot⟩ := Prod.mk.inj slot
    obtain ⟨id, index⟩ := Prod.mk.inj slot
    simp only [partSummary, id, index, total, json]

/-- A result whose parts record how many they are and name only chunks of the result. -/
structure Closed (r : HandlerResult) : Prop where
  stamped : r.Stamped
  fits : ∀ p ∈ r.chunks, p.metadata.Fits
  parents : ∀ p ∈ r.chunks, ∀ name, p.metadata.str? "delegate_parent_chunk" = some name →
    ∃ c ∈ r.chunks, c.chunkId = name

variable {s t : Store} {staged : List Staged} {batch : String}

/-- After all files are staged under a fresh batch, the batch shows of each what its result says. -/
theorem shows_all (all : StagedAll s staged t) (start : s.Sound) (numbers : s.Numbered)
    (files : (staged.map Staged.path).Nodup) (under : ∀ e ∈ staged, e.request.batchId = batch)
    (stamped : ∀ e ∈ staged, e.request.result.Stamped)
    (fresh : ∀ e ∈ staged, s.Fresh batch e.path) {e : Staged} (mem : e ∈ staged) :
    (t.fileSlices batch e.fileId).map Slice.summary = e.request.result.inOrder.map partSummary := by
  induction all with
  | nil => cases mem
  | @cons s t u now q o rest done others ih =>
    obtain ⟨first, files'⟩ := List.nodup_cons.1 files
    have sound := sound_stage start done
    have numbers' := numbered_stage start numbers done
    have own : ∀ e ∈ rest, e ∈ (⟨q, o.fileId⟩ : Staged) :: rest := fun _ => List.mem_cons_of_mem _
    obtain rfl : q.batchId = batch := under ⟨q, o.fileId⟩ List.mem_cons_self
    -- The first file keeps its rows while the others are staged, and the others are still fresh after it.
    rcases List.mem_cons.1 mem with rfl | mem
    · have known := stage_fileId start done
      have away : ∀ e ∈ rest, repoPath q ≠ e.path := fun e there same =>
        first (List.mem_map.2 ⟨e, there, same.symm⟩)
      have same := (others.apart sound numbers' away known).2
      have countable : Countable q.result :=
        stamped_countable (stamped ⟨q, o.fileId⟩ List.mem_cons_self) (stage_complete done)
      have unseen : s.Unseen q.batchId o.fileId :=
        unseen_of_fresh (fresh ⟨q, o.fileId⟩ List.mem_cons_self) (stage_number start done)
      have rows := shows_of_unseen sound countable unseen (stage_effect start countable done)
      rw [same.fileSlices sound (others.sound sound)]
      exact rows_column (summaryColumn q _ _) rows
    · refine ih sound numbers' files' (fun e there => under e (own e there))
        (fun e there => stamped e (own e there)) (fun e there id known => ?_) mem
      have away : e.path ≠ repoPath q := fun same => first (List.mem_map.2 ⟨e, there, same⟩)
      have known' : s.fileId? e.path = some id := by
        rw [fileId?, ← stage_other start done away]
        exact known
      exact (stage_apart start numbers done away known').2.unseen (fresh e (own e there) id known')

/-- The check of the batch reads the parts of all results. -/
theorem summaries_all (all : StagedAll s staged t) (start : s.Sound) (numbers : s.Numbered)
    (files : (staged.map Staged.path).Nodup) (under : ∀ e ∈ staged, e.request.batchId = batch)
    (stamped : ∀ e ∈ staged, e.request.result.Stamped)
    (clean : ∀ r ∈ s.slices, r.isSeenIn batch = false) :
    (t.summaries batch).Perm (staged.flatMap fun e => e.request.result.chunks.map partSummary) := by
  have sound := all.sound start
  have known : ∀ r ∈ t.visibleIn batch, r.content.fileId ∈ staged.map (·.fileId) := by
    intro r mem
    obtain ⟨there, -, seen⟩ := shown_spec ((mem_visibleIn sound).1 mem)
    by_contra away
    have unseen := (all.elsewhere start away).unseen fun v vmem _ => clean v vmem
    simp [unseen r there rfl] at seen
  have split : (staged.flatMap fun e => t.fileSlices batch e.fileId).Perm (t.visibleIn batch) := by
    have groups := flatMap_filter_perm (fun r : Slice => r.content.fileId)
      (all.numbers_apart start numbers files) known
    rw [List.flatMap_map] at groups
    exact (List.Perm.flatMap_left _ fun e _ => List.mergeSort_perm _ _).trans groups
  have contents : (staged.flatMap fun e => t.fileSlices batch e.fileId).map Slice.summary =
      staged.flatMap fun e => e.request.result.inOrder.map partSummary := by
    rw [List.map_flatMap]
    exact List.flatMap_congr fun e mem =>
      shows_all all start numbers files under stamped (fun e _ id _ r there _ => clean r there) mem
  have sorted : (t.summaries batch).Perm ((t.visibleIn batch).map Slice.summary) :=
    (List.mergeSort_perm _ _).map _
  refine (sorted.trans (split.symm.map _)).trans ?_
  rw [contents]
  exact List.Perm.flatMap_left _ fun e _ => (List.mergeSort_perm _ _).map _

/-! ### The parts of several results -/

theorem metadataOf_partSummary {p : Chunk} (fits : p.metadata.Fits) :
    metadataOf (partSummary p) = if p.metadata.isEmpty then none else some (.ok p.metadata) := by
  unfold metadataOf partSummary
  split
  · rfl
  · obtain ⟨inner, ends⟩ := p.metadata.canonical_ends
    have solid : Text.isAllBlank p.metadata.canonical.toList = false := by
      rw [ends, Text.isAllBlank, List.all_cons]
      rfl
    simp [Option.filter, solid, Metadata.read_canonical fits]

theorem parentOf_partSummary {p : Chunk} (fits : p.metadata.Fits) {parent : String}
    (names : parentOf (partSummary p) = some parent) :
    p.metadata.str? "delegate_parent_chunk" = some parent := by
  rw [parentOf, metadataOf_partSummary fits] at names
  by_cases empty : p.metadata.isEmpty = true
  · simp [empty] at names
  · simp only [empty, Bool.false_eq_true, if_false] at names
    exact (Option.filter_eq_some_iff.1 names).1

/-- The parts of a chunk of a complete result are numbered from zero. -/
theorem indices_result {r : HandlerResult} (complete : ∀ g ∈ ChunkGroup.all r.chunks, g.Complete)
    (countable : Countable r) (id : String) : (indices (r.chunks.map partSummary) id).Perm
      ((List.range (ChunkGroup.partsOf r.chunks id).length).map Int.ofNat) := by
  have raw : (indices (r.chunks.map partSummary) id).Perm
      ((ChunkGroup.partsOf r.chunks id).map fun p => (p.partIndex : Int)) := by
    have sorted := (List.mergeSort_perm (r.chunks.filter (·.chunkId = id))
      fun a b => a.partIndex ≤ b.partIndex).symm.map fun p => (p.partIndex : Int)
    refine (List.Perm.of_eq ?_).trans sorted
    rw [indices, List.filter_map, List.map_map]
    exact List.map_congr_left fun p mem => count_partIndex countable complete (List.mem_filter.1 mem).1
  refine raw.trans (List.Perm.of_eq ?_)
  by_cases there : id ∈ ChunkGroup.idsOf r.chunks
  · have group : (⟨id, ChunkGroup.partsOf r.chunks id⟩ : ChunkGroup) ∈ ChunkGroup.all r.chunks :=
      List.mem_map.2 ⟨id, there, rfl⟩
    have numbered := (complete _ group).numbered
    rw [← numbered, List.map_map]
    rfl
  · have none : ChunkGroup.partsOf r.chunks id = [] :=
      List.eq_nil_iff_forall_not_mem.2 fun p mem =>
        there (ChunkGroup.mem_idsOf.2 ⟨p, ChunkGroup.mem_partsOf.1 mem⟩)
    rw [none]
    rfl

/-- Two results that have no chunk id in common. -/
def Apart (a b : HandlerResult) : Prop := ∀ p ∈ a.chunks, ∀ q ∈ b.chunks, p.chunkId ≠ q.chunkId

/-- What the check reads of several results. -/
def summaries (results : List HandlerResult) : List SliceSummary :=
  results.flatMap fun r => r.chunks.map partSummary

variable {results : List HandlerResult} {r : HandlerResult}

theorem mem_summaries {row : SliceSummary} :
    row ∈ summaries results ↔ ∃ r ∈ results, ∃ p ∈ r.chunks, partSummary p = row := by
  simp [summaries]

theorem indices_summaries (results : List HandlerResult) (id : String) :
    indices (summaries results) id =
      results.flatMap fun r => indices (r.chunks.map partSummary) id := by
  rw [indices, summaries, List.filter_flatMap, List.map_flatMap]
  rfl

/-- Of several lists of which no two have members, one that has is all. -/
theorem flatMap_single {α β : Type} {l : List α} {f : α → List β} {a : α}
    (apart : l.Pairwise fun a b => f a = [] ∨ f b = []) (mem : a ∈ l) (some : f a ≠ []) :
    l.flatMap f = f a := by
  obtain ⟨before, after, rfl⟩ := List.append_of_mem mem
  obtain ⟨-, later, cross⟩ := List.pairwise_append.1 apart
  have none_before : before.flatMap f = [] := List.flatMap_eq_nil_iff.2 fun b there =>
    (cross b there a List.mem_cons_self).resolve_right some
  have none_after : after.flatMap f = [] := List.flatMap_eq_nil_iff.2 fun b there =>
    ((List.pairwise_cons.1 later).1 b there).resolve_left some
  rw [List.flatMap_append, List.flatMap_cons, none_before, none_after]
  simp

theorem indices_nil_of_absent {id : String} (absent : ∀ p ∈ r.chunks, p.chunkId ≠ id) :
    indices (r.chunks.map partSummary) id = [] := by
  simp only [indices, List.map_eq_nil_iff, List.filter_eq_nil_iff, List.mem_map]
  rintro _ ⟨p, mem, rfl⟩ same
  exact absent p mem (of_decide_eq_true same)

/-- The chunks of results that share no chunk id keep their indices. -/
theorem indices_apart (apart : results.Pairwise Apart) (mem : r ∈ results) {p : Chunk}
    (part : p ∈ r.chunks) :
    indices (summaries results) p.chunkId = indices (r.chunks.map partSummary) p.chunkId := by
  have some : indices (r.chunks.map partSummary) p.chunkId ≠ [] :=
    List.ne_nil_of_length_pos (indices_pos (List.mem_map_of_mem part))
  rw [indices_summaries]
  refine flatMap_single (apart.imp fun {a b} apart => ?_) mem some
  by_cases there : ∃ q ∈ a.chunks, q.chunkId = p.chunkId
  · obtain ⟨q, inside, same⟩ := there
    exact Or.inr (indices_nil_of_absent fun q' inside' same' =>
      apart q inside q' inside' (same.trans same'.symm))
  · exact Or.inl (indices_nil_of_absent fun q inside same => there ⟨q, inside, same⟩)

section Closed

variable (complete : ∀ r ∈ results, ∀ g ∈ ChunkGroup.all r.chunks, g.Complete)
  (closed : ∀ r ∈ results, Closed r)

include complete closed

theorem partTotal_result (mem : r ∈ results) {p : Chunk} (part : p ∈ r.chunks) :
    (partSummary p).partTotal = ((indices (r.chunks.map partSummary) p.chunkId).length : Int) := by
  have stamped := (closed r mem).stamped
  have numbered := indices_result (complete r mem) (stamped_countable stamped (complete r mem)) p.chunkId
  rw [numbered.length_eq, partSummary, stamped_total stamped (complete r mem) part]
  simp

theorem consistent_of_apart (apart : results.Pairwise Apart) : Consistent (summaries results) := by
  constructor
  case readable =>
    intro row mem e
    obtain ⟨r, there, p, part, rfl⟩ := mem_summaries.1 mem
    rw [metadataOf_partSummary ((closed r there).fits p part)]
    split <;> simp
  case counted =>
    intro row mem
    obtain ⟨r, there, p, part, rfl⟩ := mem_summaries.1 mem
    exact (partTotal_result complete closed there part).trans
      (congrArg (fun l => (List.length l : Int)) (indices_apart apart there part).symm)
  case numbered =>
    intro row mem
    obtain ⟨r, there, p, part, rfl⟩ := mem_summaries.1 mem
    have countable := stamped_countable (closed r there).stamped (complete r there)
    have numbered := indices_result (complete r there) countable p.chunkId
    have same : indices (summaries results) (partSummary p).chunkId =
        indices (r.chunks.map partSummary) p.chunkId := indices_apart apart there part
    rw [same, numbered.length_eq, List.length_map, List.length_range]
    exact numbered
  case parents =>
    intro row mem parent names
    obtain ⟨r, there, p, part, rfl⟩ := mem_summaries.1 mem
    obtain ⟨c, inside, own⟩ := (closed r there).parents p part parent
      (parentOf_partSummary ((closed r there).fits p part) names)
    exact ⟨_, mem_summaries.2 ⟨r, there, c, inside, rfl⟩, own⟩

theorem apart_of_consistent (consistent : Consistent (summaries results)) :
    results.Pairwise Apart := by
  refine List.pairwise_iff_forall_sublist.2 fun {a b} both p part q part' same => ?_
  have there : a ∈ results := both.subset List.mem_cons_self
  have counted := consistent.counted _ (mem_summaries.2 ⟨a, there, p, part, rfl⟩)
  rw [partTotal_result complete closed there part] at counted
  -- The indices of both results count, but the first has recorded only its own.
  have more := (both.flatMap fun r => indices (r.chunks.map partSummary) p.chunkId).length_le
  have positive := indices_pos (List.mem_map_of_mem part' : partSummary q ∈ b.chunks.map partSummary)
  rw [← indices_summaries results] at more
  change (_ : Int) = ((indices (summaries results) p.chunkId).length : Int) at counted
  change 0 < (indices (b.chunks.map partSummary) q.chunkId).length at positive
  rw [← same] at positive
  simp only [List.flatMap_cons, List.flatMap_nil, List.append_nil, List.length_append] at more
  omega

theorem consistent_iff_apart : Consistent (summaries results) ↔ results.Pairwise Apart :=
  ⟨apart_of_consistent complete closed, consistent_of_apart complete closed⟩

end Closed

theorem complete_all (all : StagedAll s staged t) {e : Staged} (mem : e ∈ staged) :
    ∀ g ∈ ChunkGroup.all e.request.result.chunks, g.Complete := by
  induction all with
  | nil => cases mem
  | cons done _ ih =>
    rcases List.mem_cons.1 mem with rfl | mem
    · exact stage_complete done
    · exact ih mem

/-- The check of a batch that was new before its files were staged. -/
theorem silent_iff_apart (all : StagedAll s staged t) (start : s.Sound) (numbers : s.Numbered)
    (clean : ∀ r ∈ s.slices, r.isSeenIn batch = false)
    (under : ∀ e ∈ staged, e.request.batchId = batch) (files : (staged.map Staged.path).Nodup)
    (closed : ∀ e ∈ staged, Closed e.request.result) :
    (assessSlices (t.summaries batch) {}).issues = [] ↔
      (staged.map fun e => e.request.result).Pairwise Apart := by
  have rows := summaries_all all start numbers files under (fun e mem => (closed e mem).stamped) clean
  rw [assessSlices_silent_iff, consistent_perm_iff rows, ← consistent_iff_apart, summaries,
    List.flatMap_map]
  · intro r mem
    obtain ⟨e, there, rfl⟩ := List.mem_map.1 mem
    exact complete_all all there
  · intro r mem
    obtain ⟨e, there, rfl⟩ := List.mem_map.1 mem
    exact closed e there

/-- After any history, the check of a fresh batch under which files with different paths are staged,
each with a closed result, is silent exactly if no two of the results share a chunk id. -/
theorem fresh_batch_silent_iff (calls : List Call)
    (all : StagedAll (Ledger.after calls).store staged t)
    (clean : ∀ r ∈ (Ledger.after calls).store.slices, r.isSeenIn batch = false)
    (under : ∀ e ∈ staged, e.request.batchId = batch) (files : (staged.map Staged.path).Nodup)
    (closed : ∀ e ∈ staged, Closed e.request.result) :
    (assessSlices (t.summaries batch) {}).issues = [] ↔
      (staged.map fun e => e.request.result).Pairwise Apart :=
  silent_iff_apart all (Ledger.sound_after calls) (Ledger.numbered_after calls) clean under files closed

/-! ### Two notes -/

/-- A file of one chunk in one part. -/
def ofNote (path chunkId : String) : StageRequest where
  batchId := "b1"
  handlerName := "text"
  handlerVersion := "1"
  versions := SortedMap.empty
  result := {
    file := { path, language := "text", checksum := "" }
    chunks := [{ chunkId, text := "one", startOffset := 0, endOffset := 0
                 metadata := Metadata.empty.putNat "part_total" 1 }] }

theorem ofNote_complete (path chunkId : String) :
    ∀ g ∈ ChunkGroup.all (ofNote path chunkId).result.chunks, g.Complete := by
  intro g mem
  obtain rfl : ⟨chunkId, (ofNote path chunkId).result.chunks⟩ = g := by
    simpa [ChunkGroup.all, ChunkGroup.idsOf, ChunkGroup.partsOf, ofNote, eq_comm] using mem
  refine ⟨rfl, fun p part t recorded => ?_⟩
  obtain rfl := List.mem_singleton.1 part
  exact (Option.some.inj ((Metadata.int?_putNat _ _ _).symm.trans recorded)).symm

theorem ofNote_closed (path chunkId : String) : Closed (ofNote path chunkId).result where
  stamped := by
    intro p mem
    obtain rfl := List.mem_singleton.1 mem
    simpa [ChunkGroup.partsOf, ofNote, count] using Metadata.int?_putNat Metadata.empty "part_total" 1
  fits := by
    intro p mem
    obtain rfl := List.mem_singleton.1 mem
    exact Metadata.fits_putNat Metadata.fits_empty _ _
  parents := by
    intro p mem name named
    obtain rfl := List.mem_singleton.1 mem
    cases named

def newBatch : List Call := [.ensureBatch { id := "b1", generatedAt := .epoch }]

theorem stagedAll_notes (first second : String) : ∃ t o p, StagedAll (Ledger.after newBatch).store
    [⟨ofNote "a.txt" first, o⟩, ⟨ofNote "b.txt" second, p⟩] t := by
  have plain (path chunkId : String) : ∀ p ∈ (ofNote path chunkId).result.chunks,
      Plain (ofNote path chunkId) p := by
    intro p mem
    obtain rfl := List.mem_singleton.1 mem
    exact ⟨rfl, rfl, "1", rfl⟩
  have sound := Ledger.sound_after newBatch
  obtain ⟨u, o, done⟩ := stage_succeeds (s := (Ledger.after newBatch).store) .epoch rfl rfl (ofNote_complete "a.txt" first)
    (plain "a.txt" first)
  have known : u.hasBatch "b1" = true := by
    rw [Store.hasBatch, stage_batches sound done]
    rfl
  obtain ⟨t, p, done'⟩ := stage_succeeds .epoch known rfl
    (ofNote_complete "b.txt" second) (plain "b.txt" second)
  exact ⟨t, o.fileId, p.fileId, .cons done (.cons done' (.nil t))⟩

theorem notes_under (first second : String) (o p : Int) :
    ∀ e ∈ ([⟨ofNote "a.txt" first, o⟩, ⟨ofNote "b.txt" second, p⟩] : List Staged),
      e.request.batchId = "b1" ∧ Closed e.request.result := by
  intro e mem
  simp only [List.mem_cons, List.not_mem_nil, or_false] at mem
  rcases mem with rfl | rfl
  · exact ⟨rfl, ofNote_closed _ _⟩
  · exact ⟨rfl, ofNote_closed _ _⟩

theorem notes_apart (first second : String) (o p : Int) :
    ([⟨ofNote "a.txt" first, o⟩, ⟨ofNote "b.txt" second, p⟩].map Staged.path).Nodup := by
  have path (path chunkId : String) : repoPath (ofNote path chunkId) =
      String.ofList (Text.replaceChar '\\' '/' path.toList) := rfl
  simp only [List.map_cons, List.map_nil, Staged.path, path]
  decide

/-- Two notes with different chunk ids. -/
theorem different_notes_silent : ∃ t o p,
    StagedAll (Ledger.after newBatch).store
      [⟨ofNote "a.txt" "first", o⟩, ⟨ofNote "b.txt" "second", p⟩] t ∧
    (assessSlices (t.summaries "b1") {}).issues = [] := by
  obtain ⟨t, o, p, all⟩ := stagedAll_notes "first" "second"
  have under := notes_under "first" "second" o p
  refine ⟨t, o, p, all, (fresh_batch_silent_iff newBatch all (fun r mem => by cases mem)
    (fun e mem => (under e mem).1) (notes_apart _ _ o p) fun e mem => (under e mem).2).2 ?_⟩
  simp [Apart, ofNote]

/-- Two files that use one chunk id, each staged without fault, raise an alarm. -/
theorem shared_chunk_id_alarms : ¬ ∀ (calls : List Call) (batch : String) (staged : List Staged)
    (t : Store), StagedAll (Ledger.after calls).store staged t →
    (∀ r ∈ (Ledger.after calls).store.slices, r.isSeenIn batch = false) →
    (∀ e ∈ staged, e.request.batchId = batch) → (staged.map Staged.path).Nodup →
    (∀ e ∈ staged, Closed e.request.result) → (assessSlices (t.summaries batch) {}).issues = [] := by
  intro claim
  obtain ⟨t, o, p, all⟩ := stagedAll_notes "notes" "notes"
  have under := notes_under "notes" "notes" o p
  have clean : ∀ r ∈ (Ledger.after newBatch).store.slices, r.isSeenIn "b1" = false :=
    fun r mem => by cases mem
  have files := notes_apart "notes" "notes" o p
  have silent := claim newBatch "b1" _ t all clean (fun e mem => (under e mem).1) files
    fun e mem => (under e mem).2
  have apart := (silent_iff_apart all (Ledger.sound_after newBatch) (Ledger.numbered_after newBatch)
    clean (fun e mem => (under e mem).1) files fun e mem => (under e mem).2).1 silent
  simp [Apart, ofNote] at apart

end Staging

end SourceSlices
