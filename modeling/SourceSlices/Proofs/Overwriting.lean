import SourceSlices.Proofs.ResultRows
import SourceSlices.Proofs.StagingSuccess

/-!
Staging under a batch that may have seen rows of the file before. An overwritten row keeps its old
number, and rows that the batch has only confirmed are never taken back, so the batch shows the new
result alone only if nothing it has seen gets in the way. The conditions are exact.
-/
namespace SourceSlices

variable {batch : String} {content : SliceContent} {contents : List SliceContent}

theorem shownAmong_none_iff {rows : List Slice} :
    shownAmong batch rows = none ↔ ∀ r ∈ rows, r.isSeenIn batch = false := by
  simp [shownAmong]

theorem shownAmong_snoc {rows : List Slice} {r : Slice} (seen : r.isSeenIn batch = true) :
    shownAmong batch (rows ++ [r]) = some r := by
  simp [shownAmong, List.filter_append, seen]

theorem shownAmong_map {rows : List Slice} {change : Slice → Slice}
    (keeps : ∀ r, (change r).isSeenIn batch = r.isSeenIn batch) :
    shownAmong batch (rows.map change) = (shownAmong batch rows).map change := by
  unfold shownAmong
  rw [List.filter_map, List.getLast?_map]
  congr 2
  exact List.filter_congr fun r _ => keeps r

theorem shown_of_confirmed {now : Instant} {before after : List Slice}
    (write : Confirmed batch now content before after) :
    (shownAmong batch after).map (·.content) = some content := by
  obtain ⟨older, row, -, holds, rfl⟩ := confirmed_inv write
  rw [shownAmong_snoc (by simp [Slice.isSeenIn, Store.confirmed])]
  exact congrArg some holds

/-- The batch shows a part that it has written, unless it has overwritten a row of its own behind
which it has seen another row that says something else. -/
theorem shown_of_written_iff {before after : List Slice}
    (write : Store.Written batch content before after) :
    (shownAmong batch after).map (·.content) = some content ↔
      ((∃ r ∈ before, r.batchId = batch) → ∀ r, shownAmong batch before = some r →
        r.batchId = batch ∨ r.content = content) := by
  cases write with
  | overwrite now own =>
    have same (r : Slice) : (if r.batchId = batch then Store.overwritten content batch now r
        else r).isSeenIn batch = r.isSeenIn batch := by
      by_cases writer : r.batchId = batch <;> simp [Slice.isSeenIn, Store.overwritten, writer]
    rw [shownAmong_map same, Option.map_map, Option.map_eq_some_iff]
    have holds (r : Slice) : (if r.batchId = batch then Store.overwritten content batch now r
        else r).content = content ↔ r.batchId = batch ∨ r.content = content := by
      by_cases writer : r.batchId = batch <;> simp [Store.overwritten, writer]
    -- Overwriting changes nothing about which row is shown, only what it says.
    constructor
    · rintro ⟨r, row, same⟩ - r' row'
      obtain rfl := Option.some.inj (row.symm.trans row')
      exact (holds r).1 same
    · intro clear
      cases row : shownAmong batch before with
      | none =>
        obtain ⟨r, mem, writer⟩ := own
        have unseen := shownAmong_none_iff.1 row r mem
        simp [Slice.isSeenIn, writer] at unseen
      | some r => exact ⟨r, rfl, (holds r).2 (clear own r row)⟩
  | append new foreign same writer seen =>
    rw [shownAmong_snoc (by simp [Slice.isSeenIn, writer])]
    refine ⟨fun _ => ?_, fun _ => congrArg some same⟩
    rintro ⟨r, mem, own⟩
    exact absurd own (foreign r mem)

/-- The newest versions of all parts say what is to be written. -/
def Unchanged (contents : List SliceContent) (versions : Int → List Slice) : Prop :=
  ∀ i (h : i < contents.length), (versions i).getLast?.map (·.content) = some contents[i]

/-- What a batch may have seen of a chunk if it is to show the new parts alone. Behind them it has
seen rows of its own only, and the chunk is rewritten, so that these rows go. In the place of a new
part it has not seen another row, newer than one of its own, that says something else. -/
structure Replaceable (batch : String) (contents : List SliceContent) (versions : Int → List Slice) :
    Prop where
  beyond : ∀ i : Int, i < 0 ∨ contents.length ≤ i → ∀ r ∈ versions i, r.isSeenIn batch = true →
    0 ≤ i ∧ r.batchId = batch ∧ ¬ Unchanged contents versions
  inside : ¬ Unchanged contents versions → ∀ i (h : i < contents.length),
    (∃ r ∈ versions i, r.batchId = batch) → ∀ r, shownAmong batch (versions i) = some r →
      r.batchId = batch ∨ r.content = contents[i]

namespace Staging

/-- A chunk that is confirmed is shown alone unless the batch has seen a part that it no longer has. -/
theorem confirmed_shows_iff {now : Instant} {before after : Int → List Slice}
    (parts : ∀ i (h : i < contents.length), Confirmed batch now contents[i] (before i) (after i))
    (others : ∀ i : Int, i < 0 ∨ contents.length ≤ i → after i = before i) :
    ShowsChunk batch contents after ↔ Replaceable batch contents before := by
  have unchanged : Unchanged contents before := by
    intro i h
    obtain ⟨older, row, split, holds, -⟩ := confirmed_inv (parts i h)
    simpa [split] using holds
  constructor
  · intro shows
    constructor
    · intro i range r mem seen
      have nothing := shows.others i range
      rw [others i range] at nothing
      rw [shownAmong_none_iff.1 nothing r mem] at seen
      cases seen
    · intro changed
      exact absurd unchanged changed
  · intro clear
    constructor
    · intro i h
      exact shown_of_confirmed (parts i h)
    · intro i range
      rw [others i range]
      refine shownAmong_none_iff.2 fun r mem => Bool.eq_false_iff.2 fun seen => ?_
      exact (clear.beyond i range r mem seen).2.2 unchanged

/-- What a chunk that is rewritten leaves behind its parts are rows of other batches. -/
theorem rewritten_beyond {before after : Int → List Slice}
    (below : ∀ i : Int, i < 0 → after i = before i)
    (beyond : ∀ i : Int, contents.length ≤ i → after i = (before i).filter (·.batchId ≠ batch))
    {i : Int} (range : i < 0 ∨ contents.length ≤ i) :
    shownAmong batch (after i) = none ↔
      ∀ r ∈ before i, r.isSeenIn batch = true → 0 ≤ i ∧ r.batchId = batch := by
  rw [shownAmong_none_iff]
  by_cases less : i < 0
  · rw [below i less]
    constructor
    · intro unseen r mem seen
      rw [unseen r mem] at seen
      cases seen
    · intro own r mem
      refine Bool.eq_false_iff.2 fun seen => ?_
      have := (own r mem seen).1
      omega
  · rw [beyond i (range.resolve_left less)]
    constructor
    · intro unseen r mem seen
      refine ⟨Int.not_lt.1 less, ?_⟩
      by_contra foreign
      rw [unseen r (List.mem_filter.2 ⟨mem, decide_eq_true foreign⟩)] at seen
      cases seen
    · intro own r mem
      obtain ⟨there, foreign⟩ := List.mem_filter.1 mem
      exact Bool.eq_false_iff.2 fun seen => of_decide_eq_true foreign (own r there seen).2

theorem rewritten_shows_iff {before after : Int → List Slice} (changed : ¬ Unchanged contents before)
    (parts : ∀ i (h : i < contents.length), Store.Written batch contents[i] (before i) (after i))
    (below : ∀ i : Int, i < 0 → after i = before i)
    (beyond : ∀ i : Int, contents.length ≤ i → after i = (before i).filter (·.batchId ≠ batch)) :
    ShowsChunk batch contents after ↔ Replaceable batch contents before := by
  constructor
  · intro shows
    constructor
    · intro i range r mem seen
      have own := (rewritten_beyond below beyond range).1 (shows.others i range) r mem seen
      exact ⟨own.1, own.2, changed⟩
    · intro _ i h
      exact (shown_of_written_iff (parts i h)).1 (shows.parts i h)
  · intro clear
    constructor
    · intro i h
      exact (shown_of_written_iff (parts i h)).2 (clear.inside changed i h)
    · intro i range
      refine (rewritten_beyond below beyond range).2 fun r mem seen => ?_
      have own := clear.beyond i range r mem seen
      exact ⟨own.1, own.2.1⟩

theorem shows_iff_replaceable {before after : Int → List Slice}
    (write : ChunkWrite batch contents before after) :
    ShowsChunk batch contents after ↔ Replaceable batch contents before := by
  cases write with
  | confirm now parts others => exact confirmed_shows_iff parts others
  | rewrite changed parts below beyond =>
    obtain ⟨i, h, differs⟩ := changed
    exact rewritten_shows_iff (fun unchanged => differs (unchanged i h)) parts below beyond

variable {q : StageRequest} {now : Instant} {fileId : Int} {ids : SymbolIds} {s t : Store}
  {o : StageOutcome}

/-- What a batch may have seen of a file if it is to show a new result alone. -/
structure Overwritable (s : Store) (q : StageRequest) (fileId : Int) (ids : SymbolIds) : Prop where
  chunks : ∀ g ∈ ChunkGroup.all q.result.chunks, ∀ contents, GroupRows q fileId ids g contents →
    Replaceable q.batchId contents (s.versions fileId g.chunkId)
  others : ∀ r ∈ s.slices, r.content.fileId = fileId → r.isSeenIn q.batchId = true →
    r.content.chunkId ∈ ChunkGroup.idsOf q.result.chunks

theorem shows_iff_overwritable (sound : t.Sound) (countable : Countable q.result)
    (write : FileWrite q fileId ids s t) :
    Rows q fileId ids ((t.fileSlices q.batchId fileId).map (·.content)) ↔
      Overwritable s q fileId ids := by
  have each (g : ChunkGroup) (mem : g ∈ ChunkGroup.all q.result.chunks) :
      ∃ contents, GroupRows q fileId ids g contents :=
    (write.groups g mem).imp fun contents both => both.1
  have effect (g : ChunkGroup) (mem : g ∈ ChunkGroup.all q.result.chunks)
      (contents : List SliceContent) (own : GroupRows q fileId ids g contents) :
      ChunkWrite q.batchId contents (s.versions fileId g.chunkId) (t.versions fileId g.chunkId) := by
    obtain ⟨contents', own', effect⟩ := write.groups g mem
    exact groupRows_unique own' own ▸ effect
  have kept (id : String) (other : id ∉ ChunkGroup.idsOf q.result.chunks) (i : Int) :
      t.versions fileId id i = s.versions fileId id i :=
    write.others _ fun both => other both.2
  -- Chunks of the result are judged one by one, and all others must not be shown.
  rw [shows_iff sound countable write.complete each]
  constructor
  · rintro ⟨chunks, others⟩
    refine ⟨fun g mem contents own => ?_, fun r mem file seen => ?_⟩
    · exact (shows_iff_replaceable (effect g mem contents own)).1 (chunks g mem contents own)
    · by_contra other
      have nothing := others _ other r.content.partIndex
      rw [kept _ other] at nothing
      have there : r ∈ s.versions fileId r.content.chunkId r.content.partIndex :=
        Store.mem_rowsAt.2 ⟨mem, by rw [← file]; rfl⟩
      rw [shownAmong_none_iff.1 nothing r there] at seen
      cases seen
  · intro clear
    refine ⟨fun g mem contents own => ?_, fun id other i => ?_⟩
    · exact (shows_iff_replaceable (effect g mem contents own)).2 (clear.chunks g mem contents own)
    · rw [kept id other]
      refine shownAmong_none_iff.2 fun r mem => Bool.eq_false_iff.2 fun seen => other ?_
      obtain ⟨there, here⟩ := Store.mem_rowsAt.1 mem
      have chunk : r.content.chunkId = id := congrArg (·.2.1) here
      exact chunk ▸ clear.others r there (congrArg Prod.fst here) seen

/-- After any history, a batch shows of a file exactly the result staged under it last if and only if
nothing that it had seen of the file stands in the way. -/
theorem restaged_result_shown_iff (calls : List Call) (countable : Countable q.result)
    (done : stage (Ledger.after calls).store now q = .ok (t, o)) :
    q.result.inOrder.map (sliceContent q o.fileId (symbolRows t o.fileId q.result.symbols)) =
        (t.fileSlices q.batchId o.fileId).map (fun r => .ok r.content) ↔
      Overwritable (Ledger.after calls).store q o.fileId
        (symbolRows t o.fileId q.result.symbols) := by
  have sound := Ledger.sound_after calls
  have write := stage_effect sound countable done
  rw [← shows_iff_overwritable (sound_stage sound done) countable write, Rows, List.map_map]
  rfl

theorem restaged_chunk_shown_iff : ∃ t o,
    stage (Ledger.after shrinking).store .epoch (ofTexts "b1" ["one", "two"]) = .ok (t, o) ∧
      ((ofTexts "b1" ["one", "two"]).result.inOrder.map (sliceContent (ofTexts "b1" ["one", "two"])
          o.fileId (symbolRows t o.fileId [])) =
        (t.fileSlices "b1" o.fileId).map (fun r => .ok r.content) ↔
      Overwritable (Ledger.after shrinking).store (ofTexts "b1" ["one", "two"]) o.fileId
        (symbolRows t o.fileId [])) := by
  obtain ⟨_, _, u, _, _, _, batches, last⟩ := after_shrinking
  obtain ⟨t, o, done, -⟩ := after_ofTexts .epoch "b1" ["one", "two"] shrinking
    (by rw [last, Store.hasBatch, batches]; rfl) (by decide)
  exact ⟨t, o, done, restaged_result_shown_iff shrinking (ofTexts_countable (by decide)) done⟩

/-! ### A part that stays -/

theorem first_version {before after : Int → List Slice} (none : ∀ i, before i = [])
    (write : ChunkWrite batch contents before after) {i : Nat} (h : i < contents.length) :
    ∃ new : Slice, after i = [new] ∧ new.batchId = batch := by
  cases write with
  | confirm now parts others =>
    obtain ⟨older, row, split, -⟩ := confirmed_inv (parts i h)
    simp [none i] at split
  | rewrite changed parts below beyond =>
    obtain ⟨new, put, -, writer, -⟩ := written_foreign (by simp [none i]) (parts i h)
    exact ⟨new, by simp [put, none i], writer⟩

/-- Parts written by a batch that had no rows in their slots are the newest of their slots. -/
theorem unchanged_after {before after : Int → List Slice}
    (foreign : ∀ i : Nat, i < contents.length → ∀ r ∈ before i, r.batchId ≠ batch)
    (write : ChunkWrite batch contents before after) : Unchanged contents after := by
  intro i h
  cases write with
  | confirm now parts others =>
    obtain ⟨older, row, -, holds, put⟩ := confirmed_inv (parts i h)
    simpa [put, Store.confirmed] using holds
  | rewrite changed parts below beyond =>
    obtain ⟨new, put, holds, -⟩ := written_foreign (foreign i h) (parts i h)
    simpa [put] using holds

theorem beyond_stays {before after : Int → List Slice} (write : ChunkWrite batch contents before after)
    {i : Int} (range : contents.length ≤ i) {r : Slice} (mem : r ∈ before i)
    (foreign : r.batchId ≠ batch) : r ∈ after i := by
  cases write with
  | confirm now parts others => exact others i (Or.inr range) ▸ mem
  | rewrite changed parts below beyond =>
    rw [beyond i range]
    exact List.mem_filter.2 ⟨mem, decide_eq_true foreign⟩

theorem ofTexts_rows {batch other : String} {texts : List String} {ids : SymbolIds}
    {contents : List SliceContent}
    (rows : GroupRows (ofTexts batch texts) fileId ids
      ⟨"notes", (ofTexts batch texts).result.chunks⟩ contents) :
    GroupRows (ofTexts other texts) fileId ids
      ⟨"notes", (ofTexts other texts).result.chunks⟩ contents :=
  ⟨rows.each, rows.placed⟩

/-- After `shrinking`, the first batch still sees the third part, and the newest rows of the other
two say what the second batch has staged. -/
theorem shrinking_leaves {u : Store} {f : Int} {staged : List Staged}
    (last : Ledger.after shrinking = ⟨u, staged⟩)
    (file : u.fileId? (repoPath (ofTexts "b1" ["one", "two"])) = some f) :
    (∃ r ∈ u.versions f "notes" 2, r.isSeenIn "b1" = true) ∧
      ∃ contents, contents.length = 2 ∧ Unchanged contents (u.versions f "notes") ∧
        GroupRows (ofTexts "b1" ["one", "two"]) f []
          ⟨"notes", (ofTexts "b1" ["one", "two"]).result.chunks⟩ contents := by
  obtain ⟨t, o, u', p, first, second, -, last'⟩ := after_shrinking
  obtain rfl : u' = u := congrArg Ledger.store (last'.symm.trans last)
  have sound := Ledger.sound_after twoBatches
  have soundT := sound_stage sound first
  have path : repoPath (ofTexts "b2" ["one", "two"]) = repoPath (ofTexts "b1" ["one", "two"]) := rfl
  have path' : repoPath (ofTexts "b1" ["one", "two", "three"]) =
      repoPath (ofTexts "b1" ["one", "two"]) := rfl
  have write := stage_effect sound (ofTexts_countable (by decide)) first
  have write' := stage_effect soundT (ofTexts_countable (by decide)) second
  -- All three stagings are of one file.
  have same : p.fileId = f := Option.some.inj ((path ▸ stage_fileId soundT second).symm.trans file)
  have same' : o.fileId = p.fileId := by
    have known := stage_number soundT second
    rw [path, ← path', stage_fileId sound first] at known
    simpa using known
  rw [same] at same' write'
  rw [same'] at write
  obtain ⟨three, rows, effect⟩ := write.groups _ (ofTexts_group "b1" "one" ["two", "three"])
  obtain ⟨two, rows', effect'⟩ := write'.groups _ (ofTexts_group "b2" "one" ["two"])
  have length : three.length = 3 := length_of_map_ok rows.each
  have length' : two.length = 2 := length_of_map_ok rows'.each
  have own (i : Nat) (h : i < 3) : ∃ new : Slice, t.versions f "notes" i = [new] ∧ new.batchId = "b1" :=
    first_version (fun _ => rfl) effect (length ▸ h)
  obtain ⟨new, made, writer⟩ := own 2 (by decide)
  refine ⟨⟨new, ?_, by simp [Slice.isSeenIn, writer]⟩, two, length', ?_, ?_⟩
  · have there : new ∈ t.versions f "notes" 2 := by
      have mem : new ∈ t.versions f "notes" (2 : Nat) := made ▸ List.mem_singleton.2 rfl
      exact mem
    exact beyond_stays effect' (by omega) there (by simp [writer, ofTexts])
  · refine unchanged_after (fun i h r mem => ?_) effect'
    obtain ⟨new, made, writer⟩ := own i (by omega)
    rw [made, List.mem_singleton] at mem
    simp [mem, writer, ofTexts]
  · exact ofTexts_rows rows'

/-- Staging again under a batch does not make it show the new result alone. After a chunk of three
parts was staged under one batch and its first two under another, staging these two under the first
batch confirms them and leaves the third where it is. -/
theorem restaged_batch_keeps_old_part : ¬ ∀ (calls : List Call) (now : Instant) (q : StageRequest)
    (t : Store) (o : StageOutcome), Countable q.result →
    (∃ r ∈ (Ledger.after calls).store.slices,
      r.content.fileId = o.fileId ∧ r.isSeenIn q.batchId = true) →
    stage (Ledger.after calls).store now q = .ok (t, o) →
    q.result.inOrder.map (sliceContent q o.fileId (symbolRows t o.fileId q.result.symbols)) =
      (t.fileSlices q.batchId o.fileId).map fun r => .ok r.content := by
  intro claim
  obtain ⟨_, _, u, p, first, second, batches, last⟩ := after_shrinking
  have countable : Countable (ofTexts "b1" ["one", "two"]).result := ofTexts_countable (by decide)
  obtain ⟨v, w, third, -⟩ := after_ofTexts .epoch "b1" ["one", "two"] shrinking
    (by rw [last, Store.hasBatch, batches]; rfl) (by decide)
  have file : u.fileId? (repoPath (ofTexts "b1" ["one", "two"])) = some w.fileId := by
    have known := stage_number (Ledger.sound_after shrinking) third
    have file' := stage_fileId (sound_stage (Ledger.sound_after twoBatches) first) second
    have path : repoPath (ofTexts "b2" ["one", "two"]) = repoPath (ofTexts "b1" ["one", "two"]) := rfl
    rw [last, ← path, file'] at known
    rw [← path, file']
    simpa using known
  obtain ⟨⟨r, mem, seen⟩, contents, length, unchanged, rows⟩ := shrinking_leaves last file
  obtain ⟨there, here⟩ := Store.mem_rowsAt.1 mem
  have shown := claim shrinking .epoch _ v w countable
    ⟨r, by rw [last]; exact there, congrArg Prod.fst here, seen⟩ third
  have clear := (restaged_result_shown_iff shrinking countable third).1 shown
  rw [last] at clear
  have blocked := (clear.chunks _ (ofTexts_group "b1" "one" ["two"]) contents rows).beyond 2
    (by omega) r mem seen
  exact blocked.2.2 unchanged

end Staging

end SourceSlices

/-!
### Fresh batches

Staging under a batch that has seen no row of the file. Whatever the history of the file, the batch
then shows the rows of the result and nothing else.
-/
namespace SourceSlices

/-- No row of a file has been written or confirmed by a batch. -/
def Store.Unseen (s : Store) (batch : String) (fileId : Int) : Prop :=
  ∀ r ∈ s.slices, r.content.fileId = fileId → r.isSeenIn batch = false

/-- The same by the path of the file; one that is not recorded has no rows. -/
def Store.Fresh (s : Store) (batch path : String) : Prop :=
  ∀ fileId, s.fileId? path = some fileId → s.Unseen batch fileId

namespace Staging

variable {q : StageRequest} {fileId : Int} {ids : SymbolIds} {s t : Store}

theorem unseen_of_fresh (fresh : s.Fresh q.batchId (repoPath q))
    (file : s.fileId? (repoPath q) = some fileId ∨
      s.fileId? (repoPath q) = none ∧ ∀ r ∈ s.slices, r.content.fileId ≠ fileId) :
    s.Unseen q.batchId fileId := by
  rcases file with known | ⟨-, unused⟩
  · exact fresh fileId known
  · exact fun r mem same => absurd same (unused r mem)

theorem replaceable_of_unseen {batch : String} {contents : List SliceContent}
    {versions : Int → List Slice} (unseen : ∀ i, ∀ r ∈ versions i, r.isSeenIn batch = false) :
    Replaceable batch contents versions where
  beyond i _ r mem seen := by
    rw [unseen i r mem] at seen
    cases seen
  inside _ i _ _ r row := by
    have nothing := shownAmong_none_iff.2 (unseen i)
    rw [nothing] at row
    cases row

theorem overwritable_of_unseen (unseen : s.Unseen q.batchId fileId) :
    Overwritable s q fileId ids where
  chunks g _ contents _ := by
    refine replaceable_of_unseen fun i r mem => ?_
    obtain ⟨there, here⟩ := Store.mem_rowsAt.1 mem
    exact unseen r there (congrArg Prod.fst here)
  others r mem file seen := by
    rw [unseen r mem file] at seen
    cases seen

/-- Staging under a fresh batch makes the batch show exactly the rows of the result. -/
theorem shows_of_unseen (sound : t.Sound) (countable : Countable q.result)
    (unseen : s.Unseen q.batchId fileId) (write : FileWrite q fileId ids s t) :
    Rows q fileId ids ((t.fileSlices q.batchId fileId).map (·.content)) :=
  (shows_iff_overwritable sound countable write).2 (overwritable_of_unseen unseen)

end Staging

end SourceSlices
