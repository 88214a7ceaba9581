import SourceSlices.Proofs.AppendOnly
import SourceSlices.Proofs.Deletion

/-!
What an earlier batch goes on to show. A row carries the mark of one batch only, the last that has
confirmed it, so staging under another batch takes from an earlier one the rows that it confirms
itself and those that it overwrites or removes. Rows that the earlier batch wrote always stay.
-/
namespace SourceSlices

variable {batch other : String} {contents : List SliceContent}

/-- The rows that staging a chunk under a batch takes from those who have only confirmed them: the
newest of its slots if the chunk is confirmed, else the rows of the batch itself. -/
inductive Taken (batch : String) (contents : List SliceContent) (versions : Int → List Slice)
    (i : Int) (r : Slice) : Prop where
  | confirmed (unchanged : Unchanged contents versions) (inside : 0 ≤ i ∧ i < contents.length)
      (newest : (versions i).getLast? = some r) : Taken batch contents versions i r
  | rewritten (changed : ¬ Unchanged contents versions) (part : 0 ≤ i) (own : r.batchId = batch) :
      Taken batch contents versions i r

theorem shownAmong_unseen {rows : List Slice} {r : Slice} (unseen : r.isSeenIn other = false) :
    shownAmong other (rows ++ [r]) = shownAmong other rows := by
  simp [shownAmong, List.filter_append, unseen]

theorem same_of_unmarked {a b : Slice} (same : a.unmarked = b.unmarked) :
    a.id = b.id ∧ a.batchId = b.batchId ∧ a.content = b.content := by
  simp only [Slice.unmarked, Slice.mk.injEq] at same
  exact ⟨same.1, same.2.1, same.2.2.1⟩

/-- The newest row, when it is confirmed, is lost to every other batch that did not write it. -/
theorem shown_confirmed_iff {now : Instant} {content : SliceContent} {before after : List Slice}
    (away : other ≠ batch) (ascending : before.Pairwise (·.id < ·.id))
    (write : Confirmed batch now content before after) :
    (shownAmong other after).map Slice.unmarked = (shownAmong other before).map Slice.unmarked ↔
      ∀ r, shownAmong other before = some r → r.batchId ≠ other → before.getLast? ≠ some r := by
  obtain ⟨older, row, rfl, -, rfl⟩ := confirmed_inv write
  simp only [List.getLast?_append, List.getLast?_singleton, Option.some_or]
  have marked : (Store.confirmed batch now row).isSeenIn other = true ↔ row.batchId = other := by
    simp [Store.isSeenIn_iff, Store.confirmed, away.symm]
  by_cases writer : row.batchId = other
  · have seen : row.isSeenIn other = true := by simp [Slice.isSeenIn, writer]
    rw [shownAmong_snoc seen, shownAmong_snoc (marked.2 writer)]
    refine iff_of_true rfl fun r shown foreign => ?_
    exact absurd writer (Option.some.inj shown ▸ foreign)
  · rw [shownAmong_unseen (Bool.eq_false_iff.2 (mt marked.1 writer))]
    by_cases seen : row.isSeenIn other = true
    · rw [shownAmong_snoc seen]
      refine iff_of_false (fun same => ?_) fun kept => kept row rfl writer rfl
      obtain ⟨v, found, eq⟩ := Option.map_eq_some_iff.1 same
      have older := (Store.mem_of_shownAmong found).1
      have less := (List.pairwise_append.1 ascending).2.2 v older row (List.mem_singleton.2 rfl)
      exact Int.ne_of_lt less (same_of_unmarked eq).1
    · rw [Bool.not_eq_true] at seen
      rw [shownAmong_unseen seen]
      refine iff_of_true rfl fun r shown _ same => ?_
      have there := (Store.mem_of_shownAmong shown).2
      rw [← Option.some.inj same, seen] at there
      cases there

/-- The rows that a batch wrote, when they are removed, are lost to every other. -/
theorem shown_filter_iff {rows : List Slice} :
    (shownAmong other (rows.filter (·.batchId ≠ batch))).map Slice.unmarked =
        (shownAmong other rows).map Slice.unmarked ↔
      ∀ r, shownAmong other rows = some r → r.batchId ≠ batch := by
  constructor
  · intro same r shown own
    rw [shown, Option.map_some, Option.map_eq_some_iff] at same
    obtain ⟨v, found, eq⟩ := same
    have foreign := (List.mem_filter.1 (Store.mem_of_shownAmong found).1).2
    exact of_decide_eq_true foreign ((same_of_unmarked eq).2.1.trans own)
  · intro foreign
    cases shown : shownAmong other rows with
    | none =>
      have unseen := shownAmong_none_iff.1 shown
      rw [shownAmong_none_iff.2 fun r mem => unseen r (List.mem_filter.1 mem).1]
    | some r => rw [shownAmong_kept shown (foreign r shown)]

/-- What another batch shows of a slot that is written is what it shows of the rows of others there. -/
theorem shown_written {content : SliceContent} {before after : List Slice} (away : other ≠ batch)
    (write : Store.Written batch content before after) :
    shownAmong other after = shownAmong other (before.filter (·.batchId ≠ batch)) := by
  cases write with
  | overwrite now own =>
    -- An overwritten row has both its names from the batch, so no other batch sees it.
    have lost (r : Slice) (writer : r.batchId = batch) :
        (Store.overwritten content batch now r).isSeenIn other = false := by
      simp [Slice.isSeenIn, Store.overwritten, writer, away.symm]
    clear own
    unfold shownAmong
    congr 1
    induction before with
    | nil => rfl
    | cons r rest ih =>
      by_cases writer : r.batchId = batch
      · simpa [writer, lost r writer] using ih
      · by_cases seen : r.isSeenIn other = true
        · simpa [writer, seen] using ih
        · simpa [writer, seen] using ih
  | append new foreign holds writer seen =>
    have unseen : new.isSeenIn other = false := by
      simp [Slice.isSeenIn, writer, seen, away.symm]
    rw [List.filter_eq_self.2 fun r mem => decide_eq_true (foreign r mem), shownAmong_unseen unseen]

theorem taken_iff_of_unchanged {versions : Int → List Slice} (unchanged : Unchanged contents versions)
    {i : Int} {r : Slice} : Taken batch contents versions i r ↔
      (0 ≤ i ∧ i < contents.length) ∧ (versions i).getLast? = some r := by
  constructor
  · intro lost
    cases lost with
    | confirmed _ inside newest => exact ⟨inside, newest⟩
    | rewritten changed => exact absurd unchanged changed
  · rintro ⟨inside, newest⟩
    exact .confirmed unchanged inside newest

theorem taken_iff_of_changed {versions : Int → List Slice} (changed : ¬ Unchanged contents versions)
    {i : Int} {r : Slice} : Taken batch contents versions i r ↔ 0 ≤ i ∧ r.batchId = batch := by
  constructor
  · intro lost
    cases lost with
    | confirmed unchanged => exact absurd unchanged changed
    | rewritten _ part own => exact ⟨part, own⟩
  · rintro ⟨part, own⟩
    exact .rewritten changed part own

/-- What another batch shows of a chunk stays, slot by slot, exactly if none of it is taken. -/
theorem shown_chunk_iff {before after : Int → List Slice} (away : other ≠ batch)
    (ascending : ∀ i, (before i).Pairwise (·.id < ·.id))
    (write : ChunkWrite batch contents before after) (i : Int) :
    (shownAmong other (after i)).map Slice.unmarked =
        (shownAmong other (before i)).map Slice.unmarked ↔
      ∀ r, shownAmong other (before i) = some r → r.batchId ≠ other →
        ¬ Taken batch contents before i r := by
  cases write with
  | confirm now parts others =>
    have unchanged : Unchanged contents before := fun i h => by
      obtain ⟨older, row, split, holds, -⟩ := confirmed_inv (parts i h)
      simpa [split] using holds
    simp only [taken_iff_of_unchanged unchanged, not_and]
    by_cases inside : 0 ≤ i ∧ i < contents.length
    · obtain ⟨n, rfl⟩ := Int.eq_ofNat_of_zero_le inside.1
      rw [shown_confirmed_iff away (ascending _) (parts n (by omega))]
      simp only [inside, and_self, forall_const, ne_eq]
    · rw [others i (by omega)]
      exact iff_of_true rfl fun _ _ _ range => absurd range inside
  | rewrite changed parts below beyond =>
    have differs : ¬ Unchanged contents before := fun unchanged => by
      obtain ⟨j, h, other⟩ := changed
      exact other (unchanged j h)
    simp only [taken_iff_of_changed differs, not_and]
    by_cases part : 0 ≤ i
    · -- Behind the parts that are written the batch has only removed its rows, and within them nobody else
      -- sees what it wrote instead.
      have shown : shownAmong other (after i) =
          shownAmong other ((before i).filter (·.batchId ≠ batch)) := by
        by_cases inside : i < contents.length
        · obtain ⟨n, rfl⟩ := Int.eq_ofNat_of_zero_le part
          exact shown_written away (parts n (by omega))
        · rw [beyond i (by omega)]
      rw [shown, shown_filter_iff]
      refine forall_congr' fun r => imp_congr_right fun _ => ?_
      refine ⟨fun foreign _ _ => foreign, fun kept own => kept ?_ part own⟩
      exact fun writer => away (writer.symm.trans own)
    · rw [below i (by omega)]
      exact iff_of_true rfl fun _ _ _ range => absurd range part

namespace Store

/-- Two views of a file are the same apart from the marks if they are slot by slot. -/
theorem fileSlices_unmarked_iff {s t : Store} (sound : s.Sound) (soundT : t.Sound) {fileId : Int} :
    (t.fileSlices other fileId).map Slice.unmarked = (s.fileSlices other fileId).map Slice.unmarked ↔
      ∀ x : Slot, x.1 = fileId →
        (t.shown? other x).map Slice.unmarked = (s.shown? other x).map Slice.unmarked := by
  -- What a view says of a slot, as a member of the list.
  have member {u : Store} (sound : u.Sound) (v : Slice) :
      v ∈ (u.fileSlices other fileId).map Slice.unmarked ↔
        v.content.fileId = fileId ∧ (u.shown? other v.slot).map Slice.unmarked = some v := by
    simp only [List.mem_map, mem_fileSlices sound, Option.map_eq_some_iff]
    constructor
    · rintro ⟨r, ⟨shown, file⟩, rfl⟩
      exact ⟨file, r, shown, rfl⟩
    · rintro ⟨file, r, shown, rfl⟩
      exact ⟨r, ⟨shown, file⟩, rfl⟩
  constructor
  · intro same x file
    have half {u w : Store} (sound : u.Sound) (soundW : w.Sound)
        (same : (w.fileSlices other fileId).map Slice.unmarked =
          (u.fileSlices other fileId).map Slice.unmarked) {v : Slice}
        (shown : (u.shown? other x).map Slice.unmarked = some v) :
        (w.shown? other x).map Slice.unmarked = some v := by
      obtain ⟨r, found, rfl⟩ := Option.map_eq_some_iff.1 shown
      have here : r.unmarked.slot = x := (shown_spec found).2.1
      have there := (member soundW r.unmarked).1 (same ▸ (member sound r.unmarked).2
        ⟨(congrArg Prod.fst here).trans file, here ▸ shown⟩)
      exact here ▸ there.2
    exact Option.ext fun v => ⟨half soundT sound same.symm, half sound soundT same⟩
  · intro slots
    have ordered {u : Store} (sound : u.Sound) :
        ((u.fileSlices other fileId).map Slice.unmarked).Pairwise
          fun a b => a.content.Before b.content :=
      List.pairwise_map.2 (List.pairwise_map.1 (fileSlices_ordered sound other fileId))
    refine eq_of_same_members Slice.content (ordered soundT) (ordered sound) fun v => ?_
    rw [member soundT, member sound]
    exact and_congr_right fun file => by rw [slots v.slot file]

end Store

namespace Staging

open Store

variable {q : StageRequest} {now : Instant} {fileId : Int} {ids : SymbolIds} {s t : Store}
  {o : StageOutcome}

/-- The rows of a file that a request takes from those who have only confirmed them. -/
def TakenFrom (s : Store) (q : StageRequest) (fileId : Int) (ids : SymbolIds) (r : Slice) : Prop :=
  ∃ g ∈ ChunkGroup.all q.result.chunks, g.chunkId = r.content.chunkId ∧
    ∃ contents, GroupRows q fileId ids g contents ∧
      Taken q.batchId contents (s.versions fileId g.chunkId) r.content.partIndex r

theorem takenFrom_iff {g : ChunkGroup} (mem : g ∈ ChunkGroup.all q.result.chunks)
    (rows : GroupRows q fileId ids g contents) {r : Slice} (here : g.chunkId = r.content.chunkId) :
    TakenFrom s q fileId ids r ↔
      Taken q.batchId contents (s.versions fileId g.chunkId) r.content.partIndex r := by
  constructor
  · rintro ⟨h, mem', here', contents', rows', taken⟩
    obtain rfl := ChunkGroup.eq_of_same_id mem mem' (here.trans here'.symm)
    exact groupRows_unique rows rows' ▸ taken
  · exact fun taken => ⟨g, mem, here, contents, rows, taken⟩

theorem shown_stage_iff (sound : s.Sound) (write : FileWrite q fileId ids s t)
    (away : other ≠ q.batchId) {x : Slot} (file : x.1 = fileId) :
    (t.shown? other x).map Slice.unmarked = (s.shown? other x).map Slice.unmarked ↔
      ∀ r, s.shown? other x = some r → r.batchId ≠ other → ¬ TakenFrom s q fileId ids r := by
  obtain ⟨f, id, i⟩ := x
  obtain rfl : f = fileId := file
  have slot {r : Slice} (shown : s.shown? other (f, id, i) = some r) :
      r.content.chunkId = id ∧ r.content.partIndex = i := by
    have here := (shown_spec shown).2.1
    exact ⟨congrArg (·.2.1) here, congrArg (·.2.2) here⟩
  by_cases named : id ∈ ChunkGroup.idsOf q.result.chunks
  · obtain ⟨g, mem, rfl⟩ : ∃ g ∈ ChunkGroup.all q.result.chunks, g.chunkId = id :=
      ⟨_, List.mem_map_of_mem named, rfl⟩
    obtain ⟨contents, rows, effect⟩ := write.groups g mem
    refine (shown_chunk_iff away (fun j => rowsAt_ascending sound _) effect i).trans ?_
    refine forall_congr' fun r => imp_congr_right fun shown => imp_congr_right fun _ => ?_
    obtain ⟨chunk, part⟩ := slot shown
    rw [takenFrom_iff mem rows chunk.symm, part]
    exact Iff.rfl
  · rw [shown?, write.others _ fun both => named both.2]
    refine iff_of_true rfl fun r shown _ => ?_
    rintro ⟨g, mem, here, -⟩
    exact named ((slot shown).1 ▸ here ▸ (ChunkGroup.mem_all mem).1)

theorem view_kept_iff (sound : s.Sound) (countable : Countable q.result)
    (done : stage s now q = .ok (t, o)) (away : other ≠ q.batchId) :
    (t.fileSlices other o.fileId).map Slice.unmarked =
        (s.fileSlices other o.fileId).map Slice.unmarked ↔
      ∀ r ∈ s.fileSlices other o.fileId, r.batchId ≠ other →
        ¬ TakenFrom s q o.fileId (symbolRows t o.fileId q.result.symbols) r := by
  have write := stage_effect sound countable done
  rw [fileSlices_unmarked_iff sound (sound_stage sound done)]
  constructor
  · intro slots r mem
    obtain ⟨shown, file⟩ := (mem_fileSlices sound).1 mem
    exact (shown_stage_iff sound write away file).1 (slots r.slot file) r shown
  · intro kept x file
    refine (shown_stage_iff sound write away file).2 fun r shown => kept r ?_
    have here := (shown_spec shown).2.1
    exact (mem_fileSlices sound).2 ⟨here ▸ shown, (congrArg Prod.fst here).trans file⟩

/-- After any history, staging a file under one batch leaves the view that another batch has of every
other file. Of the file itself the other batch goes on to show the same rows, with at most other
marks, exactly if none of the rows that it has only confirmed is taken from it. -/
theorem earlier_view_kept_iff (calls : List Call) (countable : Countable q.result)
    (done : stage (Ledger.after calls).store now q = .ok (t, o)) (away : other ≠ q.batchId) :
    (∀ fileId, fileId ≠ o.fileId →
        t.fileSlices other fileId = (Ledger.after calls).store.fileSlices other fileId) ∧
      ((t.fileSlices other o.fileId).map Slice.unmarked =
          ((Ledger.after calls).store.fileSlices other o.fileId).map Slice.unmarked ↔
        ∀ r ∈ (Ledger.after calls).store.fileSlices other o.fileId, r.batchId ≠ other →
          ¬ TakenFrom (Ledger.after calls).store q o.fileId
            (symbolRows t o.fileId q.result.symbols) r) := by
  have sound := Ledger.sound_after calls
  refine ⟨fun fileId elsewhere => ?_, view_kept_iff sound countable done away⟩
  exact (stage_elsewhere sound done elsewhere).fileSlices sound (sound_stage sound done) other

/-- The first of two batches, when the second one stages another text. -/
theorem first_view_kept_iff : ∃ s t o, s = (Ledger.after (twoBatches ++
      [.stage .epoch (ofTexts "b1" ["one"])])).store ∧
    stage s .epoch (ofTexts "b2" ["two"]) = .ok (t, o) ∧
    (∀ fileId, fileId ≠ o.fileId → t.fileSlices "b1" fileId = s.fileSlices "b1" fileId) ∧
      ((t.fileSlices "b1" o.fileId).map Slice.unmarked =
          (s.fileSlices "b1" o.fileId).map Slice.unmarked ↔
        ∀ r ∈ s.fileSlices "b1" o.fileId, r.batchId ≠ "b1" →
          ¬ TakenFrom s (ofTexts "b2" ["two"]) o.fileId (symbolRows t o.fileId []) r) := by
  obtain ⟨u, p, -, once, batches⟩ := after_ofTexts .epoch "b1" ["one"] twoBatches rfl (by decide)
  obtain ⟨t, o, done, -⟩ := after_ofTexts .epoch "b2" ["two"]
    (twoBatches ++ [.stage .epoch (ofTexts "b1" ["one"])])
    (by rw [once, Store.hasBatch, batches]; rfl) (by decide)
  exact ⟨_, t, o, rfl, done,
    earlier_view_kept_iff _ (ofTexts_countable (by decide)) done (by decide)⟩

/-- A text that two batches have staged, and a third batch. -/
def threeBatches : List Call :=
  bothBatches ["one"] ["one"] ++ [.ensureBatch { id := "b3", generatedAt := .epoch }]

/-- The second batch only knows the text by its mark on the row of the first. -/
theorem threeBatches_row : ∃ fileId older row,
    (Ledger.after threeBatches).store.fileId? (repoPath (ofTexts "b3" ["one"])) = some fileId ∧
      GroupRows (ofTexts "b3" ["one"]) fileId [] ⟨"notes", (ofTexts "b3" ["one"]).result.chunks⟩
        [row.content] ∧
      (Ledger.after threeBatches).store.versions fileId "notes" 0 = older ++ [row] ∧
      row.batchId = "b1" ∧ row.lastSeen = "b2" := by
  obtain ⟨_, _, u, _, -, -, -, last⟩ :=
    after_bothBatches ["one"] ["one"] (by decide) (by decide)
  obtain ⟨fileId, older, row, file, rows, newest, marks⟩ := confirmed_row_newest last
  have store : (Ledger.after threeBatches).store =
      u.ensureBatch { id := "b3", generatedAt := .epoch } := by
    rw [threeBatches, Ledger.after_snoc, last]
    rfl
  refine ⟨fileId, older, row, ?_, ofTexts_rows rows, ?_, marks⟩
  · rw [store, fileId?, file?, Ledger.files_ensureBatch]
    exact file
  · rw [store, versions, rowsAt_congr (slices_ensureBatch u _)]
    exact newest

/-- The view of a batch does not last. A text that three batches stage one after the other is no
longer shown by the second once the third has confirmed it. -/
theorem third_batch_empties_second_view : ¬ ∀ (calls : List Call) (now : Instant) (q : StageRequest)
    (t : Store) (o : StageOutcome) (other : String), Countable q.result → other ≠ q.batchId →
    stage (Ledger.after calls).store now q = .ok (t, o) →
    (t.fileSlices other o.fileId).map Slice.unmarked =
      ((Ledger.after calls).store.fileSlices other o.fileId).map Slice.unmarked := by
  intro claim
  have sound := Ledger.sound_after threeBatches
  have countable : Countable (ofTexts "b3" ["one"]).result := ofTexts_countable (by decide)
  have known : (Ledger.after threeBatches).store.hasBatch "b3" = true := by
    rw [threeBatches, Ledger.after_snoc]
    exact hasBatch_ensureBatch _ _
  obtain ⟨t, o, done, -⟩ := after_ofTexts .epoch "b3" ["one"] threeBatches known (by decide)
  obtain ⟨fileId, older, row, file, rows, newest, writer, seen⟩ := threeBatches_row
  obtain rfl : o.fileId = fileId := by
    have number := stage_number sound done
    rw [file] at number
    simpa [eq_comm] using number
  have there : row ∈ (Ledger.after threeBatches).store.versions o.fileId "notes" 0 :=
    newest ▸ List.mem_append_right _ (List.mem_singleton.2 rfl)
  have here := (mem_rowsAt.1 there).2
  have shown : (Ledger.after threeBatches).store.shown? "b2" row.slot = some row := by
    rw [here, shown?]
    exact (congrArg (shownAmong "b2") newest).trans
      (shownAmong_snoc (by simp [Slice.isSeenIn, seen]))
  have same := claim threeBatches .epoch _ t o "b2" countable (by decide) done
  refine (view_kept_iff sound countable done (by decide)).1 same row
    ((mem_fileSlices sound).2 ⟨shown, congrArg Prod.fst here⟩) (by simp [writer]) ?_
  refine ⟨_, ofTexts_group "b3" "one" [], (congrArg (·.2.1) here).symm, _, rows, ?_⟩
  have part : row.content.partIndex = 0 := congrArg (·.2.2) here
  rw [part]
  refine .confirmed (fun i h => ?_) ⟨Int.le_refl _, by simp⟩ ?_
  · obtain rfl : i = 0 := by simpa using h
    simp [newest]
  · simp [newest]

end Staging

end SourceSlices
