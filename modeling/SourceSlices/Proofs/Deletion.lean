import SourceSlices.Proofs.Overwriting
import SourceSlices.Recomposition
import SourceSlices.Run.Source

/-!
Deleting what a batch has written. A batch also shows rows that others wrote and that it has only
confirmed, so a deletion leaves the view of another batch alone exactly if that batch shows no row
of the deleted one.
-/
namespace SourceSlices

variable {s t : Store} {batch other : String}

/-- The ways to delete a batch: its slices alone, or together with the batch itself. -/
inductive Deleted (s : Store) (batch : String) : Store → Prop where
  | slices : Deleted s batch (s.deleteSlices batch).1
  | withBatch {r : Runner} {source : String} {t : Store} {n : Nat}
      (done : r.deleteBatch s source batch = .ok (t, n)) : Deleted s batch t

theorem Deleted.remaining (deleted : Deleted s batch t) :
    t.slices = (s.deleteSlices batch).1.slices := by
  cases deleted with
  | slices => rfl
  | withBatch done =>
    simp only [Runner.deleteBatch, bind_ok_iff] at done
    obtain ⟨root, -, done⟩ := done
    cases done
    exact Store.slices_dropBatch _ _

theorem Deleted.sound (sound : s.Sound) (deleted : Deleted s batch t) : t.Sound := by
  cases deleted with
  | slices => exact Store.sound_deleteSlices sound batch
  | withBatch done =>
    simp only [Runner.deleteBatch, bind_ok_iff] at done
    obtain ⟨root, -, done⟩ := done
    cases done
    exact Store.sound_dropBatch (Store.sound_deleteSlices sound batch) batch

theorem Deleted.shown (deleted : Deleted s batch t) (x : Slot) :
    t.shown? other x = shownAmong other ((s.rowsAt x).filter (·.batchId ≠ batch)) := by
  rw [Store.shown?, Store.rowsAt_congr deleted.remaining, Store.rowsAt_deleteSlices]

theorem shownAmong_kept {rows : List Slice} {r : Slice} (shown : shownAmong other rows = some r)
    (foreign : r.batchId ≠ batch) :
    shownAmong other (rows.filter (·.batchId ≠ batch)) = some r := by
  obtain ⟨older, split⟩ := List.getLast?_eq_some_iff.1 shown
  rw [shownAmong, List.filter_filter]
  simp only [Bool.and_comm (_ : Bool)]
  rw [← List.filter_filter, split, List.filter_append]
  simp [foreign]

theorem Deleted.shown_iff (deleted : Deleted s batch t) {x : Slot} :
    t.shown? other x = s.shown? other x ↔ ∀ r, s.shown? other x = some r → r.batchId ≠ batch := by
  rw [deleted.shown]
  constructor
  · intro same r shown
    obtain ⟨mem, -⟩ := Store.mem_of_shownAmong (same.trans shown)
    exact of_decide_eq_true (List.mem_filter.1 mem).2
  · intro foreign
    cases shown : s.shown? other x with
    | none =>
      have unseen := shownAmong_none_iff.1 shown
      exact shownAmong_none_iff.2 fun r mem => unseen r (List.mem_filter.1 mem).1
    | some r => exact shownAmong_kept shown (foreign r shown)

theorem Deleted.fileSlices_iff (sound : s.Sound) (deleted : Deleted s batch t) (fileId : Int) :
    t.fileSlices other fileId = s.fileSlices other fileId ↔
      ∀ r ∈ s.fileSlices other fileId, r.batchId ≠ batch := by
  have soundT := deleted.sound sound
  constructor
  · intro same r mem
    rw [← same, Store.mem_fileSlices soundT] at mem
    rw [deleted.shown] at mem
    exact of_decide_eq_true (List.mem_filter.1 (Store.mem_of_shownAmong mem.1).1).2
  · intro foreign
    refine Store.fileSlices_congr sound soundT fun x file => ?_
    refine deleted.shown_iff.2 fun v shown => foreign v ((Store.mem_fileSlices sound).2 ?_)
    have here : v.slot = x := (Store.shown_spec shown).2.1
    exact ⟨here ▸ shown, (congrArg Prod.fst here).trans file⟩

theorem Deleted.visible (sound : s.Sound) (deleted : Deleted s batch t)
    (foreign : ∀ r ∈ s.visibleIn other, r.batchId ≠ batch) : t.visibleIn other = s.visibleIn other := by
  have soundT := deleted.sound sound
  have ascending {u : Store} (sound : u.Sound) : (u.visibleIn other).Pairwise (·.id < ·.id) :=
    sound.sliceOrder.filter _
  have perm : (t.visibleIn other).Perm (s.visibleIn other) := by
    refine (List.perm_ext_iff_of_nodup ?_ ?_).2 fun r => ?_
    · exact (ascending soundT).imp fun less same => by simp [same] at less
    · exact (ascending sound).imp fun less same => by simp [same] at less
    · rw [Store.mem_visibleIn soundT, Store.mem_visibleIn sound, deleted.shown_iff.2]
      intro v shown
      exact foreign v ((Store.mem_visibleIn sound).2 ((Store.shown_spec shown).2.1 ▸ shown))
  refine perm.eq_of_pairwise (fun _ _ _ _ ab ba => ?_) (ascending soundT) (ascending sound)
  exact absurd (Int.lt_trans ab ba) (Int.lt_irrefl _)

namespace Staging

/-- After any history, deleting a batch leaves what another one shows of a file exactly if no row of
it was written by the deleted batch; if that holds of all files, neither the trees nor what the check
of the other batch reads change. -/
theorem deleted_rows_shown_iff (calls : List Call)
    (deleted : Deleted (Ledger.after calls).store batch t) (other : String) :
    (∀ fileId, t.fileSlices other fileId = (Ledger.after calls).store.fileSlices other fileId ↔
        ∀ r ∈ (Ledger.after calls).store.fileSlices other fileId, r.batchId ≠ batch) ∧
      ((∀ r ∈ (Ledger.after calls).store.visibleIn other, r.batchId ≠ batch) →
        t.summaries other = (Ledger.after calls).store.summaries other ∧
          ∀ fileId, Recomposition.ofFile t other fileId =
            Recomposition.ofFile (Ledger.after calls).store other fileId) := by
  have sound := Ledger.sound_after calls
  refine ⟨deleted.fileSlices_iff sound, fun foreign => ?_⟩
  have same := deleted.visible sound foreign
  constructor
  · rw [Store.summaries, Store.summaries, same]
  · intro fileId
    simp only [Recomposition.ofFile, Store.fileSlices, same]

/-- The second of two batches that have staged one text, after the first is deleted. -/
theorem deleted_first_batch_shown_iff : ∃ s t, s = (Ledger.after (bothBatches ["one"] ["one"])).store ∧
    Deleted s "b1" t ∧
      (∀ fileId, t.fileSlices "b2" fileId = s.fileSlices "b2" fileId ↔
        ∀ r ∈ s.fileSlices "b2" fileId, r.batchId ≠ "b1") ∧
      ((∀ r ∈ s.visibleIn "b2", r.batchId ≠ "b1") → t.summaries "b2" = s.summaries "b2" ∧
        ∀ fileId, Recomposition.ofFile t "b2" fileId = Recomposition.ofFile s "b2" fileId) :=
  ⟨_, _, rfl, .slices, deleted_rows_shown_iff _ .slices "b2"⟩

theorem confirmed_of_unchanged {contents : List SliceContent} {before after : Int → List Slice}
    (unchanged : Unchanged contents before) (write : ChunkWrite batch contents before after)
    {i : Nat} (h : i < contents.length) : ∃ older row now, before i = older ++ [row] ∧
      after i = older ++ [Store.confirmed batch now row] := by
  cases write with
  | confirm now parts others =>
    obtain ⟨older, row, split, -, put⟩ := confirmed_inv (parts i h)
    exact ⟨older, row, now, split, put⟩
  | rewrite changed parts below beyond =>
    obtain ⟨j, bound, differs⟩ := changed
    exact absurd (unchanged j bound) differs

/-- A chunk that is staged unchanged under a second batch keeps the row that the first one wrote, now
confirmed by the second. -/
theorem confirmed_row_newest {u : Store} {staged : List Staged}
    (last : Ledger.after (bothBatches ["one"] ["one"]) = ⟨u, staged⟩) :
    ∃ fileId older row, u.fileId? (repoPath (ofTexts "b2" ["one"])) = some fileId ∧
      GroupRows (ofTexts "b2" ["one"]) fileId [] ⟨"notes", (ofTexts "b2" ["one"]).result.chunks⟩
        [row.content] ∧
      u.versions fileId "notes" 0 = older ++ [row] ∧ row.batchId = "b1" ∧ row.lastSeen = "b2" := by
  obtain ⟨t, o, u', p, first, second, -, last'⟩ :=
    after_bothBatches ["one"] ["one"] (by decide) (by decide)
  obtain rfl : u' = u := congrArg Ledger.store (last'.symm.trans last)
  have sound := Ledger.sound_after twoBatches
  have soundT := sound_stage sound first
  have write := stage_effect sound (ofTexts_countable (by decide)) first
  have write' := stage_effect soundT (ofTexts_countable (by decide)) second
  have same : o.fileId = p.fileId := by
    have path : repoPath (ofTexts "b1" ["one"]) = repoPath (ofTexts "b2" ["one"]) := rfl
    have known := stage_number soundT second
    rw [← path, stage_fileId sound first] at known
    simpa using known
  rw [same] at write
  -- Both batches stage the same part, so the second one confirms the row that the first one wrote.
  obtain ⟨contents, rows, effect⟩ := write.groups _ (ofTexts_group "b1" "one" [])
  obtain ⟨contents', rows', effect'⟩ := write'.groups _ (ofTexts_group "b2" "one" [])
  obtain rfl := groupRows_unique (ofTexts_rows rows) rows'
  have length : contents.length = 1 := length_of_map_ok rows.each
  obtain ⟨content, rfl⟩ := List.length_eq_one_iff.1 length
  have unchanged : Unchanged [content] (t.versions p.fileId "notes") :=
    unchanged_after (fun _ _ _ mem => by cases mem) effect
  obtain ⟨new, made, writer⟩ := first_version (fun _ => rfl) effect (i := 0) Nat.one_pos
  obtain ⟨older, row, now, split, put⟩ := confirmed_of_unchanged unchanged effect' (i := 0) Nat.one_pos
  have own : row = new := by
    rw [made] at split
    simpa using (congrArg List.getLast? split).symm
  have holds : row.content = content := by
    have newest := unchanged 0 Nat.one_pos
    rw [split] at newest
    simpa using newest
  refine ⟨p.fileId, older, Store.confirmed "b2" now row, stage_fileId soundT second, ?_, put, ?_, rfl⟩
  · exact holds ▸ rows'
  · exact own ▸ writer

/-- The second batch shows that row. -/
theorem confirmed_row_shown {u : Store} {staged : List Staged}
    (last : Ledger.after (bothBatches ["one"] ["one"]) = ⟨u, staged⟩) :
    ∃ fileId, ∃ r ∈ u.fileSlices "b2" fileId, r.batchId = "b1" := by
  obtain ⟨fileId, older, row, -, -, put, writer, seen⟩ := confirmed_row_newest last
  have sound := Ledger.sound_after (bothBatches ["one"] ["one"])
  rw [last] at sound
  have shown : u.shown? "b2" (fileId, "notes", 0) = some row := by
    rw [Store.shown?]
    exact (congrArg (shownAmong "b2") put).trans (shownAmong_snoc (by simp [Slice.isSeenIn, seen]))
  have here := (Store.shown_spec shown).2.1
  refine ⟨fileId, row, (Store.mem_fileSlices sound).2 ⟨here ▸ shown, ?_⟩, writer⟩
  exact congrArg Prod.fst here

/-- Deleting a batch takes from another one what that has confirmed: a text that two batches have
staged is shown by the second as a row of the first, and goes with it. -/
theorem deletion_hides_confirmed_row : ¬ ∀ (calls : List Call) (batch other : String) (fileId : Int),
    batch ≠ other →
    ((Ledger.after calls).store.deleteSlices batch).1.fileSlices other fileId =
      (Ledger.after calls).store.fileSlices other fileId := by
  intro claim
  obtain ⟨_, _, u, _, -, -, -, last⟩ :=
    after_bothBatches ["one"] ["one"] (by decide) (by decide)
  obtain ⟨fileId, r, mem, writer⟩ := confirmed_row_shown last
  have sound := Ledger.sound_after (bothBatches ["one"] ["one"])
  have same := claim (bothBatches ["one"] ["one"]) "b1" "b2" fileId (by decide)
  rw [last] at sound same
  exact (Deleted.slices.fileSlices_iff sound fileId).1 same r mem writer

end Staging

end SourceSlices
