import Mathlib.Data.List.Pairwise
import SourceSlices.Proofs.BatchView
import SourceSlices.Proofs.StagingSuccess
import SourceSlices.Proofs.Versions

/-!
No batch ever shows a torn chunk. Along every history whose stagings use each batch once for a file
and record the numbers of parts, what a batch shows of a chunk is nothing or one whole version.
-/
namespace SourceSlices

/-- Every part records how many parts its chunk has. -/
def HandlerResult.Stamped (r : HandlerResult) : Prop :=
  ∀ p ∈ r.chunks, p.metadata.int? "part_total" =
    some (Staging.count (ChunkGroup.partsOf r.chunks p.chunkId).length)

namespace Staging

variable {q : StageRequest} {now : Instant} {s t : Store} {o : StageOutcome}

theorem stamped_total {r : HandlerResult} (stamped : r.Stamped)
    (complete : ∀ g ∈ ChunkGroup.all r.chunks, g.Complete) {p : Chunk} (mem : p ∈ r.chunks) :
    p.metadata.int? "part_total" = some ((ChunkGroup.partsOf r.chunks p.chunkId).length : Int) := by
  obtain ⟨there, inside⟩ := ChunkGroup.ofPart_mem mem
  have total := (complete _ there).totals p inside _ (stamped p mem)
  rw [stamped p mem, total]
  rfl

theorem stamped_countable {r : HandlerResult} (stamped : r.Stamped)
    (complete : ∀ g ∈ ChunkGroup.all r.chunks, g.Complete) : Countable r := by
  intro id
  cases parts : ChunkGroup.partsOf r.chunks id with
  | nil => decide
  | cons p rest =>
    have there : p ∈ ChunkGroup.partsOf r.chunks id := parts ▸ List.mem_cons_self
    obtain ⟨mem, rfl⟩ := ChunkGroup.mem_partsOf.1 there
    have capped := (stamped p mem).symm.trans (stamped_total stamped complete mem)
    have exact_count := Option.some.inj capped
    rw [parts, count] at exact_count
    rw [← exact_count]
    exact Int.min_le_right _ _

theorem unheld_of_unused {staged : List Staged} {fileId : Int} {chunkId batch : String}
    {vs : List Version} (inv : Versioned staged s fileId chunkId vs)
    (unused : (batch, fileId) ∉ staged.map fun e => (e.request.batchId, e.fileId)) :
    ∀ v ∈ vs, ¬ v.Holds batch := by
  intro v mem held
  have logged := inv.logged v mem
  rcases held with writer | seen
  · obtain ⟨e, there, file, own, -⟩ := logged.written
    exact unused (List.mem_map.2 ⟨e, there, by rw [own, writer, file]⟩)
  · obtain ⟨e, there, file, own⟩ := logged.confirmed
    exact unused (List.mem_map.2 ⟨e, there, by rw [own, seen, file]⟩)

/-- The rows of a chunk of a stamped result record how many they are. -/
theorem stamped_rows {fileId : Int} {ids : SymbolIds} {chunkId : String}
    {contents : List SliceContent} (stamped : q.result.Stamped)
    (complete : ∀ g ∈ ChunkGroup.all q.result.chunks, g.Complete)
    (rows : GroupRows q fileId ids ⟨chunkId, ChunkGroup.partsOf q.result.chunks chunkId⟩ contents) :
    ∀ c ∈ contents, c.partTotal = contents.length := by
  have length := length_of_map_ok rows.each
  intro c mem
  obtain ⟨i, bound, rfl⟩ := List.getElem_of_mem mem
  have bound' : i < (ChunkGroup.partsOf q.result.chunks chunkId).length := length ▸ bound
  obtain ⟨-, -, -, total, -⟩ := sliceContent_columns (getElem_of_map_ok rows.each bound' bound)
  obtain ⟨part, own⟩ := ChunkGroup.mem_partsOf.1 (List.getElem_mem bound')
  rw [total, stamped_total stamped complete part, own, length]
  rfl

theorem restage_of_rows {staged : List Staged} {fileId : Int} {ids : SymbolIds} {chunkId : String}
    {contents : List SliceContent} (stamped : q.result.Stamped)
    (complete : ∀ g ∈ ChunkGroup.all q.result.chunks, g.Complete)
    (inside : chunkId ∈ ChunkGroup.idsOf q.result.chunks)
    (rows : GroupRows q fileId ids ⟨chunkId, ChunkGroup.partsOf q.result.chunks chunkId⟩ contents) :
    Versioned.Restage staged (staged ++ [⟨q, fileId⟩]) fileId chunkId q.batchId contents where
  parts := by
    intro none
    obtain ⟨p, mem, key⟩ := ChunkGroup.mem_idsOf.1 inside
    have there : p ∈ ChunkGroup.partsOf q.result.chunks chunkId :=
      ChunkGroup.mem_partsOf.2 ⟨mem, key⟩
    have length := length_of_map_ok rows.each
    rw [none] at length
    exact List.ne_nil_of_mem there (List.length_eq_zero_iff.1 length.symm)
  totals := stamped_rows stamped complete rows
  longer := List.subset_append_left _ _
  logged := ⟨⟨q, fileId⟩, by simp, rfl, rfl, ids, rows⟩

/-- Staging a stamped result under a batch new to the file keeps every chunk in whole versions. -/
theorem stage_versioned {staged : List Staged} (sound : s.Sound)
    (inv : ∀ fileId chunkId, ∃ vs, Versioned staged s fileId chunkId vs)
    (unused : (q.batchId, o.fileId) ∉ staged.map fun e => (e.request.batchId, e.fileId))
    (stamped : q.result.Stamped) (done : stage s now q = .ok (t, o)) (fileId : Int)
    (chunkId : String) : ∃ vs, Versioned (staged ++ [⟨q, o.fileId⟩]) t fileId chunkId vs := by
  obtain ⟨vs, inv⟩ := inv fileId chunkId
  have complete := stage_complete done
  have write := stage_effect sound (stamped_countable stamped complete) done
  by_cases touched : fileId = o.fileId ∧ chunkId ∈ ChunkGroup.idsOf q.result.chunks
  · obtain ⟨rfl, inside⟩ := touched
    obtain ⟨contents, rows, effect⟩ := write.groups _ (List.mem_map_of_mem inside)
    have unheld := unheld_of_unused inv unused
    have again : Versioned.Restage staged _ _ _ _ _ := restage_of_rows stamped complete inside rows
    cases effect with
    | confirm now parts others => exact inv.confirm again unheld parts others
    | rewrite changed parts below beyond => exact inv.rewrite again unheld parts below beyond
  · exact ⟨vs, inv.keep (List.subset_append_left _ _) (funext fun i => write.others _ touched)⟩

end Staging

namespace Versioned

variable {staged : List Staged} {s : Store} {fileId : Int} {chunkId : String} {vs : List Version}
  {batch : String}

theorem eq_of_held (inv : Versioned staged s fileId chunkId vs) {v w : Version} (hv : v ∈ vs)
    (hw : w ∈ vs) (held : v.Holds batch) (held' : w.Holds batch) : v = w := by
  by_contra other
  have symmetric : Std.Symm fun v w : Version => ∀ batch, ¬ (v.Holds batch ∧ w.Holds batch) :=
    ⟨fun _ _ apart b both => apart b both.symm⟩
  exact inv.apart.forall hv hw other batch ⟨held, held'⟩

theorem slot_of_row (inv : Versioned staged s fileId chunkId vs) {v : Version} (hv : v ∈ vs) {i : Nat}
    (bound : i < v.rows.length) : v.rows[i].slot = (fileId, chunkId, (i : Int)) := by
  obtain ⟨e, -, -, -, ids, rows⟩ := (inv.logged v hv).written
  have slot := rows.placed i (by simpa using bound)
  rwa [List.getElem_map] at slot

theorem version_of_row (inv : Versioned staged s fileId chunkId vs) {r : Slice}
    (mem : r ∈ s.slices) (file : r.content.fileId = fileId) (chunk : r.content.chunkId = chunkId) :
    ∃ v ∈ vs, r ∈ v.rows := by
  have there : r ∈ s.versions fileId chunkId r.content.partIndex :=
    Store.mem_rowsAt.2 ⟨mem, by simp [Slice.slot, file, chunk]⟩
  by_cases less : r.content.partIndex < 0
  · rw [inv.below _ less] at there
    cases there
  · obtain ⟨i, index⟩ := Int.eq_ofNat_of_zero_le (Int.not_lt.1 less)
    rw [index, inv.rows i] at there
    obtain ⟨v, hv, row⟩ := Version.mem_layer.1 there
    exact ⟨v, hv, List.mem_of_getElem? row⟩

theorem mem_slices (inv : Versioned staged s fileId chunkId vs) {v : Version} (hv : v ∈ vs)
    {r : Slice} (mem : r ∈ v.rows) : r ∈ s.slices := by
  obtain ⟨i, bound, rfl⟩ := List.getElem_of_mem mem
  have there : v.rows[i] ∈ s.versions fileId chunkId i := by
    rw [inv.rows i]
    exact Version.mem_layer.2 ⟨v, hv, List.getElem?_eq_getElem bound⟩
  exact (Store.mem_rowsAt.1 there).1

/-- A batch shows the rows of the version that it holds. -/
theorem shown_of_held (inv : Versioned staged s fileId chunkId vs) {v : Version} (hv : v ∈ vs)
    (held : v.Holds batch) {i : Nat} (bound : i < v.rows.length) :
    s.shown? batch (fileId, chunkId, (i : Int)) = some v.rows[i] := by
  have row : v.rows[i]? = some v.rows[i] := List.getElem?_eq_getElem bound
  have seen : v.rows[i] ∈ (Version.layer vs i).filter (·.isSeenIn batch) :=
    List.mem_filter.2 ⟨Version.mem_layer.2 ⟨v, hv, row⟩,
      (Version.isSeenIn_iff (inv.whole v hv) (List.getElem_mem bound)).2 held⟩
  change shownAmong batch (s.versions fileId chunkId i) = _
  rw [inv.rows i, shownAmong]
  cases last : ((Version.layer vs i).filter (·.isSeenIn batch)).getLast? with
  | none =>
    rw [List.getLast?_eq_none_iff.1 last] at seen
    cases seen
  | some x =>
    obtain ⟨inside, seen_x⟩ := List.mem_filter.1 (List.mem_of_getLast? last)
    obtain ⟨w, hw, row_w⟩ := Version.mem_layer.1 inside
    have held_w := (Version.isSeenIn_iff (inv.whole w hw) (List.mem_of_getElem? row_w)).1 seen_x
    obtain rfl := inv.eq_of_held hv hw held held_w
    rw [← row_w, row]

theorem mem_rows_iff (inv : Versioned staged s fileId chunkId vs) {v : Version} (hv : v ∈ vs)
    (r : Slice) : r ∈ v.rows ↔ r ∈ s.chunkHistory fileId chunkId ∧ r.batchId = v.writer := by
  constructor
  · intro row
    obtain ⟨i, bound, rfl⟩ := List.getElem_of_mem row
    have slot := inv.slot_of_row hv bound
    refine ⟨List.mem_filter.2 ⟨inv.mem_slices hv row, ?_⟩, (inv.whole v hv).writer _ row⟩
    exact decide_eq_true ⟨congrArg Prod.fst slot, congrArg (·.2.1) slot⟩
  · rintro ⟨stored, own⟩
    obtain ⟨there, here⟩ := List.mem_filter.1 stored
    obtain ⟨file, chunk⟩ := of_decide_eq_true here
    obtain ⟨w, hw, row⟩ := inv.version_of_row there file chunk
    have writer := ((inv.whole w hw).writer r row).symm.trans own
    exact inv.eq_of_held hw hv (Or.inl writer) (Or.inl rfl) ▸ row

theorem partIndexes (inv : Versioned staged s fileId chunkId vs) {v : Version} (hv : v ∈ vs) :
    v.rows.map (·.content.partIndex) = (List.range v.rows.length).map Int.ofNat := by
  refine List.ext_getElem (by simp) fun i hi _ => ?_
  have bound : i < v.rows.length := by simpa using hi
  simpa [Slice.slot] using congrArg (·.2.2) (inv.slot_of_row hv bound)

theorem rows_ordered (inv : Versioned staged s fileId chunkId vs) {v : Version} (hv : v ∈ vs) :
    v.rows.Pairwise fun a b => a.content.Before b.content := by
  refine List.pairwise_iff_getElem.2 fun i j hi hj less => Or.inr ?_
  have si := inv.slot_of_row hv hi
  have sj := inv.slot_of_row hv hj
  simp only [Slice.slot, Prod.mk.injEq] at si sj
  exact ⟨si.2.1.trans sj.2.1.symm, by omega⟩

theorem mem_view (sound : s.Sound) (batch : String) (r : Slice) :
    r ∈ (s.fileSlices batch fileId).filter (·.content.chunkId = chunkId) ↔
      s.shown? batch r.slot = some r ∧ r.content.fileId = fileId ∧ r.content.chunkId = chunkId := by
  simp only [List.mem_filter, Store.mem_fileSlices sound, decide_eq_true_eq, and_assoc]

/-- What a batch shows of a chunk belongs to a version that the batch holds. -/
theorem holder_of_shown (inv : Versioned staged s fileId chunkId vs) (sound : s.Sound) {r : Slice}
    (mem : r ∈ (s.fileSlices batch fileId).filter (·.content.chunkId = chunkId)) :
    ∃ v ∈ vs, r ∈ v.rows ∧ v.Holds batch := by
  obtain ⟨shown, file, chunk⟩ := (mem_view sound batch r).1 mem
  obtain ⟨there, -, seen⟩ := Store.shown_spec shown
  obtain ⟨v, hv, row⟩ := inv.version_of_row there file chunk
  exact ⟨v, hv, row, (Version.isSeenIn_iff (inv.whole v hv) row).1 seen⟩

/-- What a batch shows of a chunk is nothing or one version. -/
theorem view (inv : Versioned staged s fileId chunkId vs) (sound : s.Sound) (batch : String) :
    (s.fileSlices batch fileId).filter (·.content.chunkId = chunkId) = [] ∨
      ∃ v ∈ vs, (s.fileSlices batch fileId).filter (·.content.chunkId = chunkId) = v.rows := by
  cases rows : (s.fileSlices batch fileId).filter (·.content.chunkId = chunkId) with
  | nil => exact Or.inl rfl
  | cons first rest =>
    obtain ⟨v, hv, -, held⟩ := inv.holder_of_shown sound (rows ▸ List.mem_cons_self)
    have ordered := List.pairwise_map.1 (Store.fileSlices_ordered sound batch fileId)
    refine Or.inr ⟨v, hv, ?_⟩
    rw [← rows]
    refine eq_of_same_members Slice.content (ordered.filter _) (inv.rows_ordered hv) fun r => ?_
    constructor
    · intro mem
      obtain ⟨w, hw, row, held'⟩ := inv.holder_of_shown sound mem
      exact inv.eq_of_held hw hv held' held ▸ row
    · intro row
      obtain ⟨i, bound, rfl⟩ := List.getElem_of_mem row
      have slot := inv.slot_of_row hv bound
      have shown := slot ▸ inv.shown_of_held hv held bound
      exact (mem_view sound batch _).2
        ⟨shown, congrArg Prod.fst slot, congrArg (·.2.1) slot⟩

end Versioned

namespace Ledger

/-- No batch is used twice for a file, and all parts record the numbers of parts. -/
structure Disciplined (staged : List Staged) : Prop where
  once : (staged.map fun e => (e.request.batchId, e.fileId)).Nodup
  stamped : ∀ e ∈ staged, e.request.result.Stamped

theorem disciplined_earlier {staged more : List Staged} (disciplined : Disciplined more)
    (before : staged <+: more) : Disciplined staged where
  once := disciplined.once.sublist (before.sublist.map _)
  stamped e mem := disciplined.stamped e (before.subset mem)

theorem versioned_step {l : Ledger} (sound : l.store.Sound) (c : Call)
    (disciplined : Disciplined (l.step c).staged)
    (inv : ∀ fileId chunkId, ∃ vs, Versioned l.staged l.store fileId chunkId vs)
    (fileId : Int) (chunkId : String) :
    ∃ vs, Versioned (l.step c).staged (l.step c).store fileId chunkId vs := by
  obtain ⟨vs, own⟩ := inv fileId chunkId
  cases c with
  | ensureBatch b =>
    exact ⟨vs, own.keep (fun _ mem => mem)
      (funext fun i => Store.rowsAt_congr (Store.slices_ensureBatch _ b) _)⟩
  | dropBatch b =>
    exact ⟨vs, own.keep (fun _ mem => mem)
      (funext fun i => Store.rowsAt_congr (Store.slices_dropBatch _ b) _)⟩
  | stage now q =>
    cases done : Staging.stage l.store now q with
    | error e =>
      simp only [step, done]
      exact ⟨vs, own⟩
    | ok made =>
      obtain ⟨t, o⟩ := made
      simp only [step, done] at disciplined ⊢
      have once := disciplined.once
      rw [List.map_append, List.nodup_append] at once
      have unused : (q.batchId, o.fileId) ∉ l.staged.map fun e => (e.request.batchId, e.fileId) :=
        fun mem => once.2.2 _ mem _ (List.mem_singleton.2 rfl) rfl
      exact Staging.stage_versioned sound inv unused (disciplined.stamped ⟨q, o.fileId⟩ (by simp)) done
        fileId chunkId
  | deleteSlices b => exact ⟨_, own.delete b⟩

theorem versioned_after (calls : List Call) (disciplined : Disciplined (after calls).staged)
    (fileId : Int) (chunkId : String) :
    ∃ vs, Versioned (after calls).staged (after calls).store fileId chunkId vs := by
  refine (after_induction (P := fun l => l.store.Sound ∧ (Disciplined l.staged →
    ∀ fileId chunkId, ∃ vs, Versioned l.staged l.store fileId chunkId vs)) ?_ ?_ calls).2
    disciplined fileId chunkId
  · exact ⟨Store.sound_empty, fun _ fileId chunkId => ⟨[], .start fileId chunkId⟩⟩
  · intro l c ⟨sound, inv⟩
    refine ⟨sound_step sound c, fun disciplined => ?_⟩
    exact versioned_step sound c disciplined (inv (disciplined_earlier disciplined (staged_step l c)))

/-- Whatever a disciplined history was, a batch shows of a chunk nothing or one version: all rows that
one staging of the file wrote for the chunk, which are all parts of the chunk in that staging. -/
theorem chunk_never_torn (calls : List Call) (disciplined : Disciplined (after calls).staged)
    (batch : String) (fileId : Int) (chunkId : String) :
    let rows := ((after calls).store.fileSlices batch fileId).filter (·.content.chunkId = chunkId)
    rows = [] ∨ ∃ e ∈ (after calls).staged, e.fileId = fileId ∧
      (∀ r, r ∈ rows ↔
        r ∈ (after calls).store.chunkHistory fileId chunkId ∧ r.batchId = e.request.batchId) ∧
      rows.map (·.content.partIndex) = (List.range rows.length).map Int.ofNat ∧
      (∀ r ∈ rows, r.content.partTotal = rows.length) ∧
      rows.map (·.content.text) =
        (ChunkGroup.partsOf e.request.result.chunks chunkId).map (·.text) := by
  intro rows
  obtain ⟨vs, inv⟩ := versioned_after calls disciplined fileId chunkId
  rcases inv.view (sound_after calls) batch with none | ⟨v, hv, same⟩
  · exact Or.inl none
  · replace same : rows = v.rows := same
    obtain ⟨e, mem, file, writer, ids, made⟩ := (inv.logged v hv).written
    rw [same]
    refine Or.inr ⟨e, mem, file, ?_, inv.partIndexes hv, (inv.whole v hv).totals, ?_⟩
    · intro r
      rw [writer]
      exact inv.mem_rows_iff hv r
    · have length := length_of_map_ok made.each
      refine List.ext_getElem (by simpa using length) fun i hi hp => ?_
      simp only [List.length_map] at hi hp
      obtain ⟨-, text, -⟩ :=
        Staging.sliceContent_columns (getElem_of_map_ok made.each hp (by simpa using hi))
      simpa using text

theorem ofTexts_stamped (batch : String) (texts : List String) :
    (Staging.ofTexts batch texts).result.Stamped := by
  intro p mem
  obtain ⟨i, _, rfl⟩ := List.mem_mapIdx.1 mem
  rw [Staging.ofTexts_parts]
  simp only [Staging.ofTexts, List.length_mapIdx]
  rfl

theorem shrinking_disciplined : Disciplined (after Staging.shrinking).staged := by
  obtain ⟨t, o, u, p, -, -, -, last⟩ := Staging.after_shrinking
  rw [last]
  constructor
  · simp [Staging.ofTexts]
  · simp [ofTexts_stamped]

theorem shrunken_chunk_not_torn : Disciplined (after Staging.shrinking).staged ∧
    let rows := ((after Staging.shrinking).store.fileSlices "b1" 1).filter
      (·.content.chunkId = "notes")
    rows = [] ∨ ∃ e ∈ (after Staging.shrinking).staged, e.fileId = 1 ∧
      (∀ r, r ∈ rows ↔
        r ∈ (after Staging.shrinking).store.chunkHistory 1 "notes" ∧ r.batchId = e.request.batchId) ∧
      rows.map (·.content.partIndex) = (List.range rows.length).map Int.ofNat ∧
      (∀ r ∈ rows, r.content.partTotal = rows.length) ∧
      rows.map (·.content.text) =
        (ChunkGroup.partsOf e.request.result.chunks "notes").map (·.text) :=
  ⟨shrinking_disciplined, chunk_never_torn Staging.shrinking shrinking_disciplined "b1" 1 "notes"⟩

end Ledger

end SourceSlices
