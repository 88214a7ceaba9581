import SourceSlices.Proofs.StagingSuccess

/-!
The first batch of a chunk. Whenever a chunk is written, its new rows take the first batch of its
oldest row, and no other statement changes the first batch of a row. So all rows of a chunk name one
batch, that of the staging under which the chunk came to have rows.
-/
namespace SourceSlices

namespace Store

variable {s t : Store} {fileId : Int} {chunkId : String}

/-- The first batches of all versions of all parts of a chunk. -/
def firstBatches (s : Store) (fileId : Int) (chunkId : String) : List String :=
  (s.chunkHistory fileId chunkId).map (·.firstSeen)

theorem firstBatches_eq_nil_iff :
    s.firstBatches fileId chunkId = [] ↔ s.chunkHistory fileId chunkId = [] :=
  List.map_eq_nil_iff

theorem firstBatches_congr (same : t.slices = s.slices) (fileId : Int) (chunkId : String) :
    t.firstBatches fileId chunkId = s.firstBatches fileId chunkId := by
  simp only [firstBatches, chunkHistory, same]

/-- A change of rows that moves none and keeps their first batches. -/
theorem firstBatches_map {change : Slice → Slice} (same : t.slices = s.slices.map change)
    (keeps : ∀ r ∈ s.slices, (change r).content.fileId = r.content.fileId ∧
      (change r).content.chunkId = r.content.chunkId ∧ (change r).firstSeen = r.firstSeen)
    (fileId : Int) (chunkId : String) :
    t.firstBatches fileId chunkId = s.firstBatches fileId chunkId := by
  simp only [firstBatches, chunkHistory, same, List.filter_map, List.map_map]
  have inside : s.slices.filter ((fun r => decide (r.content.fileId = fileId ∧
      r.content.chunkId = chunkId)) ∘ change) =
      s.slices.filter fun r => r.content.fileId = fileId ∧ r.content.chunkId = chunkId :=
    List.filter_congr fun r mem => by
      simp only [Function.comp_apply, (keeps r mem).1, (keeps r mem).2.1]
  rw [inside]
  exact List.map_congr_left fun r mem => (keeps r (List.mem_filter.1 mem).1).2.2

theorem firstBatches_confirm (s : Store) (ids : List Int) (batch : String) (now : Instant)
    (fileId : Int) (chunkId : String) :
    (s.confirm ids batch now).firstBatches fileId chunkId = s.firstBatches fileId chunkId :=
  firstBatches_map rfl (fun r _ => by split <;> exact ⟨rfl, rfl, rfl⟩) fileId chunkId

theorem firstBatches_filter {p : Slice → Bool} (same : t.slices = s.slices.filter p)
    (fileId : Int) (chunkId : String) :
    (t.firstBatches fileId chunkId).Sublist (s.firstBatches fileId chunkId) := by
  simp only [firstBatches, chunkHistory, same]
  exact (List.filter_sublist.filter _).map _

theorem firstBatches_dropParts_other (s : Store) (batch : String) (total : Int) {f : Int} {c : String}
    (other : ¬ (fileId = f ∧ chunkId = c)) :
    (s.dropParts batch f c total).firstBatches fileId chunkId = s.firstBatches fileId chunkId := by
  simp only [firstBatches, chunkHistory, dropParts, List.filter_filter]
  congr 1
  refine List.filter_congr fun r _ => ?_
  by_cases here : r.content.fileId = fileId ∧ r.content.chunkId = chunkId
  · obtain ⟨rfl, rfl⟩ := here
    simp only [and_self, decide_true, Bool.true_and]
    grind
  · simp [here]

/-- A part that is written adds at most its own first batch, and to its own chunk only. -/
theorem firstBatches_putSlice {c : Slice} (done : s.putSlice c = .ok t) (fileId : Int)
    (chunkId : String) :
    ∃ new, t.firstBatches fileId chunkId = s.firstBatches fileId chunkId ++ new ∧
      (∀ b ∈ new, b = c.firstSeen) ∧
      (¬ (c.content.fileId = fileId ∧ c.content.chunkId = chunkId) → new = []) := by
  obtain ⟨-, ⟨-, rfl⟩ | ⟨-, rfl⟩⟩ := putSlice_cases done
  · refine ⟨[], ?_, by simp, fun _ => rfl⟩
    rw [List.append_nil]
    refine firstBatches_map rfl (fun r _ => ?_) fileId chunkId
    split
    · rename_i own
      exact ⟨congrArg Prod.fst own.2.symm, congrArg (·.2.1) own.2.symm, rfl⟩
    · exact ⟨rfl, rfl, rfl⟩
  · by_cases here : c.content.fileId = fileId ∧ c.content.chunkId = chunkId
    · exact ⟨[c.firstSeen], by simp [firstBatches, chunkHistory, List.filter_append, here], by simp,
        fun away => absurd here away⟩
    · exact ⟨[], by simp [firstBatches, chunkHistory, List.filter_append, here], by simp,
        fun _ => rfl⟩

theorem chunkHistory_putSlice {c : Slice} (done : s.putSlice c = .ok t) :
    t.chunkHistory c.content.fileId c.content.chunkId ≠ [] := by
  obtain ⟨-, ⟨⟨r, mem, own⟩, rfl⟩ | ⟨-, rfl⟩⟩ := putSlice_cases done
  · refine List.ne_nil_of_mem (List.mem_filter.2 ⟨List.mem_map_of_mem mem, ?_⟩)
    rw [if_pos own]
    simp [overwritten]
  · exact List.ne_nil_of_mem (List.mem_filter.2 ⟨List.mem_append_right _ List.mem_cons_self, by simp⟩)

end Store

namespace Staging

open Store

variable {q : StageRequest} {now : Instant} {fileId f : Int} {chunkId : String} {ids : SymbolIds}
  {s t : Store} {o o' : StageOutcome}

theorem foldl_choice {α : Type} {step : Option α → α → Option α}
    (picks : ∀ b a, step (some b) a = some b ∨ step (some b) a = some a) {rest : List α} {first : α}
    {result : Option α} (done : rest.foldl step (some first) = result) :
    ∃ a ∈ first :: rest, result = some a := by
  induction rest generalizing first with
  | nil => exact ⟨first, List.mem_cons_self, done.symm⟩
  | cons a rest ih =>
    rw [List.foldl_cons] at done
    rcases picks first a with same | same
    · obtain ⟨b, mem, found⟩ := ih (same ▸ done)
      exact ⟨b, by grind, found⟩
    · obtain ⟨b, mem, found⟩ := ih (same ▸ done)
      exact ⟨b, List.mem_cons_of_mem _ mem, found⟩

/-- A chunk without rows gets the batch of the request as its first batch, any other the first batch
of one of its rows. -/
theorem firstSeen_cases (q : StageRequest) (history : List Slice) :
    firstSeen q history = q.batchId ∧ history = [] ∨
      firstSeen q history ∈ history.map (·.firstSeen) := by
  cases history with
  | nil => exact Or.inl ⟨rfl, rfl⟩
  | cons first rest =>
    right
    unfold firstSeen
    cases done : (first :: rest).foldl _ none
    all_goals
      obtain ⟨r, mem, found⟩ := foldl_choice (fun b a => by dsimp only; split <;> simp) done
      cases found
    exact List.mem_map_of_mem mem

theorem firstBatches_putAll {contents : List SliceContent} {batch first : String}
    (done : putAll s (contents.map (freshRow batch first now)) = .ok t) (f : Int) (id : String) :
    ∃ new, t.firstBatches f id = s.firstBatches f id ++ new ∧ (∀ b ∈ new, b = first) ∧
      ((∀ c ∈ contents, ¬ (c.fileId = f ∧ c.chunkId = id)) → new = []) := by
  induction contents generalizing s with
  | nil =>
    cases done
    exact ⟨[], (List.append_nil _).symm, by simp, fun _ => rfl⟩
  | cons c rest ih =>
    obtain ⟨u, put, others⟩ := putAll_cons_iff.1 done
    obtain ⟨new, grown, own, away⟩ := firstBatches_putSlice put f id
    obtain ⟨more, grown', own', away'⟩ := ih others
    refine ⟨new ++ more, by rw [grown', grown, List.append_assoc], fun b mem => ?_, fun apart => ?_⟩
    · exact (List.mem_append.1 mem).elim (own b) (own' b)
    · obtain ⟨first, rest⟩ := List.forall_mem_cons.1 apart
      rw [away first, away' rest, List.append_nil]

/-- Writing a part and more leaves no chunk of one of them without rows. -/
theorem chunkHistory_putAll {contents : List SliceContent} {batch first : String} {c : SliceContent}
    (mem : c ∈ contents) (done : putAll s (contents.map (freshRow batch first now)) = .ok t) :
    t.firstBatches c.fileId c.chunkId ≠ [] := by
  induction contents generalizing s with
  | nil => cases mem
  | cons d rest ih =>
    obtain ⟨u, put, others⟩ := putAll_cons_iff.1 done
    rcases List.mem_cons.1 mem with rfl | mem
    · obtain ⟨new, grown, -⟩ := firstBatches_putAll others c.fileId c.chunkId
      have there : u.firstBatches c.fileId c.chunkId ≠ [] :=
        fun none => chunkHistory_putSlice put (firstBatches_eq_nil_iff.1 none)
      simp [grown, there]
    · exact ih mem others

/-! ### Writing chunks -/

theorem contents_of_group {g : ChunkGroup} {contents : List SliceContent}
    (own : ∀ p ∈ g.parts, p.chunkId = g.chunkId)
    (each : g.parts.map (sliceContent q fileId ids) = contents.map .ok) {c : SliceContent}
    (mem : c ∈ contents) : c.fileId = fileId ∧ c.chunkId = g.chunkId := by
  have there : Except.ok c ∈ g.parts.map (sliceContent q fileId ids) :=
    each ▸ List.mem_map_of_mem mem
  obtain ⟨p, part, done⟩ := List.mem_map.1 there
  obtain ⟨slot, -⟩ := sliceContent_columns done
  simp only [SliceContent.slot, Prod.mk.injEq] at slot
  exact ⟨slot.1, slot.2.1.trans (own p part)⟩

/-- What writing makes of the first batches of a chunk: it has rows afterwards, and all first batches
are old ones, or that of the request if there were none. -/
structure Dated (batch : String) (before after : List String) : Prop where
  some : after ≠ []
  origin : ∀ b ∈ after, b ∈ before ∨ before = [] ∧ b = batch

theorem writeChunk_dates {g : ChunkGroup} (parts : g.parts ≠ [])
    (own : ∀ p ∈ g.parts, p.chunkId = g.chunkId)
    (done : writeChunk q now fileId ids s o g = .ok (t, o')) :
    Dated q.batchId (s.firstBatches fileId g.chunkId) (t.firstBatches fileId g.chunkId) ∧
      ∀ f id, ¬ (fileId = f ∧ g.chunkId = id) → t.firstBatches f id = s.firstBatches f id := by
  obtain ⟨-, contents, each, ⟨rows, found, rfl⟩ | ⟨-, put⟩⟩ := writeChunk_steps done
  · -- A chunk that is confirmed has rows already, and they keep their first batches.
    have kept := firstBatches_confirm s (rows.map (·.id)) q.batchId now
    refine ⟨⟨?_, fun b mem => Or.inl (kept _ _ ▸ mem)⟩, fun f id _ => kept f id⟩
    have bound : 0 < rows.length := by
      have := length_of_map_ok each
      have := congrArg List.length (unchanged_some_iff.1 found).2
      rw [List.length_map] at this
      have := List.length_pos_iff.2 parts
      omega
    obtain ⟨-, last, -⟩ := unchanged_row found bound
    obtain ⟨there, here⟩ := mem_rowsAt.1 (List.mem_of_getLast? last)
    simp only [Slice.slot, Prod.mk.injEq] at here
    rw [kept, ne_eq, firstBatches_eq_nil_iff]
    exact List.ne_nil_of_mem (List.mem_filter.2 ⟨there, decide_eq_true ⟨here.1, here.2.1⟩⟩)
  · -- A chunk that is written gets new rows, and all of them take over one first batch.
    obtain ⟨c, mem⟩ : ∃ c, c ∈ contents := by
      refine List.exists_mem_of_ne_nil _ fun none => parts ?_
      rw [none] at each
      exact List.map_eq_nil_iff.1 each
    refine ⟨⟨?_, fun b there => ?_⟩, fun f id other => ?_⟩
    · obtain ⟨file, chunk⟩ := contents_of_group own each mem
      exact file ▸ chunk ▸ chunkHistory_putAll mem put
    · obtain ⟨new, grown, fresh, -⟩ := firstBatches_putAll put fileId g.chunkId
      rw [grown] at there
      rcases List.mem_append.1 there with old | new
      · exact Or.inl ((firstBatches_filter rfl _ _).subset old)
      · rw [fresh b new, firstBatches_eq_nil_iff]
        exact (firstSeen_cases q _).symm.imp_right And.symm
    · obtain ⟨new, grown, -, away⟩ := firstBatches_putAll put f id
      rw [grown, away, List.append_nil]
      · exact firstBatches_dropParts_other s q.batchId _ fun same => other ⟨same.1.symm, same.2.symm⟩
      · intro c mem here
        obtain ⟨file, chunk⟩ := contents_of_group own each mem
        exact other ⟨file.symm.trans here.1, chunk.symm.trans here.2⟩

theorem writeChunks_dates {groups : List ChunkGroup} (parts : ∀ g ∈ groups, g.parts ≠ [])
    (own : ∀ g ∈ groups, ∀ p ∈ g.parts, p.chunkId = g.chunkId)
    (distinct : (groups.map (·.chunkId)).Nodup)
    (done : writeChunks q now fileId ids groups s o = .ok (t, o')) :
    (∀ g ∈ groups, Dated q.batchId (s.firstBatches fileId g.chunkId)
        (t.firstBatches fileId g.chunkId)) ∧
      ∀ f id, ¬ (fileId = f ∧ id ∈ groups.map (·.chunkId)) →
        t.firstBatches f id = s.firstBatches f id := by
  induction groups generalizing s o with
  | nil =>
    cases done
    exact ⟨by simp, fun _ _ _ => rfl⟩
  | cons g rest ih =>
    simp only [writeChunks, bind_ok_iff] at done
    obtain ⟨⟨u, o1⟩, first, others⟩ := done
    obtain ⟨apart, distinct'⟩ := List.nodup_cons.1 distinct
    obtain ⟨parts1, parts'⟩ := List.forall_mem_cons.1 parts
    obtain ⟨own1, own'⟩ := List.forall_mem_cons.1 own
    obtain ⟨dated, outsideU⟩ := writeChunk_dates parts1 own1 first
    obtain ⟨datedT, outsideT⟩ := ih parts' own' distinct' others
    refine ⟨fun h mem => ?_, fun f id other => ?_⟩
    · rcases List.mem_cons.1 mem with rfl | mem
      · exact outsideT fileId h.chunkId (fun both => apart both.2) ▸ dated
      · exact outsideU fileId h.chunkId
          (fun both => apart (List.mem_map.2 ⟨h, mem, both.2.symm⟩)) ▸ datedT h mem
    · rw [outsideT f id fun both => other ⟨both.1, List.mem_cons_of_mem _ both.2⟩]
      exact outsideU f id fun both => other ⟨both.1, both.2 ▸ List.mem_cons_self⟩

/-- Staging a file dates the chunks of the result and no others. -/
theorem stage_dates (done : stage s now q = .ok (t, o)) :
    (∀ id ∈ ChunkGroup.idsOf q.result.chunks, Dated q.batchId (s.firstBatches o.fileId id)
        (t.firstBatches o.fileId id)) ∧
      ∀ f id, ¬ (o.fileId = f ∧ id ∈ ChunkGroup.idsOf q.result.chunks) →
        t.firstBatches f id = s.firstBatches f id := by
  obtain ⟨groups, s1, fileId, s2, o2, ids, s3, grouped, ⟨f, -, file⟩, symbols, links, chunks⟩ :=
    stage_steps done
  obtain ⟨rfl, -⟩ := ChunkGroup.ofChunks_ok_iff.1 grouped
  obtain ⟨-, -, slices1, -⟩ := upsertFile_tables file
  obtain ⟨same2, -, file2, -⟩ := writeSymbols_rows symbols
  have before := firstBatches_congr
    ((linkParents_rows links).1.slices.trans (same2.slices.trans slices1))
  have number : o.fileId = fileId := (writeChunks_tables chunks).2.trans file2
  have names : (ChunkGroup.all q.result.chunks).map (·.chunkId) =
      ChunkGroup.idsOf q.result.chunks := by
    simp [ChunkGroup.all, Function.comp_def]
  have own (g : ChunkGroup) (mem : g ∈ ChunkGroup.all q.result.chunks) (p : Chunk)
      (part : p ∈ g.parts) : p.chunkId = g.chunkId :=
    (ChunkGroup.mem_partsOf.1 ((ChunkGroup.mem_all mem).2 ▸ part)).2
  obtain ⟨dated, others⟩ := writeChunks_dates (fun g mem => ChunkGroup.parts_ne_nil mem) own
    (ChunkGroup.nodup_all_ids _) chunks
  refine ⟨fun id mem => ?_, fun f id other => ?_⟩
  · obtain ⟨g, there, rfl⟩ := List.mem_map.1 (names ▸ mem)
    exact number ▸ before fileId g.chunkId ▸ dated g there
  · rw [← before f id]
    exact others f id (number ▸ names ▸ other)

end Staging

namespace Ledger

open Staging

variable {fileId : Int} {chunkId : String}

/-- A history in which a chunk comes to have rows with one staging and is never without rows after
it: `earlier` leaves it without any, and `later` follows the staging. -/
structure HeldSince (earlier : List Call) (now : Instant) (q : StageRequest) (later : List Call)
    (fileId : Int) (chunkId : String) : Prop where
  missing : (after earlier).store.chunkHistory fileId chunkId = []
  written : ∃ t o, stage (after earlier).store now q = .ok (t, o) ∧ o.fileId = fileId ∧
    chunkId ∈ ChunkGroup.idsOf q.result.chunks
  held : ∀ some, some <+: later →
    (after (earlier ++ .stage now q :: some)).store.chunkHistory fileId chunkId ≠ []

theorem HeldSince.snoc {earlier later : List Call} {now : Instant} {q : StageRequest}
    (since : HeldSince earlier now q later fileId chunkId) {c : Call}
    (still : (after (earlier ++ .stage now q :: later ++ [c])).store.chunkHistory fileId chunkId ≠
      []) :
    HeldSince earlier now q (later ++ [c]) fileId chunkId where
  missing := since.missing
  written := since.written
  held some pre := by
    rcases List.prefix_concat_iff.1 pre with rfl | inside
    · simpa using still
    · exact since.held some inside

/-- What one call makes of the first batches of a chunk that has rows: they are old ones. A chunk
without rows gets rows by a staging that writes it, and all of them name the batch of that. -/
theorem step_dates (l : Ledger) (c : Call) (fileId : Int) (chunkId : String) :
    (∀ b ∈ (l.step c).store.firstBatches fileId chunkId, b ∈ l.store.firstBatches fileId chunkId) ∨
      l.store.firstBatches fileId chunkId = [] ∧ ∃ now q t o, c = .stage now q ∧
        stage l.store now q = .ok (t, o) ∧ o.fileId = fileId ∧
        chunkId ∈ ChunkGroup.idsOf q.result.chunks ∧
        ∀ b ∈ (l.step c).store.firstBatches fileId chunkId, b = q.batchId := by
  have kept (same : (l.step c).store.firstBatches fileId chunkId =
      l.store.firstBatches fileId chunkId) :
      ∀ b ∈ (l.step c).store.firstBatches fileId chunkId,
        b ∈ l.store.firstBatches fileId chunkId := fun b mem => same ▸ mem
  cases c with
  | ensureBatch b => exact Or.inl (kept (Store.firstBatches_congr (Store.slices_ensureBatch _ b) _ _))
  | dropBatch b => exact Or.inl (kept (Store.firstBatches_congr (Store.slices_dropBatch _ b) _ _))
  | deleteSlices b => exact Or.inl (Store.firstBatches_filter rfl fileId chunkId).subset
  | stage now q =>
    cases done : stage l.store now q with
    | error e =>
      left
      simp only [step, done]
      exact fun b mem => mem
    | ok result =>
      obtain ⟨t, o⟩ := result
      have next : (l.step (.stage now q)).store = t := by simp only [step, done]
      rw [next] at kept ⊢
      obtain ⟨dated, others⟩ := stage_dates done
      -- Only the chunks that the result names are written.
      by_cases own : o.fileId = fileId ∧ chunkId ∈ ChunkGroup.idsOf q.result.chunks
      · obtain ⟨rfl, named⟩ := own
        have origin := (dated chunkId named).origin
        by_cases none : l.store.firstBatches o.fileId chunkId = []
        · refine Or.inr ⟨none, now, q, t, o, rfl, done, rfl, named, fun b mem => ?_⟩
          rcases origin b mem with old | new
          · rw [none] at old
            cases old
          · exact new.2
        · exact Or.inl fun b mem => (origin b mem).resolve_right fun new => none new.1
      · exact Or.inl (kept (others fileId chunkId own))

/-- All rows of a chunk, over all its parts and versions, name one first batch: that of the staging
that wrote the chunk first since it last had no rows. -/
theorem first_batch_of_chunk (calls : List Call) (fileId : Int) (chunkId : String)
    (there : (after calls).store.chunkHistory fileId chunkId ≠ []) :
    ∃ earlier now q later, calls = earlier ++ .stage now q :: later ∧
      HeldSince earlier now q later fileId chunkId ∧
      ∀ r ∈ (after calls).store.slices, r.content.fileId = fileId → r.content.chunkId = chunkId →
        r.firstSeen = q.batchId := by
  suffices dated : ∃ earlier now q later, calls = earlier ++ .stage now q :: later ∧
      HeldSince earlier now q later fileId chunkId ∧
      ∀ b ∈ (after calls).store.firstBatches fileId chunkId, b = q.batchId by
    obtain ⟨earlier, now, q, later, split, since, one⟩ := dated
    refine ⟨earlier, now, q, later, split, since, fun r mem file chunk => one _ ?_⟩
    exact List.mem_map_of_mem (List.mem_filter.2 ⟨mem, decide_eq_true ⟨file, chunk⟩⟩)
  induction calls using List.reverseRecOn with
  | nil => exact absurd rfl there
  | append_singleton calls c ih =>
    rw [after_snoc] at there ⊢
    rcases step_dates (after calls) c fileId chunkId with old | begun
    · have some : (after calls).store.chunkHistory fileId chunkId ≠ [] := by
        rw [ne_eq, ← Store.firstBatches_eq_nil_iff] at there ⊢
        obtain ⟨b, mem⟩ := List.exists_mem_of_ne_nil _ there
        exact List.ne_nil_of_mem (old b mem)
      obtain ⟨earlier, now, q, later, rfl, since, one⟩ := ih some
      refine ⟨earlier, now, q, later ++ [c], by simp, since.snoc ?_, fun b mem => one b (old b mem)⟩
      rwa [after_snoc]
    · obtain ⟨none, now, q, t, o, rfl, done, file, named, new⟩ := begun
      refine ⟨calls, now, q, [], rfl, ⟨Store.firstBatches_eq_nil_iff.1 none,
        ⟨t, o, done, file, named⟩, fun some pre => ?_⟩, new⟩
      rw [List.prefix_nil.1 pre, after_snoc]
      exact there

/-- A text that is staged under one batch and then another text under a second one. -/
theorem first_batch_of_both : ∃ fileId,
    (after (bothBatches ["one"] ["two"])).store.chunkHistory fileId "notes" ≠ [] ∧
      ∃ earlier now q later, bothBatches ["one"] ["two"] = earlier ++ .stage now q :: later ∧
        HeldSince earlier now q later fileId "notes" ∧
        ∀ r ∈ (after (bothBatches ["one"] ["two"])).store.slices, r.content.fileId = fileId →
          r.content.chunkId = "notes" → r.firstSeen = q.batchId := by
  obtain ⟨t, o, u, p, -, second, -, last⟩ :=
    after_bothBatches ["one"] ["two"] (by decide) (by decide)
  have named : "notes" ∈ ChunkGroup.idsOf (ofTexts "b2" ["two"]).result.chunks :=
    (ChunkGroup.mem_all (ofTexts_group "b2" "two" [])).1
  have there : (after (bothBatches ["one"] ["two"])).store.chunkHistory p.fileId "notes" ≠ [] := by
    rw [last, ne_eq, ← Store.firstBatches_eq_nil_iff]
    exact ((stage_dates second).1 "notes" named).some
  exact ⟨p.fileId, there, first_batch_of_chunk _ p.fileId "notes" there⟩

end Ledger

end SourceSlices
