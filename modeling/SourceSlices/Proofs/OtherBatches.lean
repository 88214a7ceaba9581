import SourceSlices.Proofs.OtherFiles

/-!
Staging a file that the store knows already. The slices that other batches wrote stay in their view,
and the symbols that the new result does not name stay as they are.
-/
namespace SourceSlices

namespace Store

variable {s t u : Store} {batch other : String}

/-! ### Slices of other batches -/

/-- A row that another batch wrote stays, and no row comes into the view of another batch. -/
structure Spares (batch : String) (s t : Store) : Prop where
  stays : ∀ r ∈ s.slices, r.batchId ≠ batch →
    ∃ v ∈ t.slices, v.id = r.id ∧ v.batchId = r.batchId ∧ v.content = r.content
  origin : ∀ v ∈ t.slices, ∀ other, other ≠ batch → v.isSeenIn other = true →
    ∃ r ∈ s.slices, r.id = v.id ∧ r.slot = v.slot ∧ r.isSeenIn other = true

theorem Spares.of_slices (same : t.slices = s.slices) (batch : String) : Spares batch s t where
  stays r mem _ := ⟨r, same ▸ mem, rfl, rfl, rfl⟩
  origin v mem _ _ seen := ⟨v, same ▸ mem, rfl, rfl, seen⟩

theorem Spares.trans (first : Spares batch s t) (second : Spares batch t u) : Spares batch s u where
  stays r mem foreign := by
    obtain ⟨v, there, id, writer, content⟩ := first.stays r mem foreign
    obtain ⟨w, there', id', writer', content'⟩ := second.stays v there (writer ▸ foreign)
    exact ⟨w, there', id'.trans id, writer'.trans writer, content'.trans content⟩
  origin w mem other away seen := by
    obtain ⟨v, there, id, slot, seen'⟩ := second.origin w mem other away seen
    obtain ⟨r, there', id', slot', seen''⟩ := first.origin v there other away seen'
    exact ⟨r, there', id'.trans id, slot'.trans slot, seen''⟩

theorem isSeenIn_iff {r : Slice} : r.isSeenIn other = true ↔ r.batchId = other ∨ r.lastSeen = other := by
  simp [Slice.isSeenIn]

theorem spares_confirm (s : Store) (ids : List Int) (batch : String) (now : Instant) :
    Spares batch s (s.confirm ids batch now) where
  stays r mem _ := ⟨_, List.mem_map_of_mem mem, by split <;> rfl, by split <;> rfl, by split <;> rfl⟩
  origin v mem other away seen := by
    obtain ⟨r, there, rfl⟩ := List.mem_map.1 mem
    refine ⟨r, there, by split <;> rfl, by split <;> rfl, ?_⟩
    split at seen
    · exact isSeenIn_iff.2 (Or.inl ((isSeenIn_iff.1 seen).resolve_right away.symm))
    · exact seen

theorem spares_dropParts (s : Store) (batch : String) (fileId : Int) (chunkId : String) (total : Int) :
    Spares batch s (s.dropParts batch fileId chunkId total) where
  stays r mem foreign := ⟨r, List.mem_filter.2 ⟨mem, by simp [foreign]⟩, rfl, rfl, rfl⟩
  origin v mem _ _ seen := ⟨v, (List.mem_filter.1 mem).1, rfl, rfl, seen⟩

theorem spares_putSlice {c : Slice} (seen : c.lastSeen = c.batchId) (done : s.putSlice c = .ok t) :
    Spares c.batchId s t := by
  obtain ⟨-, ⟨-, rfl⟩ | ⟨-, rfl⟩⟩ := putSlice_cases done
  · refine ⟨fun r mem foreign => ⟨r, ?_, rfl, rfl, rfl⟩, fun v mem other away visible => ?_⟩
    · refine List.mem_map.2 ⟨r, mem, if_neg fun own => foreign own.1⟩
    · obtain ⟨r, there, rfl⟩ := List.mem_map.1 mem
      split at visible
      · rename_i own
        rcases isSeenIn_iff.1 visible with writer | confirmed
        · exact absurd (own.1.symm.trans writer).symm away
        · exact absurd (seen.symm.trans confirmed).symm away
      · rename_i foreign
        exact ⟨r, there, by rw [if_neg foreign], by rw [if_neg foreign], visible⟩
  · refine ⟨fun r mem _ => ⟨r, List.mem_append_left _ mem, rfl, rfl, rfl⟩,
      fun v mem other away visible => ?_⟩
    rcases List.mem_append.1 mem with old | new
    · exact ⟨v, old, rfl, rfl, visible⟩
    · rw [List.mem_singleton.1 new] at visible
      rcases isSeenIn_iff.1 visible with writer | confirmed
      · exact absurd writer.symm away
      · exact absurd (seen.symm.trans confirmed).symm away

/-- A slice that a batch wrote itself stays in its view when another batch is written. -/
theorem Spares.shown (spares : Spares batch s t) (away : other ≠ batch) {fileId : Int} {r : Slice}
    (shown : r ∈ s.fileSlices other fileId) (own : r.batchId = other) :
    ∃ v ∈ t.fileSlices other fileId, v.content = r.content := by
  simp only [fileSlices, visibleIn, isNewestIn, List.mem_mergeSort, List.mem_filter, Bool.and_eq_true,
    List.all_eq_true, Bool.or_eq_true, Bool.not_eq_true', Bool.and_eq_false_iff, decide_eq_true_eq,
    decide_eq_false_iff_not] at shown ⊢
  obtain ⟨⟨mem, -, newest⟩, file⟩ := shown
  obtain ⟨v, there, id, writer, content⟩ := spares.stays r mem (own ▸ away)
  have slot : v.slot = r.slot := by rw [Slice.slot_eq, Slice.slot_eq, content]
  refine ⟨v, ⟨⟨there, isSeenIn_iff.2 (Or.inl (writer.trans own)), fun w mem' => ?_⟩, content ▸ file⟩,
    content⟩
  -- A newer row in the view of the other batch would have been there before.
  by_cases seen : w.isSeenIn other = true
  · by_cases here : w.slot = v.slot
    · obtain ⟨w', there', id', slot', seen'⟩ := spares.origin w mem' other away seen
      right
      rcases newest w' there' with (unseen | elsewhere) | le
      · simp [seen'] at unseen
      · exact absurd ((slot'.trans here).trans slot) elsewhere
      · rwa [id', ← id] at le
    · exact Or.inl (Or.inr here)
  · exact Or.inl (Or.inl (by simpa using seen))

/-! ### Symbols that are not named -/

theorem mem_changeSymbol (sound : s.Sound) {fileId id : Int} {path : String}
    (row : s.symbolId? fileId path = some id) (change : SymbolRow → SymbolRow) {r : SymbolRow}
    (mem : r ∈ s.symbols) (other : r.path ≠ path) : r ∈ (s.changeSymbol id change).symbols := by
  obtain ⟨old, found, rfl⟩ := Option.map_eq_some_iff.1 row
  have named : old.path = path := by
    have := List.find?_some found
    simp only [decide_eq_true_eq] at this
    exact this.2
  have distinct : (s.symbols.map (·.id)).Nodup :=
    List.pairwise_map.2 (sound.symbolOrder.imp Int.ne_of_lt)
  refine List.mem_map.2 ⟨r, mem, if_neg fun same => other ?_⟩
  rw [List.inj_on_of_nodup_map distinct mem (List.mem_of_find?_eq_some found) same, named]

end Store

namespace Staging

open Store

variable {q : StageRequest} {now : Instant} {fileId : Int} {ids : SymbolIds} {s t : Store}
  {o o' : StageOutcome}

theorem spares_putAll {contents : List SliceContent} {batch first : String}
    (done : putAll s (contents.map (freshRow batch first now)) = .ok t) : Spares batch s t := by
  induction contents generalizing s with
  | nil =>
    cases done
    exact .of_slices rfl batch
  | cons c rest ih =>
    obtain ⟨u, put, others⟩ := putAll_cons_iff.1 done
    exact (spares_putSlice rfl put).trans (ih others)

theorem spares_writeChunks {groups : List ChunkGroup}
    (done : writeChunks q now fileId ids groups s o = .ok (t, o')) : Spares q.batchId s t := by
  induction groups generalizing s o with
  | nil =>
    cases done
    exact .of_slices rfl _
  | cons g rest ih =>
    simp only [writeChunks, bind_ok_iff] at done
    obtain ⟨⟨u, o1⟩, written, others⟩ := done
    refine Spares.trans ?_ (ih others)
    obtain ⟨-, contents, -, ⟨rows, -, rfl⟩ | ⟨-, first, put⟩⟩ := writeChunk_cases written
    · exact spares_confirm s _ q.batchId now
    · exact (spares_dropParts s q.batchId fileId g.chunkId _).trans (spares_putAll put)

theorem stage_spares (sound : s.Sound) (done : stage s now q = .ok (t, o)) :
    Spares q.batchId s t := by
  obtain ⟨groups, s1, fileId, s2, o2, ids, s3, -, ⟨f, -, file⟩, symbols, links, chunks⟩ :=
    stage_steps done
  obtain ⟨sound1, -, -, slices1, -⟩ := upsertFile_spec sound file
  obtain ⟨sound2, same2, -⟩ := writeSymbols_spec sound1 symbols
  have slices3 := (linkParents_spec sound2 links).2.1.slices
  exact (Spares.of_slices ((slices3.trans same2.slices).trans slices1) _).trans
    (spares_writeChunks chunks)

theorem writeSymbols_unnamed {symbols : List Symbol} (sound : s.Sound)
    (done : writeSymbols q fileId symbols s o = .ok (t, o', ids)) {r : SymbolRow}
    (mem : r ∈ s.symbols) (unnamed : ∀ y ∈ symbols, r.path ≠ y.symbolId) : r ∈ t.symbols := by
  induction symbols generalizing s o t o' ids with
  | nil =>
    cases done
    exact mem
  | cons y rest ih =>
    simp only [writeSymbols, bind_ok_iff] at done
    obtain ⟨⟨s1, o1, id⟩, first, ⟨s2, o2, more⟩, others, eq⟩ := done
    cases eq
    refine ih (sound_writeSymbol sound first) others ?_ fun z there =>
      unnamed z (List.mem_cons_of_mem _ there)
    have other := unnamed y List.mem_cons_self
    have row {old : SymbolRow} (found : s.symbol? fileId y.symbolId = some old) :
        s.symbolId? fileId y.symbolId = some old.id := by simp [symbolId?, found]
    obtain ⟨content, -, write⟩ := writeSymbol_cases first
    cases write with
    | confirm old found same => exact mem_changeSymbol sound (row found) _ mem other
    | change old found differs => exact mem_changeSymbol sound (row found) _ mem other
    | insert missing => exact List.mem_append_left _ mem

theorem linkParents_unnamed {symbols : List Symbol} (sound : s.Sound) (own : Own s fileId ids)
    (done : linkParents ids symbols s = .ok t) {r : SymbolRow} (mem : r ∈ s.symbols)
    (unnamed : ∀ y ∈ symbols, r.path ≠ y.symbolId) : r ∈ t.symbols := by
  induction symbols generalizing s with
  | nil =>
    cases done
    exact mem
  | cons y rest ih =>
    have others : ∀ z ∈ rest, r.path ≠ z.symbolId := fun z there =>
      unnamed z (List.mem_cons_of_mem _ there)
    simp only [linkParents, bind_ok_iff] at done
    obtain ⟨parent, -, done⟩ := done
    split at done
    · rename_i e found
      have row := own e (List.mem_of_find?_eq_some found)
      have named : e.1 = y.symbolId := by simpa using List.find?_some found
      have keeps : KeepsKeys fun r => { r with parentId := parent } := fun r => ⟨rfl, rfl, rfl⟩
      obtain ⟨linked, -, rows⟩ := changeSymbol_spec sound e.2 _ keeps
      refine ih linked (fun e' there => (rows fileId e'.1).trans (own e' there)) done ?_ others
      exact mem_changeSymbol sound row _ mem (named ▸ unnamed y List.mem_cons_self)
    · exact ih sound own done mem others

theorem stage_unnamed (sound : s.Sound) (done : stage s now q = .ok (t, o)) {r : SymbolRow}
    (mem : r ∈ s.symbols) (unnamed : ∀ y ∈ q.result.symbols, r.path ≠ y.symbolId) :
    r ∈ t.symbols := by
  obtain ⟨groups, s1, fileId, s2, o2, ids, s3, -, ⟨f, -, file⟩, symbols, links, chunks⟩ :=
    stage_steps done
  obtain ⟨sound1, -, symbols1, -, -⟩ := upsertFile_spec sound file
  obtain ⟨sound2, -, -, -, rows, -⟩ := writeSymbols_spec sound1 symbols
  rw [(writeChunks_tables chunks).1.symbols]
  refine linkParents_unnamed sound2 (rows ▸ own_symbolRows s2 fileId _) links ?_ unnamed
  exact writeSymbols_unnamed sound1 symbols (symbols1 ▸ mem) unnamed

theorem stage_keeps_number (sound : s.Sound) (done : stage s now q = .ok (t, o)) {path : String}
    {id : Int} (known : s.fileId? path = some id) : t.fileId? path = some id := by
  by_cases same : path = repoPath q
  · subst same
    rcases stage_number sound done with old | ⟨missing, -⟩
    · rw [stage_fileId sound done, ← old, known]
    · cases known.symm.trans missing
  · rw [fileId?, stage_other sound done same]
    exact known

end Staging

end SourceSlices
