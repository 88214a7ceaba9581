import SourceSlices.Proofs.Overwriting

/-!
Staging the same result once more. The file and its symbols are found under their numbers, so every
part says what its newest row says: under whatever batch, it is confirmed, and no slice comes or goes.
-/
namespace SourceSlices

/-- The request to stage the same result of the same handler under a batch. -/
def StageRequest.again (q : StageRequest) (batch : String) (fileSha : Option String)
    (mtimeNs : Option Int) : StageRequest :=
  { q with batchId := batch, fileSha, mtimeNs }

/-- Two rows that differ in the batch that has seen them last, and in the time of that. -/
def SameButSeen (a b : Slice) : Prop := b = { a with lastSeen := b.lastSeen, updatedAt := b.updatedAt }

namespace Store

/-! ### Confirmed rows -/

theorem sameButSeen_confirm (s : Store) (ids : List Int) (batch : String) (now : Instant) :
    List.Forall₂ SameButSeen s.slices (s.confirm ids batch now).slices := by
  refine List.forall₂_map_right_iff.2 (List.forall₂_same.2 fun r _ => ?_)
  unfold SameButSeen
  split <;> rfl

theorem confirm_nil (s : Store) (batch : String) (now : Instant) : s.confirm [] batch now = s := by
  simp [confirm]

theorem confirm_confirm (s : Store) (ids more : List Int) (batch : String) (now : Instant) :
    (s.confirm ids batch now).confirm more batch now = s.confirm (ids ++ more) batch now := by
  simp only [confirm, List.map_map]
  congr 1
  refine List.map_congr_left fun r _ => ?_
  by_cases first : r.id ∈ ids <;> by_cases second : r.id ∈ more <;> simp [first, second]

/-- A confirmed row still says the same. -/
theorem newest_confirm (s : Store) (ids : List Int) (batch : String) (now : Instant) (x : Slot) :
    ((s.confirm ids batch now).rowsAt x).getLast?.map (·.content) =
      (s.rowsAt x).getLast?.map (·.content) := by
  have content (r : Slice) :
      (if ids.contains r.id then confirmed batch now r else r).content = r.content := by
    split <;> rfl
  simp only [rowsAt_confirm, List.getLast?_map, Option.map_map, Function.comp_def, content]

end Store

namespace Staging

open Store

variable {q : StageRequest} {now : Instant} {fileId : Int} {ids : SymbolIds} {s t : Store}
  {o o' : StageOutcome}

/-! ### Parts that the store holds -/

/-- The newest rows of a chunk say what the result says of its parts. -/
def Held (s : Store) (q : StageRequest) (fileId : Int) (ids : SymbolIds) (g : ChunkGroup) : Prop :=
  ∃ contents, g.parts.map (sliceContent q fileId ids) = contents.map .ok ∧
    Unchanged contents (s.versions fileId g.chunkId)

theorem held_of_slices {g : ChunkGroup} (held : Held s q fileId ids g) (same : t.slices = s.slices) :
    Held t q fileId ids g := by
  obtain ⟨contents, each, newest⟩ := held
  refine ⟨contents, each, fun i bound => ?_⟩
  unfold versions
  rw [rowsAt_congr same]
  exact newest i bound

theorem held_confirm {g : ChunkGroup} (held : Held s q fileId ids g) (numbers : List Int)
    (batch : String) (now : Instant) : Held (s.confirm numbers batch now) q fileId ids g := by
  obtain ⟨contents, each, newest⟩ := held
  refine ⟨contents, each, fun i bound => ?_⟩
  unfold versions
  rw [newest_confirm]
  exact newest i bound

theorem writeChunk_held (now : Instant) (o : StageOutcome) {g : ChunkGroup} (held : Held s q fileId ids g) : ∃ numbers,
    writeChunk q now fileId ids s o g = .ok (s.confirm numbers q.batchId now,
      { o with chunksReused := o.chunksReused + g.parts.length }) := by
  obtain ⟨contents, each, newest⟩ := held
  cases found : unchanged? (s.chunkHistory fileId g.chunkId) contents with
  | none =>
    obtain ⟨i, bound, differs⟩ := changed_of_unchanged_none found
    rw [newest_eq] at differs
    exact absurd (newest i bound) differs
  | some rows =>
    refine ⟨rows.map (·.id), ?_⟩
    simp only [writeChunk, mapM_ok_iff.2 each, bind, Except.bind, found, length_of_map_ok each]

/-- Chunks that are held are confirmed one after the other, and nothing else happens. -/
theorem writeChunks_held (now : Instant) (o : StageOutcome) {groups : List ChunkGroup}
    (held : ∀ g ∈ groups, Held s q fileId ids g) :
    ∃ numbers, writeChunks q now fileId ids groups s o = .ok (s.confirm numbers q.batchId now,
      { o with chunksReused := o.chunksReused + (groups.flatMap (·.parts)).length }) := by
  induction groups generalizing s o with
  | nil => exact ⟨[], by rw [confirm_nil]; rfl⟩
  | cons g rest ih =>
    obtain ⟨own, others⟩ := List.forall_mem_cons.1 held
    obtain ⟨numbers, first⟩ := writeChunk_held now o own
    obtain ⟨more, rest⟩ := ih (o := { o with chunksReused := o.chunksReused + g.parts.length })
      fun h mem => held_confirm (others h mem) numbers q.batchId now
    refine ⟨numbers ++ more, ?_⟩
    simp only [writeChunks, first, bind, Except.bind, rest, confirm_confirm, List.flatMap_cons,
      List.length_append, Nat.add_assoc]

/-- A batch that has seen no row of the file leaves all chunks of the result held. -/
theorem held_after (unseen : s.Unseen q.batchId fileId) (write : FileWrite q fileId ids s t)
    {g : ChunkGroup} (mem : g ∈ ChunkGroup.all q.result.chunks) : Held t q fileId ids g := by
  obtain ⟨contents, rows, effect⟩ := write.groups g mem
  refine ⟨contents, rows.each, unchanged_after (fun i _ r there own => ?_) effect⟩
  obtain ⟨inside, here⟩ := mem_rowsAt.1 there
  have seen := unseen r inside (congrArg Prod.fst here)
  simp [Slice.isSeenIn, own] at seen

theorem writeSymbols_chunkCounts {symbols : List Symbol}
    (done : writeSymbols q fileId symbols s o = .ok (t, o', ids)) :
    o'.chunksInserted = o.chunksInserted ∧ o'.chunksReused = o.chunksReused := by
  induction symbols generalizing s o t o' ids with
  | nil =>
    cases done
    exact ⟨rfl, rfl⟩
  | cons y rest ih =>
    simp only [writeSymbols, bind_ok_iff] at done
    obtain ⟨⟨s1, o1, id⟩, first, ⟨s2, o2, more⟩, others, eq⟩ := done
    cases eq
    obtain ⟨content, -, write⟩ := writeSymbol_cases first
    have kept : o1.chunksInserted = o.chunksInserted ∧ o1.chunksReused = o.chunksReused := by
      cases write <;> exact ⟨rfl, rfl⟩
    exact ⟨(ih others).1.trans kept.1, (ih others).2.trans kept.2⟩

/-! ### The second staging -/

/-- The rows of symbols keep their numbers, so the symbols of a result are found where they were. -/
theorem symbolRows_keeps {symbols : List Symbol} (keeps : KeepsSymbols s t)
    (named : ∀ y ∈ symbols, ∃ id, s.symbolId? fileId y.symbolId = some id) :
    symbolRows t fileId symbols = symbolRows s fileId symbols := by
  refine List.filterMap_congr fun y mem => ?_
  obtain ⟨id, there⟩ := named y mem
  rw [there, keeps _ _ _ there]

theorem writeSymbols_named {symbols : List Symbol}
    (done : writeSymbols q fileId symbols s o = .ok (t, o', ids)) {y : Symbol} (mem : y ∈ symbols) :
    ∃ id, t.symbolId? fileId y.symbolId = some id := by
  obtain ⟨-, -, -, rows, names⟩ := writeSymbols_rows done
  obtain ⟨e, inside, same⟩ := List.mem_map.1 (names ▸ List.mem_map_of_mem mem :
    y.symbolId ∈ ids.map (·.1))
  exact ⟨e.2, same ▸ own_symbolRows t fileId symbols e (rows ▸ inside)⟩

theorem stage_named (done : stage s now q = .ok (t, o)) {y : Symbol} (mem : y ∈ q.result.symbols) :
    ∃ id, t.symbolId? o.fileId y.symbolId = some id := by
  obtain ⟨groups, s1, fileId, s2, o2, ids, s3, -, -, symbols, links, chunks⟩ := stage_ok_iff.1 done
  obtain ⟨-, -, file2, -⟩ := writeSymbols_rows symbols
  obtain ⟨tables, file3⟩ := writeChunks_tables chunks
  obtain ⟨id, there⟩ := writeSymbols_named symbols mem
  refine ⟨id, ?_⟩
  rw [file3.trans file2, ← there, ← (linkParents_rows links).2]
  simp only [symbolId?, symbol?, tables.symbols]

theorem stageable_again (done : stage s now q = .ok (t, o)) {batch : String}
    (known : t.hasBatch batch = true) (fileSha : Option String) (mtimeNs : Option Int) :
    Stageable t (q.again batch fileSha mtimeNs) := by
  obtain ⟨-, chunks, symbolVersions, chunkVersions, parents, owners, delegating⟩ :=
    (stage_succeeds_iff now).1 ⟨_, done⟩
  exact ⟨known, chunks, symbolVersions, chunkVersions, parents, owners, delegating⟩

/-- The second staging finds the file and its symbols under their numbers, and the slices as they
were. -/
theorem again_steps (sound : s.Sound) (done : stage s now q = .ok (t, o)) {batch : String}
    (known : t.hasBatch batch = true) (later : Instant) (fileSha : Option String)
    (mtimeNs : Option Int) :
    ∃ u p s1 s2 o2 s3, stage t later (q.again batch fileSha mtimeNs) = .ok (u, p) ∧
      (s1.Sound ∧ s1.symbols = t.symbols) ∧
      writeSymbols (q.again batch fileSha mtimeNs) o.fileId q.result.symbols s1 { fileId := o.fileId } =
        .ok (s2, o2, symbolRows t o.fileId q.result.symbols) ∧
      s3.slices = t.slices ∧
      writeChunks (q.again batch fileSha mtimeNs) later o.fileId
        (symbolRows t o.fileId q.result.symbols) (ChunkGroup.all q.result.chunks) s3 o2 = .ok (u, p) := by
  have soundT := sound_stage sound done
  obtain ⟨⟨u, p⟩, again⟩ := (stage_succeeds_iff later).2 (stageable_again done known fileSha mtimeNs)
  obtain ⟨groups, s1, fileId, s2, o2, ids, s3, grouped, file, symbols, links, chunks⟩ :=
    stage_ok_iff.1 again
  obtain ⟨rfl, -⟩ := ChunkGroup.ofChunks_ok_iff.1 grouped
  obtain ⟨-, symbols1, slices1, -⟩ := upsertFile_tables file
  obtain ⟨same2, keeps, -, rows, -⟩ := writeSymbols_rows symbols
  have recorded : t.fileId? (repoPath q) = some o.fileId := stage_fileId sound done
  have number : fileId = o.fileId := by
    rcases upsertFile_number soundT file with there | ⟨missing, -⟩
    · exact Option.some.inj (there.symm.trans recorded)
    · cases missing.symm.trans recorded
  subst number
  have kept : KeepsSymbols t s2 := by
    intro f path id there
    refine keeps f path id ?_
    simpa only [symbolId?, symbol?, symbols1] using there
  have same : ids = symbolRows t o.fileId q.result.symbols :=
    rows.trans (symbolRows_keeps kept fun y mem => stage_named done mem)
  subst same
  exact ⟨u, p, s1, s2, o2, s3, again, ⟨sound_upsertFile soundT file, symbols1⟩, symbols,
    ((linkParents_rows links).1.slices.trans same2.slices).trans slices1, chunks⟩

/-- What the second staging reports of the parts, and what it does to the slices. -/
theorem again_chunks (sound : s.Sound) (countable : Countable q.result)
    (fresh : s.Fresh q.batchId (repoPath q)) (done : stage s now q = .ok (t, o)) {batch : String}
    {u : Store} {p : StageOutcome} {later : Instant} {fileSha : Option String} {mtimeNs : Option Int}
    (again : stage t later (q.again batch fileSha mtimeNs) = .ok (u, p)) :
    p.chunksInserted = 0 ∧ p.chunksReused = q.result.chunks.length ∧
      List.Forall₂ SameButSeen t.slices u.slices := by
  have known : t.hasBatch batch = true := ((stage_succeeds_iff later).1 ⟨_, again⟩).batch
  obtain ⟨u', p', s1, s2, o2, s3, again', -, symbols, slices, chunks⟩ :=
    again_steps sound done known later fileSha mtimeNs
  cases again.symm.trans again'
  have unseen := unseen_of_fresh fresh (stage_number sound done)
  have write := stage_effect sound countable done
  have held (g : ChunkGroup) (mem : g ∈ ChunkGroup.all q.result.chunks) :
      Held s3 (q.again batch fileSha mtimeNs) o.fileId (symbolRows t o.fileId q.result.symbols) g :=
    held_of_slices (held_after unseen write mem) slices
  obtain ⟨numbers, confirmed⟩ := writeChunks_held later o2 held
  have total : o2.chunksInserted = 0 ∧ o2.chunksReused = 0 := writeSymbols_chunkCounts symbols
  cases chunks.symm.trans confirmed
  refine ⟨total.1, ?_, slices ▸ sameButSeen_confirm s3 numbers _ later⟩
  rw [total.2, Nat.zero_add, (ChunkGroup.parts_perm q.result.chunks).length_eq]

/-- After any history, a result that has been staged under a batch that is new to its file can be
staged once more, under any batch that is recorded: all its parts are counted as reused, and of the
slices nothing changes but when and by which batch they were seen last. -/
theorem restaged_parts_reused (calls : List Call) (countable : Countable q.result)
    (fresh : (Ledger.after calls).store.Fresh q.batchId (repoPath q))
    (done : stage (Ledger.after calls).store now q = .ok (t, o)) {batch : String}
    (known : t.hasBatch batch = true) (later : Instant) (fileSha : Option String)
    (mtimeNs : Option Int) :
    ∃ u p, stage t later (q.again batch fileSha mtimeNs) = .ok (u, p) ∧
      p.chunksInserted = 0 ∧ p.chunksReused = q.result.chunks.length ∧
      List.Forall₂ SameButSeen t.slices u.slices := by
  have sound := Ledger.sound_after calls
  obtain ⟨⟨u, p⟩, again⟩ := (stage_succeeds_iff later).2 (stageable_again done known fileSha mtimeNs)
  exact ⟨u, p, again, again_chunks sound countable fresh done again⟩

/-- Two parts, staged again under another batch. -/
theorem two_parts_reused : ∃ t o u p,
    stage (Ledger.after twoBatches).store .epoch (ofTexts "b1" ["one", "two"]) = .ok (t, o) ∧
      stage t .epoch ((ofTexts "b1" ["one", "two"]).again "b2" none none) = .ok (u, p) ∧
      p.chunksInserted = 0 ∧ p.chunksReused = 2 ∧ List.Forall₂ SameButSeen t.slices u.slices := by
  have small : (List.length ["one", "two"] : Int) ≤ MetaValue.intMax := by decide
  obtain ⟨t, o, done⟩ := stage_ofTexts (s := (Ledger.after twoBatches).store) .epoch "b1" rfl small
  have known : t.hasBatch "b2" = true := by
    rw [Store.hasBatch, stage_batches (Ledger.sound_after twoBatches) done]
    rfl
  obtain ⟨u, p, again⟩ := restaged_parts_reused twoBatches (ofTexts_countable small)
    (fun fileId there => by cases there) done known .epoch none none
  exact ⟨t, o, u, p, done, again⟩

end Staging

end SourceSlices
