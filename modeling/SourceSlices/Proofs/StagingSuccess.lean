import SourceSlices.Proofs.StagingConditions

/-!
Staging results without symbols. Such a result is written whenever its batch is recorded, its chunks
are complete, and the version of every handler that it names is known.
-/
namespace SourceSlices.Staging

open Store

variable {q : StageRequest} {s : Store}

/-- A part that refers to no symbol, of a handler whose version is known. -/
structure Plain (q : StageRequest) (p : Chunk) : Prop where
  symbol : p.parentSymbolId = none
  delegated : p.metadata.str? "delegate_parent_symbol" = none
  version : ∃ v, versionOf q (chunkHandler q p) = .ok v

theorem stage_succeeds (now : Instant) (batch : s.hasBatch q.batchId = true)
    (symbols : q.result.symbols = [])
    (complete : ∀ g ∈ ChunkGroup.all q.result.chunks, g.Complete)
    (plain : ∀ p ∈ q.result.chunks, Plain q p) : ∃ t o, stage s now q = .ok (t, o) := by
  have unrelated {key : Option String} (none : key = none) : q.result.Resolves key := by
    intro id named
    cases none.symm.trans named
  have good : Stageable s q := {
    batch := batch
    chunks := ⟨_, ChunkGroup.ofChunks_ok_iff.2 ⟨rfl, complete⟩⟩
    symbolVersions := by simp [symbols]
    chunkVersions p mem := versionOf_succeeds_iff.1 (plain p mem).version
    parents := by simp [symbols]
    owners p mem := unrelated (plain p mem).symbol
    delegating p mem := unrelated (plain p mem).delegated }
  obtain ⟨⟨t, o⟩, done⟩ := (stage_succeeds_iff now).2 good
  exact ⟨t, o, done⟩

/-- A request to stage one chunk of one file, cut into the given parts. -/
def ofTexts (batch : String) (texts : List String) : StageRequest where
  batchId := batch
  handlerName := "text"
  handlerVersion := "1"
  versions := SortedMap.empty
  result := {
    file := { path := "notes.txt", language := "text", checksum := "" }
    chunks := texts.mapIdx fun i text =>
      { chunkId := "notes", text, startOffset := 0, endOffset := 0, partIndex := i
        metadata := Metadata.empty.putNat "part_total" texts.length } }

variable {batch : String} {texts : List String}

theorem ofTexts_parts (batch : String) (texts : List String) :
    ChunkGroup.partsOf (ofTexts batch texts).result.chunks "notes" =
      (ofTexts batch texts).result.chunks := by
  have all : (ofTexts batch texts).result.chunks.filter (·.chunkId = "notes") =
      (ofTexts batch texts).result.chunks := by
    refine List.filter_eq_self.2 fun p mem => ?_
    obtain ⟨i, _, rfl⟩ := List.mem_mapIdx.1 mem
    rfl
  rw [ChunkGroup.partsOf, all]
  refine List.mergeSort_of_pairwise (List.pairwise_iff_getElem.2 fun i j _ _ less => ?_)
  simpa [ofTexts] using Nat.le_of_lt less

theorem ofTexts_groups {g : ChunkGroup}
    (mem : g ∈ ChunkGroup.all (ofTexts batch texts).result.chunks) :
    g = ⟨"notes", (ofTexts batch texts).result.chunks⟩ := by
  obtain ⟨id, there, rfl⟩ := List.mem_map.1 mem
  obtain ⟨p, part, rfl⟩ := ChunkGroup.mem_idsOf.1 there
  obtain ⟨i, _, rfl⟩ := List.mem_mapIdx.1 part
  rw [ofTexts_parts]

theorem ofTexts_group (batch text : String) (rest : List String) :
    ⟨"notes", (ofTexts batch (text :: rest)).result.chunks⟩ ∈
      ChunkGroup.all (ofTexts batch (text :: rest)).result.chunks := by
  have first : ∃ p ∈ (ofTexts batch (text :: rest)).result.chunks, p.chunkId = "notes" := by
    refine ⟨_, List.mem_mapIdx.2 ⟨0, ?_, rfl⟩, rfl⟩
    simp
  refine List.mem_map.2 ⟨"notes", ChunkGroup.mem_idsOf.2 first, ?_⟩
  rw [ofTexts_parts]

theorem ofTexts_complete (fits : (texts.length : Int) ≤ MetaValue.intMax) {g : ChunkGroup}
    (mem : g ∈ ChunkGroup.all (ofTexts batch texts).result.chunks) : g.Complete := by
  obtain rfl := ofTexts_groups mem
  refine ⟨?_, fun p part t recorded => ?_⟩
  · refine List.ext_getElem (by simp) fun i _ _ => ?_
    simp [ofTexts]
  · obtain ⟨i, _, rfl⟩ := List.mem_mapIdx.1 part
    have capped : some (count texts.length) = some t := recorded
    rw [count_of_le fits] at capped
    simpa [ofTexts] using (Option.some.inj capped).symm

theorem ofTexts_countable (fits : (texts.length : Int) ≤ MetaValue.intMax) :
    Countable (ofTexts batch texts).result :=
  countable_of_length (by simpa [ofTexts] using fits)

theorem stage_ofTexts (now : Instant) (batch : String) (known : s.hasBatch batch = true)
    (fits : (texts.length : Int) ≤ MetaValue.intMax) :
    ∃ t o, stage s now (ofTexts batch texts) = .ok (t, o) := by
  refine stage_succeeds now known rfl (fun g mem => ofTexts_complete fits mem) fun p mem => ?_
  obtain ⟨i, _, rfl⟩ := List.mem_mapIdx.1 mem
  exact ⟨rfl, rfl, "1", rfl⟩

/-- After any history that has recorded the batch, such a request is staged next. -/
theorem after_ofTexts (now : Instant) (batch : String) (texts : List String) (calls : List Call)
    (known : (Ledger.after calls).store.hasBatch batch = true)
    (fits : (texts.length : Int) ≤ MetaValue.intMax) :
    ∃ t o, stage (Ledger.after calls).store now (ofTexts batch texts) = .ok (t, o) ∧
      Ledger.after (calls ++ [.stage now (ofTexts batch texts)]) =
        ⟨t, (Ledger.after calls).staged ++ [⟨ofTexts batch texts, o.fileId⟩]⟩ ∧
      t.batches = (Ledger.after calls).store.batches := by
  have sound := Ledger.sound_after calls
  obtain ⟨t, o, done⟩ := stage_ofTexts now batch known fits
  refine ⟨t, o, done, ?_, stage_batches sound done⟩
  rw [Ledger.after_snoc]
  simp only [Ledger.step, done]

/-- A history that has recorded two batches. -/
def twoBatches : List Call := [
  .ensureBatch { id := "b1", generatedAt := .epoch },
  .ensureBatch { id := "b2", generatedAt := .epoch }]

/-- One file staged under one batch and then under the other. -/
def bothBatches (first second : List String) : List Call :=
  twoBatches ++ [.stage .epoch (ofTexts "b1" first)] ++ [.stage .epoch (ofTexts "b2" second)]

theorem after_bothBatches (first second : List String) (fits : (first.length : Int) ≤ MetaValue.intMax)
    (fits' : (second.length : Int) ≤ MetaValue.intMax) : ∃ t o u p,
    stage (Ledger.after twoBatches).store .epoch (ofTexts "b1" first) = .ok (t, o) ∧
    stage t .epoch (ofTexts "b2" second) = .ok (u, p) ∧
    u.batches = (Ledger.after twoBatches).store.batches ∧
    Ledger.after (bothBatches first second) =
      ⟨u, [⟨ofTexts "b1" first, o.fileId⟩, ⟨ofTexts "b2" second, p.fileId⟩]⟩ := by
  obtain ⟨t, o, done, once, batches⟩ := after_ofTexts .epoch "b1" first twoBatches rfl fits
  have known : t.hasBatch "b2" = true := by
    simp only [Store.hasBatch, batches]
    rfl
  obtain ⟨u, p, done', twice, batches'⟩ := after_ofTexts .epoch "b2" second
    (twoBatches ++ [.stage .epoch (ofTexts "b1" first)]) (by rw [once]; exact known) fits'
  rw [once] at done' twice batches'
  exact ⟨t, o, u, p, done, done', batches'.trans batches, twice⟩

/-- A chunk that has three parts at first and two the next time. -/
def shrinking : List Call :=
  twoBatches ++ [.stage .epoch (ofTexts "b1" ["one", "two", "three"])] ++
    [.stage .epoch (ofTexts "b2" ["one", "two"])]

theorem after_shrinking : ∃ t o u p,
    stage (Ledger.after twoBatches).store .epoch (ofTexts "b1" ["one", "two", "three"]) =
      .ok (t, o) ∧
    stage t .epoch (ofTexts "b2" ["one", "two"]) = .ok (u, p) ∧
    u.batches = (Ledger.after twoBatches).store.batches ∧
    Ledger.after shrinking = ⟨u, [⟨ofTexts "b1" ["one", "two", "three"], o.fileId⟩,
      ⟨ofTexts "b2" ["one", "two"], p.fileId⟩]⟩ :=
  after_bothBatches _ _ (by decide) (by decide)

end SourceSlices.Staging
