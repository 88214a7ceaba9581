import Mathlib.Data.List.Induction
import SourceSlices.Proofs.ChunkWriting

/-!
Staging a file. Every chunk of the result is written or confirmed under the batch, chunk by chunk,
and no other slice of the store changes.
-/
namespace SourceSlices.Staging

open Store

variable {q : StageRequest} {now : Instant} {fileId : Int} {ids : SymbolIds} {s t : Store}
  {o o' : StageOutcome}

theorem sliceContent_columns {c : Chunk} {content : SliceContent}
    (done : sliceContent q fileId ids c = .ok content) :
    content.slot = (fileId, c.chunkId, count c.partIndex) ∧ content.text = c.text ∧
      content.tokenCount = count c.tokenCount ∧
      content.partTotal = (c.metadata.int? "part_total").getD 1 ∧
      content.startByte = some (count c.startOffset) ∧
      content.endByte = some (count c.endOffset) ∧
      content.metadataJson = if c.metadata.isEmpty then none else some c.metadata.canonical := by
  simp only [sliceContent, bind_ok_iff] at done
  obtain ⟨version, -, symbolId, -, parentId, -, done⟩ := done
  cases done
  exact ⟨rfl, rfl, rfl, rfl, rfl, rfl, rfl⟩

theorem count_of_le {n : Nat} (fits : (n : Int) ≤ MetaValue.intMax) : count n = (n : Int) :=
  Int.min_eq_left fits

/-- The contents of a complete group stand in the slots of their places. -/
theorem placed_of_complete {g : ChunkGroup} {contents : List SliceContent} (whole : g.Complete)
    (own : ∀ p ∈ g.parts, p.chunkId = g.chunkId)
    (counted : (g.parts.length : Int) ≤ MetaValue.intMax)
    (each : g.parts.map (sliceContent q fileId ids) = contents.map .ok) :
    Placed fileId g.chunkId contents := by
  intro i bound
  have here : i < g.parts.length := length_of_map_ok each ▸ bound
  obtain ⟨slot, -⟩ := sliceContent_columns (getElem_of_map_ok each here bound)
  rw [slot, own _ (List.getElem_mem here), ChunkGroup.partIndex_getElem whole here,
    count_of_le (by omega)]

/-- A group that can be written to the store. -/
structure Writable (g : ChunkGroup) : Prop where
  whole : g.Complete
  own : ∀ p ∈ g.parts, p.chunkId = g.chunkId
  counted : (g.parts.length : Int) ≤ MetaValue.intMax

/-- What the result says of the parts of a chunk, each at the place of its index. -/
structure GroupRows (q : StageRequest) (fileId : Int) (ids : SymbolIds) (g : ChunkGroup)
    (contents : List SliceContent) : Prop where
  each : g.parts.map (sliceContent q fileId ids) = contents.map .ok
  placed : Placed fileId g.chunkId contents

/-- What becomes of the versions of a chunk. -/
def GroupWrite (q : StageRequest) (fileId : Int) (ids : SymbolIds) (s t : Store)
    (g : ChunkGroup) : Prop :=
  ∃ contents, GroupRows q fileId ids g contents ∧
    ChunkWrite q.batchId contents (s.versions fileId g.chunkId) (t.versions fileId g.chunkId)

theorem sound_writeChunks {groups : List ChunkGroup} (sound : s.Sound)
    (done : writeChunks q now fileId ids groups s o = .ok (t, o')) : t.Sound := by
  induction groups generalizing s o with
  | nil =>
    cases done
    exact sound
  | cons g rest ih =>
    simp only [writeChunks, bind_ok_iff] at done
    obtain ⟨⟨u, o1⟩, first, others⟩ := done
    exact ih (sound_writeChunk sound first) others

theorem writeChunks_tables {groups : List ChunkGroup}
    (done : writeChunks q now fileId ids groups s o = .ok (t, o')) :
    SameButSlices s t ∧ o'.fileId = o.fileId := by
  induction groups generalizing s o with
  | nil =>
    cases done
    exact ⟨⟨rfl, rfl, rfl⟩, rfl⟩
  | cons g rest ih =>
    simp only [writeChunks, bind_ok_iff] at done
    obtain ⟨⟨u, o1⟩, first, others⟩ := done
    obtain ⟨tables, file⟩ := writeChunk_tables first
    obtain ⟨tables', file'⟩ := ih others
    exact ⟨⟨tables'.1.trans tables.1, tables'.2.trans tables.2, tables'.3.trans tables.3⟩,
      file'.trans file⟩

theorem writeChunk_group {g : ChunkGroup} (sound : s.Sound) (good : Writable g)
    (done : writeChunk q now fileId ids s o g = .ok (t, o')) :
    GroupWrite q fileId ids s t g ∧
      ∀ x, ¬ (x.1 = fileId ∧ x.2.1 = g.chunkId) → t.rowsAt x = s.rowsAt x := by
  obtain ⟨contents, each, effect, outside⟩ := writeChunk_effect sound
    (fun _ made => placed_of_complete good.whole good.own good.counted made) done
  exact ⟨⟨contents, ⟨each, placed_of_complete good.whole good.own good.counted each⟩, effect⟩, outside⟩

theorem writeChunks_effect {groups : List ChunkGroup} (sound : s.Sound)
    (writable : ∀ g ∈ groups, Writable g) (distinct : (groups.map (·.chunkId)).Nodup)
    (done : writeChunks q now fileId ids groups s o = .ok (t, o')) :
    (∀ g ∈ groups, GroupWrite q fileId ids s t g) ∧
      ∀ x, ¬ (x.1 = fileId ∧ x.2.1 ∈ groups.map (·.chunkId)) → t.rowsAt x = s.rowsAt x := by
  induction groups generalizing s o with
  | nil =>
    cases done
    exact ⟨by simp, fun _ _ => rfl⟩
  | cons g rest ih =>
    simp only [writeChunks, bind_ok_iff] at done
    obtain ⟨⟨u, o1⟩, first, others⟩ := done
    obtain ⟨apart, distinct'⟩ := List.nodup_cons.1 distinct
    obtain ⟨⟨contents, rows, effect⟩, outsideU⟩ :=
      writeChunk_group sound (writable g List.mem_cons_self) first
    obtain ⟨effects, outsideT⟩ := ih (sound_writeChunk sound first)
      (fun h mem => writable h (List.mem_cons_of_mem _ mem)) distinct' others
    -- Groups have distinct ids, so what one of them writes is left alone by the others.
    constructor
    · intro h mem
      rcases List.mem_cons.1 mem with rfl | mem
      · have kept : t.versions fileId h.chunkId = u.versions fileId h.chunkId :=
          funext fun i => outsideT _ fun both => apart both.2
        exact ⟨contents, rows, kept ▸ effect⟩
      · have kept : u.versions fileId h.chunkId = s.versions fileId h.chunkId :=
          funext fun i => outsideU _ fun both => apart (List.mem_map.2 ⟨h, mem, both.2⟩)
        obtain ⟨contents', rows', effect'⟩ := effects h mem
        exact ⟨contents', rows', kept ▸ effect'⟩
    · intro x other
      rw [outsideT x fun both => other ⟨both.1, List.mem_cons_of_mem _ both.2⟩]
      exact outsideU x fun both => other ⟨both.1, both.2 ▸ List.mem_cons_self⟩

/-- What staging a file makes of the slices. -/
structure FileWrite (q : StageRequest) (fileId : Int) (ids : SymbolIds) (s t : Store) : Prop where
  complete : ∀ g ∈ ChunkGroup.all q.result.chunks, g.Complete
  groups : ∀ g ∈ ChunkGroup.all q.result.chunks, GroupWrite q fileId ids s t g
  others : ∀ x : Slot, ¬ (x.1 = fileId ∧ x.2.1 ∈ ChunkGroup.idsOf q.result.chunks) →
    t.rowsAt x = s.rowsAt x

/-- No chunk has more parts than a number of 64 bits counts, as no list in memory has. -/
def Countable (r : HandlerResult) : Prop :=
  ∀ id, ((ChunkGroup.partsOf r.chunks id).length : Int) ≤ MetaValue.intMax

theorem countable_of_length {r : HandlerResult} (fits : (r.chunks.length : Int) ≤ MetaValue.intMax) :
    Countable r := by
  intro id
  have fewer : (ChunkGroup.partsOf r.chunks id).length ≤ r.chunks.length := by
    simpa [ChunkGroup.partsOf] using List.length_filter_le (·.chunkId = id) r.chunks
  omega

theorem writable_all {r : HandlerResult} (countable : Countable r)
    (complete : ∀ g ∈ ChunkGroup.all r.chunks, g.Complete) {g : ChunkGroup}
    (mem : g ∈ ChunkGroup.all r.chunks) : Writable g := by
  obtain ⟨-, parts⟩ := ChunkGroup.mem_all mem
  refine ⟨complete g mem, fun p there => ?_, parts ▸ countable g.chunkId⟩
  rw [parts] at there
  exact (ChunkGroup.mem_partsOf.1 there).2

/-- The record of the file of a request. -/
def fileInfo (q : StageRequest) : FileInfo where
  batchId := q.batchId
  path := repoPath q
  lang := q.result.file.language
  sha := q.fileSha.getD q.result.file.checksum
  mtimeNs := q.mtimeNs
  sizeBytes := q.result.file.metadata.int? "size_bytes"

theorem stage_ok_iff : stage s now q = .ok (t, o) ↔
    ∃ groups s1 fileId s2 o2 ids s3, ChunkGroup.ofChunks q.result.chunks = .ok groups ∧
      s.upsertFile (fileInfo q) = .ok (s1, fileId) ∧
      writeSymbols q fileId q.result.symbols s1 { fileId } = .ok (s2, o2, ids) ∧
      linkParents ids q.result.symbols s2 = .ok s3 ∧
      writeChunks q now fileId ids groups s3 o2 = .ok (t, o) := by
  simp only [stage, bind_ok_iff, mapError_ok_iff]
  constructor
  · rintro ⟨groups, grouped, ⟨s1, fileId⟩, file, ⟨s2, o2, ids⟩, symbols, s3, links, chunks⟩
    exact ⟨groups, s1, fileId, s2, o2, ids, s3, grouped, file, symbols, links, chunks⟩
  · rintro ⟨groups, s1, fileId, s2, o2, ids, s3, grouped, file, symbols, links, chunks⟩
    exact ⟨groups, grouped, ⟨s1, fileId⟩, file, ⟨s2, o2, ids⟩, symbols, s3, links, chunks⟩

theorem stage_steps (done : stage s now q = .ok (t, o)) :
    ∃ groups s1 fileId s2 o2 ids s3, ChunkGroup.ofChunks q.result.chunks = .ok groups ∧
      (∃ f : FileInfo, (f.path = repoPath q ∧ f.batchId = q.batchId) ∧
        s.upsertFile f = .ok (s1, fileId)) ∧
      writeSymbols q fileId q.result.symbols s1 { fileId } = .ok (s2, o2, ids) ∧
      linkParents ids q.result.symbols s2 = .ok s3 ∧
      writeChunks q now fileId ids groups s3 o2 = .ok (t, o) := by
  obtain ⟨groups, s1, fileId, s2, o2, ids, s3, grouped, file, rest⟩ := stage_ok_iff.1 done
  exact ⟨groups, s1, fileId, s2, o2, ids, s3, grouped, ⟨fileInfo q, ⟨rfl, rfl⟩, file⟩, rest⟩

theorem sound_stage (sound : s.Sound) (done : stage s now q = .ok (t, o)) : t.Sound := by
  obtain ⟨groups, s1, fileId, s2, o2, ids, s3, -, ⟨f, -, file⟩, symbols, links, chunks⟩ :=
    stage_steps done
  have sound1 := (upsertFile_spec sound file).1
  have sound2 := (writeSymbols_spec sound1 symbols).1
  exact sound_writeChunks (linkParents_spec sound2 links).1 chunks

/-- Batches and files are those that recording the file leaves. -/
theorem stage_file (sound : s.Sound) (done : stage s now q = .ok (t, o)) :
    ∃ (f : FileInfo) (u : Store), (f.path = repoPath q ∧ f.batchId = q.batchId) ∧
      s.upsertFile f = .ok (u, o.fileId) ∧ t.batches = u.batches ∧ t.files = u.files := by
  obtain ⟨groups, s1, fileId, s2, o2, ids, s3, -, ⟨f, info, file⟩, symbols, links, chunks⟩ :=
    stage_steps done
  obtain ⟨sound2, same2, -, file2, -⟩ := writeSymbols_spec (upsertFile_spec sound file).1 symbols
  have same3 := (linkParents_spec sound2 links).2.1
  obtain ⟨tables, fileT⟩ := writeChunks_tables chunks
  refine ⟨f, s1, info, ?_, ?_, ?_⟩
  · rw [fileT, file2]
    exact file
  · rw [tables.batches, same3.batches, same2.batches]
  · rw [tables.files, same3.files, same2.files]

theorem stage_batches (sound : s.Sound) (done : stage s now q = .ok (t, o)) :
    t.batches = s.batches := by
  obtain ⟨f, u, -, file, batches, -⟩ := stage_file sound done
  rw [batches, (upsertFile_spec sound file).2.1]

theorem stage_fileId (sound : s.Sound) (done : stage s now q = .ok (t, o)) :
    t.fileId? (repoPath q) = some o.fileId := by
  obtain ⟨f, u, ⟨path, -⟩, file, -, files⟩ := stage_file sound done
  rw [← path, ← upsertFile_fileId file]
  simp only [fileId?, file?, files]

/-- A staged file keeps the number that it had before, if it was known. -/
theorem stage_number (sound : s.Sound) (done : stage s now q = .ok (t, o)) :
    s.fileId? (repoPath q) = some o.fileId ∨
      s.fileId? (repoPath q) = none ∧ ∀ r ∈ s.slices, r.content.fileId ≠ o.fileId := by
  obtain ⟨f, u, ⟨path, -⟩, file, -⟩ := stage_file sound done
  exact path ▸ upsertFile_number sound file

theorem stage_complete (done : stage s now q = .ok (t, o)) :
    ∀ g ∈ ChunkGroup.all q.result.chunks, g.Complete := by
  obtain ⟨groups, s1, fileId, s2, o2, ids, s3, grouped, -⟩ := stage_steps done
  exact (ChunkGroup.ofChunks_ok_iff.1 grouped).2

theorem stage_effect (sound : s.Sound) (countable : Countable q.result)
    (done : stage s now q = .ok (t, o)) :
    FileWrite q o.fileId (symbolRows t o.fileId q.result.symbols) s t := by
  obtain ⟨groups, s1, fileId, s2, o2, ids, s3, grouped, ⟨f, -, file⟩, symbols, links, chunks⟩ :=
    stage_steps done
  obtain ⟨rfl, complete⟩ := ChunkGroup.ofChunks_ok_iff.1 grouped
  obtain ⟨sound1, -, -, slices1, -⟩ := upsertFile_spec sound file
  obtain ⟨sound2, same2, -, file2, rows, -⟩ := writeSymbols_spec sound1 symbols
  obtain ⟨sound3, same3, kept⟩ := linkParents_spec sound2 links
  obtain ⟨tables, fileT⟩ := writeChunks_tables chunks
  obtain ⟨effects, outside⟩ := writeChunks_effect sound3
    (fun g mem => writable_all countable complete mem) (ChunkGroup.nodup_all_ids _) chunks
  have fileId_eq : o.fileId = fileId := fileT.trans file2
  have ids_eq : ids = symbolRows t o.fileId q.result.symbols := by
    have linked (path : String) : t.symbolId? fileId path = s2.symbolId? fileId path := by
      rw [← kept]
      simp only [symbolId?, symbol?, tables.symbols]
    rw [fileId_eq, rows]
    simp only [symbolRows, linked]
  -- No step before the chunks touches the slices, and linking parents leaves the numbers of symbols.
  have before (x : Slot) : s3.rowsAt x = s.rowsAt x :=
    rowsAt_congr (same3.slices.trans (same2.slices.trans slices1)) x
  have versions (chunkId : String) : s3.versions fileId chunkId = s.versions fileId chunkId :=
    funext fun i => before _
  refine ⟨complete, fun g mem => ?_, fun x other => ?_⟩
  · obtain ⟨contents, rows, effect⟩ := effects g mem
    exact ⟨contents, ids_eq ▸ fileId_eq ▸ rows, fileId_eq ▸ versions g.chunkId ▸ effect⟩
  · rw [← before x]
    refine outside x fun both => other ⟨fileId_eq ▸ both.1, ?_⟩
    obtain ⟨g, mem, same⟩ := List.mem_map.1 both.2
    exact same ▸ (ChunkGroup.mem_all mem).1

end SourceSlices.Staging

/-!
### Histories of a store

Callers record and drop batches, stage files and delete what a batch wrote, in
any order and under any names. A call that fails leaves the store as it was.
-/
namespace SourceSlices

inductive Call where
  | ensureBatch (b : Batch)
  | dropBatch (batch : String)
  | stage (now : Instant) (q : StageRequest)
  | deleteSlices (batch : String)

/-- A staging that has succeeded. -/
structure Staged where
  request : StageRequest
  fileId : Int

/-- A store with the stagings that have led to it. -/
structure Ledger where
  store : Store
  staged : List Staged

namespace Ledger

def empty : Ledger := ⟨.empty, []⟩

def step (l : Ledger) : Call → Ledger
  | .ensureBatch b => { l with store := l.store.ensureBatch b }
  | .dropBatch b => { l with store := (l.store.dropBatch b).1 }
  | .stage now q =>
    match Staging.stage l.store now q with
    | .ok (store, o) => ⟨store, l.staged ++ [⟨q, o.fileId⟩]⟩
    | .error _ => l
  | .deleteSlices b => { l with store := (l.store.deleteSlices b).1 }

def after (calls : List Call) : Ledger := calls.foldl step empty

theorem after_snoc (calls : List Call) (c : Call) : after (calls ++ [c]) = (after calls).step c := by
  simp [after]

theorem staged_step (l : Ledger) (c : Call) : l.staged <+: (l.step c).staged := by
  cases c with
  | ensureBatch b => exact List.prefix_rfl
  | dropBatch b => exact List.prefix_rfl
  | stage now q =>
    simp only [step]
    split
    · exact List.prefix_append _ _
    · exact List.prefix_rfl
  | deleteSlices b => exact List.prefix_rfl

theorem sound_step {l : Ledger} (sound : l.store.Sound) (c : Call) : (l.step c).store.Sound := by
  cases c with
  | ensureBatch b => exact Store.sound_ensureBatch sound b
  | dropBatch b => exact Store.sound_dropBatch sound b
  | stage now q =>
    simp only [step]
    split
    · rename_i done
      exact Staging.sound_stage sound done
    · exact sound
  | deleteSlices b => exact Store.sound_deleteSlices sound b

theorem after_induction {P : Ledger → Prop} (start : P empty) (next : ∀ l c, P l → P (l.step c))
    (calls : List Call) : P (after calls) := by
  induction calls using List.reverseRecOn with
  | nil => exact start
  | append_singleton calls c ih =>
    rw [after_snoc]
    exact next _ c ih

theorem sound_after (calls : List Call) : (after calls).store.Sound :=
  after_induction (P := fun l => l.store.Sound) Store.sound_empty (fun _ c sound => sound_step sound c)
    calls

end Ledger

end SourceSlices
