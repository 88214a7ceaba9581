import SourceSlices.Proofs.Overwriting
import SourceSlices.Proofs.StagingSuccess
import SourceSlices.Proofs.WholeChunks

/-!
A result is read back from the store as it was staged, row by row and chunk by chunk, after any
history that did not use its batch for the file.
-/
namespace SourceSlices

/-- What should become of each chunk of a result: its id, its text and its number of tokens. -/
def HandlerResult.merged (r : HandlerResult) : List (String × String × Int) :=
  (ChunkGroup.idsOf r.chunks).map fun id =>
    (id, String.join ((ChunkGroup.partsOf r.chunks id).map (·.text)),
      total ((ChunkGroup.partsOf r.chunks id).map fun p => Staging.count p.tokenCount))

namespace Staging

variable {q : StageRequest} {now : Instant} {fileId : Int} {ids : SymbolIds} {s t : Store}
  {o : StageOutcome}

/-- In order, the parts of one chunk stand in the order of their indices. -/
theorem inOrder_filter {r : HandlerResult} (complete : ∀ g ∈ ChunkGroup.all r.chunks, g.Complete)
    {id : String} (there : id ∈ ChunkGroup.idsOf r.chunks) :
    r.inOrder.filter (·.chunkId = id) = ChunkGroup.partsOf r.chunks id := by
  have whole := complete _ (List.mem_map_of_mem there)
  have perm : (r.inOrder.filter (·.chunkId = id)).Perm (ChunkGroup.partsOf r.chunks id) :=
    ((List.mergeSort_perm _ _).filter _).trans (List.mergeSort_perm _ _).symm
  have ascending : (r.inOrder.filter (·.chunkId = id)).Pairwise (·.partIndex < ·.partIndex) := by
    refine ((inOrder_strict complete).filter _).imp_of_mem fun {a b} ha hb before => ?_
    have ha := of_decide_eq_true (List.mem_filter.1 ha).2
    have hb := of_decide_eq_true (List.mem_filter.1 hb).2
    rcases before with less | ⟨-, less⟩
    · exact absurd (ha.trans hb.symm ▸ less) (String.lt_irrefl _)
    · exact less
  exact perm.eq_of_pairwise (fun a b _ _ ab ba => absurd ab (Nat.lt_asymm ba)) ascending
    (ChunkGroup.ascending_of_complete whole)

/-- A column that rows have from the parts they are made of. -/
structure Column (q : StageRequest) (fileId : Int) (ids : SymbolIds) (α : Type) where
  ofRow : SliceContent → α
  ofPart : Chunk → α
  agree : ∀ p content, sliceContent q fileId ids p = .ok content → ofRow content = ofPart p

variable {α : Type} {rows : List Slice} {trees : List ChunkTree}

theorem rows_column (column : Column q fileId ids α)
    (all : Rows q fileId ids (rows.map (·.content))) :
    rows.map (fun r => column.ofRow r.content) = q.result.inOrder.map column.ofPart := by
  have length : rows.length = q.result.inOrder.length := by simpa using length_of_map_ok all
  refine List.ext_getElem (by simpa using length) fun i hr hp => ?_
  simp only [List.length_map] at hr hp
  have one := getElem_of_map_ok all hp (by simpa using hr)
  simpa using column.agree _ _ one

def idColumn (q : StageRequest) (fileId : Int) (ids : SymbolIds) : Column q fileId ids String where
  ofRow c := c.chunkId
  ofPart p := p.chunkId
  agree _ _ done := (Prod.mk.inj (Prod.mk.inj (sliceContent_columns done).1).2).1

/-- The rows of each chunk have in a column what the parts of the chunk have. -/
theorem rowsOf_column (column : Column q fileId ids α)
    (complete : ∀ g ∈ ChunkGroup.all q.result.chunks, g.Complete)
    (all : Rows q fileId ids (rows.map (·.content))) :
    ((Recomposition.chunkIds rows).map fun id =>
      (id, (Recomposition.rowsOf rows id).map fun r => column.ofRow r.content)).Perm
    ((ChunkGroup.idsOf q.result.chunks).map fun id =>
      (id, (ChunkGroup.partsOf q.result.chunks id).map column.ofPart)) := by
  have keys := rows_column (idColumn q fileId ids) all
  have ids_perm : (Recomposition.chunkIds rows).Perm (ChunkGroup.idsOf q.result.chunks) := by
    refine (List.perm_ext_iff_of_nodup (nodup_eraseDups _) (nodup_eraseDups _)).2 fun id => ?_
    simp only [idColumn] at keys
    simp only [List.mem_eraseDups, keys, List.mem_map, mem_inOrder]
  refine (ids_perm.map _).trans (List.Perm.of_eq (List.map_congr_left fun id there => ?_))
  let keyed : Column q fileId ids (String × α) := {
    ofRow := fun c => (c.chunkId, column.ofRow c)
    ofPart := fun p => (p.chunkId, column.ofPart p)
    agree := fun p c done => Prod.ext ((idColumn q fileId ids).agree p c done) (column.agree p c done) }
  have parts := congrArg (List.filter (·.1 = id)) (rows_column keyed all)
  rw [← inOrder_filter complete there]
  simpa [keyed, Recomposition.rowsOf, List.filter_map, Function.comp_def] using
    congrArg (List.map (·.2)) parts

theorem forest_column (column : Column q fileId ids α)
    (complete : ∀ g ∈ ChunkGroup.all q.result.chunks, g.Complete)
    (file : ∀ r ∈ rows, r.content.fileId = fileId)
    (ordered : (rows.map (·.content)).Pairwise SliceContent.Before)
    (all : Rows q fileId ids (rows.map (·.content)))
    (done : Recomposition.recompose rows = .ok trees) :
    ((ChunkTree.forest trees).map fun c =>
      (c.chunkId, c.parts.map fun r => column.ofRow r.content)).Perm
    ((ChunkGroup.idsOf q.result.chunks).map fun id =>
      (id, (ChunkGroup.partsOf q.result.chunks id).map column.ofPart)) := by
  obtain ⟨nodes, -⟩ := Recomposition.recompose_file file ordered done
  have columns := nodes.map fun e => (e.1, e.2.map fun r => column.ofRow r.content)
  simp only [List.map_map, Function.comp_def] at columns
  exact columns.trans (rowsOf_column column complete all)

def mergedColumn (q : StageRequest) (fileId : Int) (ids : SymbolIds) :
    Column q fileId ids (String × Int) where
  ofRow c := (c.text, c.tokenCount)
  ofPart p := (p.text, count p.tokenCount)
  agree _ _ done := by
    obtain ⟨-, text, tokens, -⟩ := sliceContent_columns done
    rw [text, tokens]

theorem merged_of_forest (complete : ∀ g ∈ ChunkGroup.all q.result.chunks, g.Complete)
    (file : ∀ r ∈ rows, r.content.fileId = fileId)
    (ordered : (rows.map (·.content)).Pairwise SliceContent.Before)
    (all : Rows q fileId ids (rows.map (·.content)))
    (done : Recomposition.recompose rows = .ok trees) :
    ((ChunkTree.forest trees).map fun c => (c.chunkId, c.text, c.tokenCount)).Perm
      q.result.merged := by
  obtain ⟨-, whole⟩ := Recomposition.recompose_file file ordered done
  have columns := (forest_column (mergedColumn q fileId ids) complete file ordered all done).map
    fun e => (e.1, String.join (e.2.map (·.1)), total (e.2.map (·.2)))
  simp only [List.map_map, Function.comp_def, mergedColumn] at columns
  have nodes : (ChunkTree.forest trees).map (fun c => (c.chunkId, c.text, c.tokenCount)) =
      (ChunkTree.forest trees).map fun c =>
        (c.chunkId, String.join (c.parts.map (·.content.text)),
          total (c.parts.map (·.content.tokenCount))) :=
    List.map_congr_left fun c mem => by rw [(whole c mem).2.text, (whole c mem).2.tokenCount]
  rw [nodes]
  exact columns

/-- After any history, a result staged under a batch that is new to its file is shown by that batch
row by row, and the trees made of it hold each of its chunks once, with its text and its tokens. -/
theorem staged_result_reads_back (calls : List Call) (countable : Countable q.result)
    (fresh : (Ledger.after calls).store.Fresh q.batchId (repoPath q))
    (done : stage (Ledger.after calls).store now q = .ok (t, o)) :
    q.result.inOrder.map (sliceContent q o.fileId (symbolRows t o.fileId q.result.symbols)) =
        (t.fileSlices q.batchId o.fileId).map (fun r => .ok r.content) ∧
      ∀ trees, Recomposition.ofFile t q.batchId o.fileId = .ok trees →
        ((ChunkTree.forest trees).map fun c => (c.chunkId, c.text, c.tokenCount)).Perm
          q.result.merged := by
  have sound := Ledger.sound_after calls
  have soundT := sound_stage sound done
  have write := stage_effect sound countable done
  have all := shows_of_unseen soundT countable (unseen_of_fresh fresh (stage_number sound done)) write
  refine ⟨?_, fun trees made => ?_⟩
  · unfold Rows at all
    rw [all, List.map_map]
    rfl
  · exact merged_of_forest write.complete (fun r mem => ((Store.mem_fileSlices soundT).1 mem).2)
      (Store.fileSlices_ordered soundT _ _) all made

/-- A chunk in two parts, staged as the first of its file. -/
theorem two_parts_read_back : ∃ t o,
    stage (Ledger.after [.ensureBatch { id := "b1", generatedAt := .epoch }]).store .epoch
        (ofTexts "b1" ["one", "two"]) = .ok (t, o) ∧
      (ofTexts "b1" ["one", "two"]).result.inOrder.map (sliceContent (ofTexts "b1" ["one", "two"])
          o.fileId (symbolRows t o.fileId [])) =
        (t.fileSlices "b1" o.fileId).map (fun r => .ok r.content) ∧
      ∀ trees, Recomposition.ofFile t "b1" o.fileId = .ok trees →
        ((ChunkTree.forest trees).map fun c => (c.chunkId, c.text, c.tokenCount)).Perm
          (ofTexts "b1" ["one", "two"]).result.merged := by
  have fits : ((["one", "two"] : List String).length : Int) ≤ MetaValue.intMax := by decide
  obtain ⟨t, o, done⟩ := stage_ofTexts
    (s := (Ledger.after [.ensureBatch { id := "b1", generatedAt := .epoch }]).store) .epoch "b1" rfl
    fits
  exact ⟨t, o, done, staged_result_reads_back _ (ofTexts_countable fits)
    (fun fileId known => by cases known) done⟩

end Staging

end SourceSlices
