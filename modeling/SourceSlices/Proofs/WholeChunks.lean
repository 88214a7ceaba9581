import SourceSlices.Proofs.BatchView
import SourceSlices.Proofs.ChunkGroups
import SourceSlices.Proofs.Forests

/-!
Chunks made whole from the rows of one file. Each chunk of the file becomes one node of the forest,
and its columns are put together from its rows in the order of their indices.
-/
namespace SourceSlices

namespace WholeChunk

/-- A chunk that holds what its rows say. -/
structure MadeOf (c : WholeChunk) (rows : List Slice) : Prop where
  parts : c.parts = rows
  chunkId : ∀ r ∈ rows.head?, c.chunkId = r.content.chunkId
  fileId : ∀ r ∈ rows.head?, c.fileId = r.content.fileId
  text : c.text = String.join (rows.map (·.content.text))
  tokenCount : c.tokenCount = total (rows.map (·.content.tokenCount))
  startByte : c.startByte = least? (rows.filterMap (·.content.startByte))
  endByte : c.endByte = greatest? (rows.filterMap (·.content.endByte))
  parentSymbolId : ∀ r ∈ rows.head?, c.parentSymbolId = r.content.parentSymbolId
  metadata : ∀ r ∈ rows.head?, ∃ m, metadataOf r.content.metadataJson = .ok m ∧
    c.metadata = (m.erase "part_index").insert "part_total" (.int (partTotal rows))
  delegateParent : c.delegateParent = Metadata.str? c.metadata "delegate_parent_chunk"

theorem ofParts_spec {rows : List Slice} {c : WholeChunk}
    (sorted : rows.Pairwise fun a b => a.content.partIndex ≤ b.content.partIndex)
    (done : ofParts rows = .ok c) : rows ≠ [] ∧ c.MadeOf rows := by
  have same : rows.mergeSort (fun a b => decide (a.content.partIndex ≤ b.content.partIndex)) = rows :=
    List.mergeSort_of_pairwise (sorted.imp fun le => decide_eq_true le)
  simp only [ofParts, same] at done
  cases rows with
  | nil => cases done
  | cons first rest =>
    simp only [bind_ok_iff] at done
    obtain ⟨m, read, done⟩ := done
    cases done
    refine ⟨List.cons_ne_nil _ _, ⟨rfl, ?_, ?_, rfl, rfl, rfl, rfl, ?_, ?_, rfl⟩⟩
    · rintro r ⟨⟩
      rfl
    · rintro r ⟨⟩
      rfl
    · rintro r ⟨⟩
      rfl
    · rintro r ⟨⟩
      exact ⟨m, read, rfl⟩

end WholeChunk

namespace Recomposition

theorem recompose_spec {rows : List Slice} {trees : List ChunkTree}
    (done : recompose rows = .ok trees) :
    ∃ found, (groups rows).map WholeChunk.ofParts = found.map .ok ∧
      (ChunkTree.forest trees).Perm found := by
  simp only [recompose, bind_ok_iff, mapM_ok_iff] at done
  obtain ⟨found, made, parents, links, done⟩ := done
  refine ⟨found, made, ?_⟩
  have length := length_of_map_ok links
  split at done
  · rename_i all
    cases done
    exact (forest_perm length rfl all).trans (List.mergeSort_perm _ _)
  · cases done

/-- The ids of the chunks that rows belong to. -/
def chunkIds (rows : List Slice) : List String := (rows.map (·.content.chunkId)).eraseDups

/-- The rows of one chunk. -/
def rowsOf (rows : List Slice) (chunkId : String) : List Slice :=
  rows.filter (·.content.chunkId = chunkId)

variable {rows : List Slice} {fileId : Int}

theorem groups_perm (file : ∀ r ∈ rows, r.content.fileId = fileId) :
    (groups rows).Perm ((chunkIds rows).map (rowsOf rows)) := by
  have keys : ((rows.map fun r => (r.content.fileId, r.content.chunkId)).eraseDups).Perm
      ((chunkIds rows).map fun id => (fileId, id)) := by
    refine (List.perm_ext_iff_of_nodup (nodup_eraseDups _) ?_).2 fun key => ?_
    · exact (nodup_eraseDups _).map fun _ _ same => (Prod.mk.inj same).2
    · simp only [chunkIds, List.mem_eraseDups, List.mem_map]
      constructor
      · rintro ⟨r, mem, rfl⟩
        exact ⟨_, ⟨r, mem, rfl⟩, by rw [file r mem]⟩
      · rintro ⟨_, ⟨r, mem, rfl⟩, rfl⟩
        exact ⟨r, mem, by rw [file r mem]⟩
  refine (keys.map _).trans (List.Perm.of_eq ?_)
  rw [List.map_map]
  refine List.map_congr_left fun id _ => List.filter_congr fun r mem => ?_
  simp [file r mem]

theorem rowsOf_sorted (ordered : (rows.map (·.content)).Pairwise SliceContent.Before)
    (chunkId : String) :
    (rowsOf rows chunkId).Pairwise fun a b => a.content.partIndex ≤ b.content.partIndex := by
  refine ((List.pairwise_map.1 ordered).filter _).imp_of_mem fun {a b} ha hb before => ?_
  have ha := of_decide_eq_true (List.mem_filter.1 ha).2
  have hb := of_decide_eq_true (List.mem_filter.1 hb).2
  rcases before with less | ⟨-, less⟩
  · exact absurd (ha.trans hb.symm ▸ less) (String.lt_irrefl _)
  · exact Int.le_of_lt less

theorem rowsOf_head {chunkId : String} (mem : chunkId ∈ chunkIds rows) :
    ∃ first rest, rowsOf rows chunkId = first :: rest ∧ first.content.chunkId = chunkId := by
  obtain ⟨r, there, here⟩ := List.mem_map.1 (List.mem_eraseDups.1 mem)
  have inside : r ∈ rowsOf rows chunkId := List.mem_filter.2 ⟨there, decide_eq_true here⟩
  cases split : rowsOf rows chunkId with
  | nil =>
    rw [split] at inside
    cases inside
  | cons first rest =>
    have first_mem : first ∈ rowsOf rows chunkId := split ▸ List.mem_cons_self
    exact ⟨first, rest, rfl, of_decide_eq_true (List.mem_filter.1 first_mem).2⟩

theorem made_of_rows (file : ∀ r ∈ rows, r.content.fileId = fileId)
    (ordered : (rows.map (·.content)).Pairwise SliceContent.Before) {id : String}
    (mem : id ∈ chunkIds rows) {c : WholeChunk} (done : WholeChunk.ofParts (rowsOf rows id) = .ok c) :
    c.chunkId = id ∧ c.fileId = fileId ∧ c.MadeOf (rowsOf rows id) := by
  obtain ⟨-, whole⟩ := WholeChunk.ofParts_spec (rowsOf_sorted ordered id) done
  obtain ⟨first, rest, split, key⟩ := rowsOf_head mem
  have head : first ∈ (rowsOf rows id).head? := by simp [split]
  have there : first ∈ rowsOf rows id := split ▸ List.mem_cons_self
  exact ⟨(whole.chunkId first head).trans key,
    (whole.fileId first head).trans (file first (List.mem_filter.1 there).1), whole⟩

/-- The id of the chunk that a group of rows belongs to. -/
def groupId (g : List Slice) : String := (g.head?.map (·.content.chunkId)).getD ""

theorem groupId_rowsOf {id : String} (mem : id ∈ chunkIds rows) : groupId (rowsOf rows id) = id := by
  obtain ⟨first, rest, split, key⟩ := rowsOf_head mem
  simp [groupId, split, key]

/-- A forest has one node for each chunk of the file, made of the rows of that chunk. -/
theorem recompose_file {trees : List ChunkTree} (file : ∀ r ∈ rows, r.content.fileId = fileId)
    (ordered : (rows.map (·.content)).Pairwise SliceContent.Before)
    (done : recompose rows = .ok trees) :
    ((ChunkTree.forest trees).map fun c => (c.chunkId, c.parts)).Perm
        ((chunkIds rows).map fun id => (id, rowsOf rows id)) ∧
      ∀ c ∈ ChunkTree.forest trees, c.fileId = fileId ∧ c.MadeOf c.parts := by
  obtain ⟨found, made, perm⟩ := recompose_spec done
  have length := length_of_map_ok made
  have each (i : Nat) (hf : i < found.length) (hg : i < (groups rows).length) :
      found[i].chunkId = groupId (groups rows)[i] ∧ found[i].fileId = fileId ∧
        found[i].MadeOf (groups rows)[i] := by
    obtain ⟨id, mem, same⟩ := List.mem_map.1 ((groups_perm file).subset (List.getElem_mem hg))
    have one := getElem_of_map_ok made hg hf
    rw [← same] at one ⊢
    obtain ⟨key, here, whole⟩ := made_of_rows file ordered mem one
    exact ⟨key.trans (groupId_rowsOf mem).symm, here, whole⟩
  constructor
  · have pairs : found.map (fun c => (c.chunkId, c.parts)) =
        (groups rows).map fun g => (groupId g, g) := by
      refine List.ext_getElem (by simpa using length) fun i hf hg => ?_
      simp only [List.length_map] at hf hg
      obtain ⟨key, -, whole⟩ := each i hf hg
      simp [key, whole.parts]
    have keys : ((chunkIds rows).map (rowsOf rows)).map (fun g => (groupId g, g)) =
        (chunkIds rows).map fun id => (id, rowsOf rows id) := by
      rw [List.map_map]
      exact List.map_congr_left fun id mem => Prod.ext (groupId_rowsOf mem) rfl
    have pairs_perm := perm.map fun c => (c.chunkId, c.parts)
    rw [pairs] at pairs_perm
    exact pairs_perm.trans (((groups_perm file).map _).trans (List.Perm.of_eq keys))
  · intro c mem
    obtain ⟨i, bound, rfl⟩ := List.getElem_of_mem (perm.subset mem)
    obtain ⟨-, here, whole⟩ := each i bound (length ▸ bound)
    exact ⟨here, whole.parts.symm ▸ whole⟩

end Recomposition

end SourceSlices
