import SourceSlices.Proofs.MetadataKeys
import SourceSlices.Proofs.WholeChunks

/-!
Rows of chunks that hang below no other chunk. They are always put together: every chunk is a tree of
its own, and the trees stand in the order of their places in the file.
-/
namespace SourceSlices

theorem Text.trim_solid {first last : Char} (inner : List Char) (solid : isBlank first = false)
    (solid' : isBlank last = false) :
    trim (first :: (inner ++ [last])) = first :: (inner ++ [last]) := by
  have start : (first :: (inner ++ [last])).dropWhile isBlank = first :: (inner ++ [last]) := by
    rw [List.dropWhile_cons, solid]
    rfl
  have reversed : (first :: (inner ++ [last])).reverse = last :: (inner.reverse ++ [first]) := by simp
  rw [trim, trimWhere, trimStartWhere, start, trimEndWhere, reversed, List.dropWhile_cons, solid',
    ← reversed]
  exact List.reverse_reverse _

theorem Metadata.canonical_ends (m : Metadata) :
    ∃ inner, m.canonical.toList = '\x7b' :: (inner ++ ['\x7d']) := by
  refine ⟨(String.intercalate "," (m.entries.map memberText)).toList, ?_⟩
  rw [canonical_toList, intercalate_closed]

namespace WholeChunk

/-- The metadata of a part is read back from its row, if its numbers have 64 bits. -/
theorem metadataOf_written_iff {m m' : Metadata} :
    metadataOf (if m.isEmpty then none else some m.canonical) = .ok m' ↔ m.Fits ∧ m' = m := by
  split
  · rename_i empty
    obtain rfl : m = Metadata.empty := SortedMap.ext_entries (List.isEmpty_iff.1 empty)
    exact ⟨fun same => ⟨Metadata.fits_empty, (Except.ok.inj same).symm⟩, fun ⟨_, same⟩ => same ▸ rfl⟩
  · obtain ⟨inner, ends⟩ := m.canonical_ends
    have trimmed : Text.trim m.canonical.toList = m.canonical.toList := by
      rw [ends]
      exact Text.trim_solid inner (by decide) (by decide)
    have some : m.canonical.toList.isEmpty = false := by
      rw [ends]
      rfl
    simp only [metadataOf, trimmed, some, Bool.false_eq_true, if_false, String.ofList_toList,
      mapError_ok_iff, Metadata.read_canonical_iff]

theorem metadataOf_written {m : Metadata} (small : m.Fits) :
    metadataOf (if m.isEmpty then none else some m.canonical) = .ok m :=
  metadataOf_written_iff.2 ⟨small, rfl⟩

/-- If the metadata of a part cannot be read, it is their text that is at fault. -/
theorem metadataOf_error {json : Option String} {e : Error} (failed : metadataOf json = .error e) :
    ∃ detail, e = .json detail := by
  unfold metadataOf at failed
  split at failed
  · cases failed
  · rename_i text
    dsimp only at failed
    split at failed
    · cases failed
    · generalize Metadata.read _ = read at failed
      cases read with
      | ok m => cases failed
      | error f =>
        cases failed
        exact ⟨f.label, rfl⟩

theorem before_iff {a b : WholeChunk} : before a b = true ↔
    a.fileId < b.fileId ∨ a.fileId = b.fileId ∧
      (a.position < b.position ∨ a.position = b.position ∧ a.chunkId ≤ b.chunkId) := by
  simp only [before, Bool.or_eq_true, Bool.and_eq_true, decide_eq_true_eq]

theorem before_trans {a b c : WholeChunk} (ab : before a b = true) (bc : before b c = true) :
    before a c = true := by
  rw [before_iff] at *
  have := @String.le_trans a.chunkId b.chunkId c.chunkId
  grind

theorem before_total (a b : WholeChunk) : (before a b || before b a) = true := by
  rw [Bool.or_eq_true, before_iff, before_iff]
  have := String.le_total a.chunkId b.chunkId
  grind

theorem ofParts_ok {first : Slice} {rest : List Slice} {m : Metadata}
    (sorted : (first :: rest).Pairwise fun a b => a.content.partIndex ≤ b.content.partIndex)
    (recorded : metadataOf first.content.metadataJson = .ok m) :
    ∃ c, ofParts (first :: rest) = .ok c := by
  have same : (first :: rest).mergeSort
      (fun a b => decide (a.content.partIndex ≤ b.content.partIndex)) = first :: rest :=
    List.mergeSort_of_pairwise (sorted.imp fun le => decide_eq_true le)
  simp only [ofParts, same, recorded]
  exact ⟨_, rfl⟩

/-- A chunk that names no other one. -/
structure Top (c : WholeChunk) : Prop where
  delegate : c.delegateParent = none
  symbol : c.parentSymbolId = none

end WholeChunk

/-- A row of a chunk that names no other one. -/
structure Slice.Top (r : Slice) : Prop where
  symbol : r.content.parentSymbolId = none
  recorded : ∃ m, WholeChunk.metadataOf r.content.metadataJson = .ok m ∧
    m.find? "delegate_parent_chunk" = none

namespace Recomposition

variable {rows : List Slice} {fileId : Int} {chunks : List WholeChunk}

theorem top_of_rows {c : WholeChunk} {first : Slice} {rest : List Slice} (top : first.Top)
    (made : c.MadeOf (first :: rest)) : c.Top := by
  have head : first ∈ (first :: rest).head? := rfl
  obtain ⟨m, read, metadata⟩ := made.metadata first head
  obtain ⟨m', read', free⟩ := top.recorded
  obtain rfl := Except.ok.inj (read.symm.trans read')
  refine ⟨?_, (made.parentSymbolId first head).trans top.symbol⟩
  rw [made.delegateParent, metadata, Metadata.str?, SortedMap.find?_insert_ne (by decide),
    SortedMap.find?_erase_ne (by decide), free]
  rfl

/-- The chunks of rows that name no other chunk. -/
theorem top_found (file : ∀ r ∈ rows, r.content.fileId = fileId)
    (ordered : (rows.map (·.content)).Pairwise SliceContent.Before) (top : ∀ r ∈ rows, r.Top) :
    ∃ found, (groups rows).mapM WholeChunk.ofParts = .ok found ∧ ∀ c ∈ found, c.Top := by
  have each (g : List Slice) (mem : g ∈ groups rows) :
      ∃ c, WholeChunk.ofParts g = .ok c ∧ c.Top := by
    obtain ⟨id, there, rfl⟩ := List.mem_map.1 ((groups_perm file).subset mem)
    have sorted := rowsOf_sorted ordered id
    obtain ⟨first, rest, split, -⟩ := rowsOf_head there
    have first_top : first.Top :=
      top first (List.mem_filter.1 (split ▸ List.mem_cons_self : first ∈ rowsOf rows id)).1
    rw [split] at sorted ⊢
    obtain ⟨m, read, -⟩ := first_top.recorded
    obtain ⟨c, done⟩ := WholeChunk.ofParts_ok sorted read
    exact ⟨c, done, top_of_rows first_top (WholeChunk.ofParts_spec sorted done).2⟩
  obtain ⟨found, made⟩ : ∃ found : List WholeChunk,
      found.map Except.ok = (groups rows).map WholeChunk.ofParts := by
    refine exists_of_all_made fun x mem => ?_
    obtain ⟨g, there, rfl⟩ := List.mem_map.1 mem
    obtain ⟨c, done, -⟩ := each g there
    exact ⟨c, done.symm⟩
  refine ⟨found, mapM_ok_iff.2 made.symm, fun c mem => ?_⟩
  obtain ⟨g, there, done⟩ := List.mem_map.1
    (made ▸ List.mem_map_of_mem mem : Except.ok c ∈ (groups rows).map WholeChunk.ofParts)
  obtain ⟨c', done', top'⟩ := each g there
  exact Except.ok.inj (done'.symm.trans done) ▸ top'

theorem parents_top (top : ∀ c ∈ chunks, c.Top) :
    chunks.mapM (parentOf chunks) = .ok (List.replicate chunks.length none) := by
  rw [mapM_ok_iff, List.map_replicate]
  refine List.eq_replicate_iff.2 ⟨by simp, fun x mem => ?_⟩
  obtain ⟨c, there, rfl⟩ := List.mem_map.1 mem
  simp only [parentOf, (top c there).delegate, (top c there).symbol]

theorem childrenOf_top (n : Nat) : childrenOf (List.replicate n none) none = List.range n ∧
    ∀ i, childrenOf (List.replicate n none) (some i) = [] := by
  constructor
  · refine (List.filter_eq_self.2 fun i mem => ?_).trans (by simp)
    simp at mem
    simp [mem]
  · intro i
    refine List.filter_eq_nil_iff.2 fun j mem => ?_
    simp at mem
    simp [mem]

/-- Trees of one chunk each. -/
def flat (chunks : List WholeChunk) : List ChunkTree := chunks.map fun c => .node c []

theorem forest_flat (chunks : List WholeChunk) : ChunkTree.forest (flat chunks) = chunks := by
  induction chunks with
  | nil => rfl
  | cons c rest ih => simpa [flat, ChunkTree.forest, ChunkTree.chunks] using ih

theorem assemble_top (chunks : List WholeChunk) (fuel : Nat) :
    (List.range chunks.length).flatMap (assemble chunks.toArray
      ((List.range chunks.length).map fun _ => []).toArray (fuel + 1)) = flat chunks := by
  have each (i : Nat) (mem : i ∈ List.range chunks.length) :
      assemble chunks.toArray ((List.range chunks.length).map fun _ => []).toArray (fuel + 1) i =
        ((chunks[i]?).map fun c => ChunkTree.node c []).toList := by
    have bound := List.mem_range.1 mem
    simp [assemble, bound]
  rw [List.flatMap_congr each, ← List.filterMap_eq_flatMap_toList]
  have places := congrArg (List.map fun c => ChunkTree.node c []) (filterMap_range chunks)
  rwa [List.map_filterMap] at places

/-- Rows of chunks that name no other chunk make a tree of each, in the order of their places. -/
theorem recompose_top (file : ∀ r ∈ rows, r.content.fileId = fileId)
    (ordered : (rows.map (·.content)).Pairwise SliceContent.Before) (top : ∀ r ∈ rows, r.Top) :
    ∃ chunks, recompose rows = .ok (flat chunks) ∧ chunks.Pairwise fun a b => a.before b = true := by
  obtain ⟨found, made, free⟩ := top_found file ordered top
  have sorted : (found.mergeSort WholeChunk.before).Pairwise fun a b => a.before b = true := by
    apply List.pairwise_mergeSort
    · exact fun _ _ _ => WholeChunk.before_trans
    · exact WholeChunk.before_total
  refine ⟨found.mergeSort WholeChunk.before, ?_, sorted⟩
  have free' : ∀ c ∈ found.mergeSort WholeChunk.before, c.Top := fun c mem =>
    free c ((List.mergeSort_perm _ _).subset mem)
  have all : ChunkTree.sizes (flat (found.mergeSort WholeChunk.before)) =
      (found.mergeSort WholeChunk.before).length := by
    rw [← ChunkTree.length_forest, forest_flat]
  obtain ⟨roots, none⟩ := childrenOf_top (found.mergeSort WholeChunk.before).length
  simp only [recompose, made, parents_top free', bind, Except.bind, roots, none, assemble_top, all,
    if_true]

end Recomposition

end SourceSlices
