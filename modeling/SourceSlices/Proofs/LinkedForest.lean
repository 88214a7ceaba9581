import SourceSlices.Proofs.ExactForest
import SourceSlices.Proofs.LinkedOutput
import SourceSlices.Proofs.ResultRows

/-!
The rows of a linked output. Every chunk refers to a chunk that first occurs before it, so the rows can
be put together unless a text of metadata cannot be read.
-/
namespace SourceSlices

open Relation (TransGen)

/-! ### Where chunks first occur -/

/-- The place of the first part of a chunk in a list. -/
def firstPlace (chunks : List Chunk) (id : String) : Nat := chunks.findIdx (·.chunkId = id)

variable {chunks : List Chunk} {id : String}

theorem firstPlace_lt_iff : firstPlace chunks id < chunks.length ↔ id ∈ chunkNames chunks := by
  simp only [firstPlace, List.findIdx_lt_length, decide_eq_true_eq, namesOf, Set.mem_ofPred_eq]

theorem firstPlace_of_take {n : Nat} (earlier : id ∈ chunkNames (chunks.take n)) :
    firstPlace chunks id < n := by
  obtain ⟨c, mem, same⟩ := earlier
  obtain ⟨i, bound, rfl⟩ := List.mem_take_iff_getElem.1 mem
  have below : i < n := Nat.lt_of_lt_of_le bound (Nat.min_le_left _ _)
  refine Nat.lt_of_le_of_lt (Nat.not_lt.1 fun less => ?_) below
  exact of_decide_eq_false (List.not_of_lt_findIdx less) same

/-- The part with index zero of a complete chunk is the one that occurs first. -/
theorem getElem_firstPlace (complete : ∀ g ∈ ChunkGroup.all chunks, g.Complete)
    (continued : LinksBack Chunk.chunkId Chunk.continued? ∅ chunks) {p : Chunk} (mem : p ∈ chunks)
    (first : p.partIndex = 0) :
    ∃ bound : firstPlace chunks p.chunkId < chunks.length, chunks[firstPlace chunks p.chunkId] = p := by
  have bound : firstPlace chunks p.chunkId < chunks.length := firstPlace_lt_iff.2 ⟨p, mem, rfl⟩
  refine ⟨bound, ?_⟩
  have own : chunks[firstPlace chunks p.chunkId].chunkId = p.chunkId :=
    of_decide_eq_true (List.findIdx_getElem (w := bound))
  have leads : chunks[firstPlace chunks p.chunkId].partIndex = 0 := by
    by_contra later
    have split := (List.take_append_drop (firstPlace chunks p.chunkId) chunks).symm
    rw [← List.cons_getElem_drop_succ (h := bound)] at split
    have before := linksBack_iff.1 continued _ _ _ split _ (if_neg later)
    rw [own] at before
    exact Nat.lt_irrefl _ (firstPlace_of_take (before.resolve_left id))
  refine List.inj_on_of_nodup_map (Staging.parts_distinct complete) (List.getElem_mem bound) mem ?_
  exact Prod.ext own (leads.trans first.symm)

theorem firstPlace_enclosing (complete : ∀ g ∈ ChunkGroup.all chunks, g.Complete)
    (enclosing : LinksBack Chunk.chunkId Chunk.enclosing? ∅ chunks)
    (continued : LinksBack Chunk.chunkId Chunk.continued? ∅ chunks) {p : Chunk} (mem : p ∈ chunks)
    (first : p.partIndex = 0) {name : String} (named : p.enclosing? = some name) :
    firstPlace chunks name < firstPlace chunks p.chunkId := by
  obtain ⟨bound, same⟩ := getElem_firstPlace complete continued mem first
  have split := (List.take_append_drop (firstPlace chunks p.chunkId) chunks).symm
  rw [← List.cons_getElem_drop_succ (h := bound), same] at split
  exact firstPlace_of_take ((linksBack_iff.1 enclosing _ _ _ split name named).resolve_left id)

/-! ### The rows of a linked output -/

namespace Recomposition

variable {q : StageRequest} {fileId : Int} {ids : Staging.SymbolIds} {rows : List Slice}

theorem gather_error {e : Error} (failed : gather rows = .error e) : ∃ detail, e = .json detail := by
  unfold gather at failed
  cases made : (groups rows).mapM WholeChunk.ofParts with
  | ok found =>
    rw [made] at failed
    cases failed
  | error e' =>
    rw [made] at failed
    cases failed
    obtain ⟨part, mem, fault⟩ := exists_of_mapM_error made
    rw [groups_eq] at mem
    obtain ⟨key, there, rfl⟩ := List.mem_map.1 mem
    obtain ⟨first, rest, sorted, -⟩ := exists_lowest there
    exact WholeChunk.ofParts_error sorted fault

theorem recompose_error (distinct : (rows.map Slice.slot).Nodup)
    (present : ∀ child parent, Names rows child parent → parent ∈ chunkKeys rows ∧ parent ≠ child)
    (acyclic : ∀ key, ¬ TransGen (Names rows) key key) {e : Error}
    (failed : recompose rows = .error e) : ∃ detail, e = .json detail := by
  cases made : gather rows with
  | error e' =>
    rw [recompose_eq, made] at failed
    cases failed
    exact gather_error made
  | ok chunks =>
    have readable := (groups_succeed_iff distinct).1 (gather_succeeds_iff.1 ⟨chunks, made⟩)
    obtain ⟨trees, done⟩ := (recompose_succeeds_iff distinct).2 ⟨readable, present, acyclic⟩
    cases failed.symm.trans done

/-- Every row stands for a part, and every part has its row. -/
theorem mem_of_rows (all : Staging.Rows q fileId ids (rows.map (·.content))) :
    (∀ r ∈ rows, ∃ p ∈ q.result.chunks, Staging.sliceContent q fileId ids p = .ok r.content) ∧
      ∀ p ∈ q.result.chunks, ∃ r ∈ rows, Staging.sliceContent q fileId ids p = .ok r.content := by
  unfold Staging.Rows at all
  constructor
  · intro r mem
    have there : (Except.ok r.content : Except Error SliceContent) ∈
        (rows.map (·.content)).map .ok := List.mem_map_of_mem (List.mem_map_of_mem mem)
    rw [← all] at there
    obtain ⟨p, inside, done⟩ := List.mem_map.1 there
    exact ⟨p, Staging.mem_inOrder.1 inside, done⟩
  · intro p mem
    have there := List.mem_map_of_mem (f := Staging.sliceContent q fileId ids) (Staging.mem_inOrder.2 mem)
    rw [all, List.map_map] at there
    obtain ⟨r, inside, done⟩ := List.mem_map.1 there
    exact ⟨r, inside, done.symm⟩

/-- The leading row of a chunk stands for the part with index zero. -/
theorem part_of_lowest (complete : ∀ g ∈ ChunkGroup.all q.result.chunks, g.Complete)
    (all : Staging.Rows q fileId ids (rows.map (·.content))) {r : Slice} (lowest : Lowest rows r) :
    ∃ p ∈ q.result.chunks, p.partIndex = 0 ∧ r.chunkKey = (fileId, p.chunkId) ∧
      r.content.metadataJson = if p.metadata.isEmpty then none else some p.metadata.canonical := by
  obtain ⟨p, mem, done⟩ := (mem_of_rows all).1 r lowest.mem
  obtain ⟨slot, -, -, -, -, -, json⟩ := Staging.sliceContent_columns done
  obtain ⟨file, slot⟩ := Prod.mk.inj slot
  obtain ⟨chunk, part⟩ := Prod.mk.inj slot
  refine ⟨p, mem, ?_, Prod.ext file chunk, json⟩
  -- The chunk has a part with index zero, and its row is not below the leading one.
  obtain ⟨there, inside⟩ := ChunkGroup.ofPart_mem mem
  have zero : 0 ∈ (ChunkGroup.ofPart q.result.chunks p).parts.map (·.partIndex) := by
    rw [(complete _ there).numbered, List.mem_range]
    exact List.length_pos_of_mem inside
  obtain ⟨p', mem', index⟩ := List.mem_map.1 zero
  obtain ⟨there', same⟩ := ChunkGroup.mem_partsOf.1 mem'
  obtain ⟨r', mem', done'⟩ := (mem_of_rows all).2 p' there'
  obtain ⟨slot', -⟩ := Staging.sliceContent_columns done'
  obtain ⟨file', slot'⟩ := Prod.mk.inj slot'
  obtain ⟨chunk', part'⟩ := Prod.mk.inj slot'
  have least := lowest.least r' mem'
    (Prod.ext (file'.trans file.symm) (chunk'.trans (same.trans chunk.symm)))
  rw [part, part', index] at least
  simp only [Staging.count, MetaValue.intMax] at least
  omega

theorem firstPlace_names {known : String → Prop} (linked : q.result.output.Linked known ∅ ∅)
    (complete : ∀ g ∈ ChunkGroup.all q.result.chunks, g.Complete)
    (all : Staging.Rows q fileId ids (rows.map (·.content))) {child parent : ChunkKey}
    (names : Names rows child parent) : child.1 = fileId ∧ parent.1 = fileId ∧
      firstPlace q.result.chunks parent.2 < firstPlace q.result.chunks child.2 := by
  obtain ⟨r, m, name, lowest, read, rfl, named, rfl⟩ := names
  obtain ⟨p, mem, first, key, json⟩ := part_of_lowest complete all lowest
  rw [Slice.Records, json, WholeChunk.metadataOf_written_iff] at read
  obtain ⟨-, rfl⟩ := read
  rw [key]
  exact ⟨rfl, rfl, firstPlace_enclosing complete linked.enclosing linked.continued mem first named⟩

/-- The rows of a linked output can be put together, unless a text of metadata cannot be read. -/
theorem recompose_linked {known : String → Prop} (linked : q.result.output.Linked known ∅ ∅)
    (complete : ∀ g ∈ ChunkGroup.all q.result.chunks, g.Complete)
    (all : Staging.Rows q fileId ids (rows.map (·.content)))
    (ordered : (rows.map (·.content)).Pairwise SliceContent.Before) {e : Error}
    (failed : recompose rows = .error e) : ∃ detail, e = .json detail := by
  have distinct : (rows.map Slice.slot).Nodup := by
    refine List.pairwise_map.2 ((List.pairwise_map.1 ordered).imp fun {a b} before same => ?_)
    obtain ⟨chunk, part⟩ := Prod.mk.inj (Prod.mk.inj same).2
    unfold SliceContent.Before at before
    rw [chunk, part] at before
    exact before.elim (String.lt_irrefl _) fun less => Int.lt_irrefl _ less.2
  have falls (child parent : ChunkKey) (names : Names rows child parent) :=
    (firstPlace_names linked complete all names).2.2
  refine recompose_error distinct (fun child parent names => ⟨?_, ?_⟩)
    (acyclic_of_rank (fun key => firstPlace q.result.chunks key.2) falls) failed
  · obtain ⟨-, file, less⟩ := firstPlace_names linked complete all names
    have bound : firstPlace q.result.chunks parent.2 < q.result.chunks.length :=
      Nat.lt_of_lt_of_le less List.findIdx_le_length
    obtain ⟨p, mem, same⟩ := firstPlace_lt_iff.1 bound
    obtain ⟨r, there, done⟩ := (mem_of_rows all).2 p mem
    obtain ⟨slot, -⟩ := Staging.sliceContent_columns done
    obtain ⟨file', slot⟩ := Prod.mk.inj slot
    exact mem_chunkKeys.2 ⟨r, there,
      Prod.ext (file'.trans file.symm) ((Prod.mk.inj slot).1.trans same)⟩
  · rintro rfl
    exact Nat.lt_irrefl _ (falls _ _ names)

end Recomposition

end SourceSlices
