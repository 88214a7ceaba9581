import SourceSlices.Proofs.FlatForest

/-!
Rows of any files grouped to chunks. The part with the lowest index leads its chunk: the chunk has its
columns and its metadata, and is made whole exactly when that metadata can be read.
-/
namespace SourceSlices

/-- File and id of a chunk. -/
abbrev ChunkKey := Int × String

namespace Slice

def chunkKey (r : Slice) : ChunkKey := (r.content.fileId, r.content.chunkId)

/-- The metadata of a row can be read, and this is what it says. -/
def Records (r : Slice) (m : Metadata) : Prop :=
  WholeChunk.metadataOf r.content.metadataJson = .ok m

end Slice

theorem SortedMap.contains_eq {α : Type} (m : SortedMap α) (key : String) :
    m.contains key = (m.find? key).isSome := by
  rw [contains, find?, Option.isSome_map, List.isSome_find?]

namespace WholeChunk

variable {rows : List Slice} {first : Slice} {rest : List Slice} {c : WholeChunk} {m : Metadata}

def key (c : WholeChunk) : ChunkKey := (c.fileId, c.chunkId)

/-- What a chunk has from the part that leads it. -/
structure LedBy (c : WholeChunk) (r : Slice) (m : Metadata) : Prop where
  key : c.key = r.chunkKey
  symbolId : c.symbolId = r.content.symbolId
  parentSymbolId : c.parentSymbolId = r.content.parentSymbolId
  delegateParent : c.delegateParent = m.str? "delegate_parent_chunk"
  delegated : c.isDelegated =
    (m.contains "delegate_parent_chunk" || m.contains "delegate_parent_handler")

theorem LedBy.delegated_of_named {r : Slice} (led : c.LedBy r m) {name : String}
    (named : c.delegateParent = some name) : c.isDelegated = true := by
  rw [led.delegateParent, Metadata.str?, Option.bind_eq_some_iff] at named
  obtain ⟨value, there, -⟩ := named
  simp [led.delegated, SortedMap.contains_eq, there]

/-- The parts of a chunk in the order of their indices. -/
def inOrder (rows : List Slice) : List Slice :=
  rows.mergeSort fun a b => a.content.partIndex ≤ b.content.partIndex

theorem inOrder_sorted (rows : List Slice) :
    (inOrder rows).Pairwise fun a b => a.content.partIndex ≤ b.content.partIndex := by
  have sorted : (inOrder rows).Pairwise
      fun a b => decide (a.content.partIndex ≤ b.content.partIndex) = true := by
    apply List.pairwise_mergeSort
    · intro a b c ab bc
      simp only [decide_eq_true_eq] at *
      omega
    · intro a b
      simp only [Bool.or_eq_true, decide_eq_true_eq]
      omega
  exact sorted.imp of_decide_eq_true

theorem inOrder_lowest (sorted : inOrder rows = first :: rest) :
    first ∈ rows ∧ ∀ r ∈ rows, first.content.partIndex ≤ r.content.partIndex := by
  have perm : (first :: rest).Perm rows := sorted ▸ List.mergeSort_perm rows _
  refine ⟨perm.subset List.mem_cons_self, fun r mem => ?_⟩
  have ascending := inOrder_sorted rows
  rw [sorted] at ascending
  rcases List.mem_cons.1 (perm.symm.subset mem) with rfl | later
  · exact Int.le_refl _
  · exact (List.pairwise_cons.1 ascending).1 r later

theorem ofParts_succeeds_iff (sorted : inOrder rows = first :: rest) :
    Succeeds (ofParts rows) ↔ ∃ m, first.Records m := by
  rw [inOrder] at sorted
  simp only [Succeeds, ofParts, sorted, Slice.Records]
  cases metadataOf first.content.metadataJson with
  | error e => simp [bind, Except.bind]
  | ok m => simp [bind, Except.bind]

theorem ofParts_error (sorted : inOrder rows = first :: rest) {e : Error}
    (failed : ofParts rows = .error e) : ∃ detail, e = .json detail := by
  rw [inOrder] at sorted
  simp only [ofParts, sorted] at failed
  cases read : metadataOf first.content.metadataJson with
  | error e' =>
    rw [read] at failed
    cases failed
    exact metadataOf_error read
  | ok m =>
    rw [read] at failed
    cases failed

theorem ofParts_led (sorted : inOrder rows = first :: rest) (done : ofParts rows = .ok c) :
    c.parts.Perm rows ∧ ∃ m, first.Records m ∧ c.LedBy first m := by
  have perm : (first :: rest).Perm rows := sorted ▸ List.mergeSort_perm rows _
  rw [inOrder] at sorted
  simp only [ofParts, sorted, bind_ok_iff] at done
  obtain ⟨m, read, done⟩ := done
  cases done
  refine ⟨perm, m, read, ⟨rfl, rfl, rfl, ?_, ?_⟩⟩
  · simp only [Metadata.str?]
    rw [SortedMap.find?_insert_ne (by decide), SortedMap.find?_erase_ne (by decide)]
  · simp only [isDelegated, SortedMap.contains_eq]
    rw [SortedMap.find?_insert_ne (by decide), SortedMap.find?_erase_ne (by decide),
      SortedMap.find?_insert_ne (by decide), SortedMap.find?_erase_ne (by decide)]

end WholeChunk

namespace Recomposition

variable {rows : List Slice} {key : ChunkKey}

/-- The chunks that rows belong to, in the order in which they first occur. -/
def chunkKeys (rows : List Slice) : List ChunkKey := (rows.map Slice.chunkKey).eraseDups

def partsOf (rows : List Slice) (key : ChunkKey) : List Slice := rows.filter (·.chunkKey = key)

theorem groups_eq (rows : List Slice) : groups rows = (chunkKeys rows).map (partsOf rows) := rfl

theorem mem_chunkKeys : key ∈ chunkKeys rows ↔ ∃ r ∈ rows, r.chunkKey = key := by
  simp [chunkKeys]

theorem mem_partsOf {r : Slice} : r ∈ partsOf rows key ↔ r ∈ rows ∧ r.chunkKey = key := by
  simp [partsOf]

/-- The part of a chunk with the lowest index. -/
structure Lowest (rows : List Slice) (r : Slice) : Prop where
  mem : r ∈ rows
  least : ∀ q ∈ rows, q.chunkKey = r.chunkKey → r.content.partIndex ≤ q.content.partIndex

theorem lowest_unique (distinct : (rows.map Slice.slot).Nodup) {a b : Slice} (ha : Lowest rows a)
    (hb : Lowest rows b) (same : a.chunkKey = b.chunkKey) : a = b := by
  have index : a.content.partIndex = b.content.partIndex :=
    Int.le_antisymm (ha.least b hb.mem same.symm) (hb.least a ha.mem same)
  refine List.inj_on_of_nodup_map distinct ha.mem hb.mem ?_
  obtain ⟨file, id⟩ := Prod.mk.inj same
  exact Prod.ext file (Prod.ext id index)

theorem exists_lowest (mem : key ∈ chunkKeys rows) :
    ∃ first rest, WholeChunk.inOrder (partsOf rows key) = first :: rest ∧ Lowest rows first ∧
      first.chunkKey = key := by
  obtain ⟨r, there, own⟩ := mem_chunkKeys.1 mem
  have perm : (WholeChunk.inOrder (partsOf rows key)).Perm (partsOf rows key) :=
    List.mergeSort_perm _ _
  cases sorted : WholeChunk.inOrder (partsOf rows key) with
  | nil =>
    have inside := perm.symm.subset (mem_partsOf.2 ⟨there, own⟩)
    rw [sorted] at inside
    cases inside
  | cons first rest =>
    obtain ⟨part, least⟩ := WholeChunk.inOrder_lowest sorted
    obtain ⟨here, same⟩ := mem_partsOf.1 part
    exact ⟨first, rest, rfl, ⟨here, fun q mem alike => least q (mem_partsOf.2 ⟨mem, alike.trans same⟩)⟩,
      same⟩

theorem groups_succeed_iff (distinct : (rows.map Slice.slot).Nodup) :
    Succeeds ((groups rows).mapM WholeChunk.ofParts) ↔ ∀ r, Lowest rows r → ∃ m, r.Records m := by
  rw [mapM_succeeds_iff, groups_eq, List.forall_mem_map]
  constructor
  · intro all r lowest
    have mem : r.chunkKey ∈ chunkKeys rows := mem_chunkKeys.2 ⟨r, lowest.mem, rfl⟩
    obtain ⟨first, rest, sorted, lowest', same⟩ := exists_lowest mem
    obtain rfl := lowest_unique distinct lowest' lowest same
    exact (WholeChunk.ofParts_succeeds_iff sorted).1 (all _ mem)
  · intro all key mem
    obtain ⟨first, rest, sorted, lowest, -⟩ := exists_lowest mem
    exact (WholeChunk.ofParts_succeeds_iff sorted).2 (all first lowest)

/-- The chunks of rows, in the order of their places. -/
structure Gathered (rows : List Slice) (chunks : List WholeChunk) : Prop where
  keys : (chunks.map WholeChunk.key).Perm (chunkKeys rows)
  parts : ∀ c ∈ chunks, c.parts.Perm (partsOf rows c.key)
  led : ∀ c ∈ chunks, ∃ r m, Lowest rows r ∧ r.Records m ∧ c.LedBy r m
  sorted : chunks.Pairwise fun a b => a.before b = true

theorem gathered {found : List WholeChunk} (done : (groups rows).mapM WholeChunk.ofParts = .ok found) :
    Gathered rows (found.mergeSort WholeChunk.before) := by
  have made := mapM_ok_iff.1 done
  rw [groups_eq, List.map_map] at made
  have each {key : ChunkKey} (mem : key ∈ chunkKeys rows) {c : WholeChunk}
      (one : WholeChunk.ofParts (partsOf rows key) = .ok c) :
      c.key = key ∧ c.parts.Perm (partsOf rows key) ∧
        ∃ r m, Lowest rows r ∧ r.Records m ∧ c.LedBy r m := by
    obtain ⟨first, rest, sorted, lowest, same⟩ := exists_lowest mem
    obtain ⟨perm, m, read, led⟩ := WholeChunk.ofParts_led sorted one
    exact ⟨led.key.trans same, perm, first, m, lowest, read, led⟩
  have keys : found.map WholeChunk.key = chunkKeys rows := by
    have length := length_of_map_ok made
    refine List.ext_getElem (by simpa using length) fun i hf hk => ?_
    simp only [List.length_map] at hf
    have one := getElem_of_map_ok made hk hf
    simpa using (each (List.getElem_mem hk) one).1
  have own (c : WholeChunk) (mem : c ∈ found) : ∃ key ∈ chunkKeys rows,
      WholeChunk.ofParts (partsOf rows key) = .ok c := by
    have there : Except.ok c ∈ (chunkKeys rows).map (WholeChunk.ofParts ∘ partsOf rows) :=
      made ▸ List.mem_map_of_mem mem
    exact List.mem_map.1 there
  -- Sorting only moves the chunks, so each of them is still made of the rows of its key.
  have perm := List.mergeSort_perm found WholeChunk.before
  refine ⟨(perm.map _).trans (List.Perm.of_eq keys), fun c mem => ?_, fun c mem => ?_, ?_⟩
  · obtain ⟨key, there, one⟩ := own c (perm.subset mem)
    obtain ⟨same, parts, -⟩ := each there one
    exact same ▸ parts
  · obtain ⟨key, there, one⟩ := own c (perm.subset mem)
    exact (each there one).2.2
  · apply List.pairwise_mergeSort
    · exact fun _ _ _ => WholeChunk.before_trans
    · exact WholeChunk.before_total

variable {chunks : List WholeChunk}

theorem Gathered.apart (gathered : Gathered rows chunks) : (chunks.map WholeChunk.key).Nodup :=
  gathered.keys.nodup_iff.2 (nodup_eraseDups _)

theorem Gathered.eq_of_key (gathered : Gathered rows chunks) {a b : WholeChunk} (ha : a ∈ chunks)
    (hb : b ∈ chunks) (same : a.key = b.key) : a = b :=
  List.inj_on_of_nodup_map gathered.apart ha hb same

theorem Gathered.slices (gathered : Gathered rows chunks) : (chunks.flatMap (·.parts)).Perm rows := by
  have all : ∀ r ∈ rows, r.chunkKey ∈ chunks.map WholeChunk.key := fun r mem =>
    gathered.keys.symm.subset (mem_chunkKeys.2 ⟨r, mem, rfl⟩)
  have groups : ((chunks.map WholeChunk.key).flatMap (partsOf rows)).Perm rows :=
    flatMap_filter_perm Slice.chunkKey gathered.apart all
  rw [List.flatMap_map] at groups
  exact (List.Perm.flatMap_left _ gathered.parts).trans groups

end Recomposition

end SourceSlices
