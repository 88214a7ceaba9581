import SourceSlices.Proofs.LeadingParts
import SourceSlices.Proofs.ParentLinks

/-!
When slices of any files can be put together, and to which trees. They can exactly when the leading
parts of all chunks have metadata that can be read and name chunks that are there, without a cycle; the
trees then hold every chunk and every slice once, and every chunk stands where its links put it.
-/
namespace SourceSlices

namespace Recomposition

open Relation (TransGen)

variable {rows : List Slice} {chunks : List WholeChunk} {c : WholeChunk} {o : Option Nat}

/-! ### The link of one chunk -/

/-- An ordinary chunk of the symbol that a delegated chunk without a named parent belongs to. -/
structure Owns (p c : WholeChunk) : Prop where
  unnamed : c.delegateParent = none
  delegated : c.isDelegated = true
  file : p.fileId = c.fileId
  symbol : ∃ symbol, c.parentSymbolId = some symbol ∧ p.symbolId = some symbol
  ordinary : p.isDelegated = false

/-- Where a chunk hangs among others. -/
inductive Placed (chunks : List WholeChunk) (c : WholeChunk) : Option Nat → Prop where
  | named {name : String} {p : Nat} {a : WholeChunk} (own : c.delegateParent = some name)
      (here : chunks[p]? = some a) (key : a.key = (c.fileId, name)) : Placed chunks c (some p)
  | owned {p : Nat} {a : WholeChunk} (here : chunks[p]? = some a) (owns : Owns a c)
      (first : ∀ b ∈ chunks.take p, ¬ Owns b c) : Placed chunks c (some p)
  | free (unnamed : c.delegateParent = none) (ownerless : ∀ a ∈ chunks, ¬ Owns a c) :
      Placed chunks c none

theorem placed_of_found {symbol : Int} (unnamed : c.delegateParent = none)
    (delegated : c.isDelegated = true) (own : c.parentSymbolId = some symbol) :
    Placed chunks c (chunks.findIdx? fun p =>
      p.fileId = c.fileId ∧ p.symbolId = some symbol ∧ !p.isDelegated) := by
  have owns_iff (p : WholeChunk) :
      Owns p c ↔ p.fileId = c.fileId ∧ p.symbolId = some symbol ∧ !p.isDelegated := by
    constructor
    · rintro ⟨-, -, file, ⟨symbol', own', holds⟩, ordinary⟩
      obtain rfl := Option.some.inj (own.symm.trans own')
      exact ⟨file, holds, by simp [ordinary]⟩
    · rintro ⟨file, holds, ordinary⟩
      exact ⟨unnamed, delegated, file, ⟨symbol, own, holds⟩, by simpa using ordinary⟩
  cases found : chunks.findIdx? fun p =>
      decide (p.fileId = c.fileId ∧ p.symbolId = some symbol ∧ !p.isDelegated) with
  | none =>
    refine .free unnamed fun a mem owns => ?_
    simpa [(owns_iff a).1 owns] using List.findIdx?_eq_none_iff.1 found a mem
  | some p =>
    obtain ⟨bound, owns, before⟩ := List.findIdx?_eq_some_iff_getElem.1 found
    refine .owned (List.getElem?_eq_getElem bound) ((owns_iff _).2 (of_decide_eq_true owns)) ?_
    intro b mem owns'
    obtain ⟨i, less, rfl⟩ := List.mem_take_iff_getElem.1 mem
    exact before i (by omega) (decide_eq_true ((owns_iff _).1 owns'))

/-- The link that is found puts a chunk where it belongs. -/
theorem placed_of_ok (done : parentOf chunks c = .ok o) : Placed chunks c o := by
  unfold parentOf at done
  cases named : c.delegateParent with
  | some name =>
    simp only [named] at done
    split at done
    · cases done
    · rename_i p found
      split at done
      · cases done
      · cases done
        obtain ⟨bound, same, -⟩ := List.findIdx?_eq_some_iff_getElem.1 found
        obtain ⟨file, id⟩ := of_decide_eq_true same
        exact .named named (List.getElem?_eq_getElem bound) (Prod.ext file id)
  | none =>
    simp only [named] at done
    -- Without a name only a chunk of another handler is linked, to the first owner of its symbol.
    cases own : c.parentSymbolId with
    | none =>
      simp only [own] at done
      cases done
      refine .free named fun a _ owns => ?_
      obtain ⟨symbol, own', -⟩ := owns.symbol
      simp [own] at own'
    | some symbol =>
      simp only [own] at done
      split at done
      · rename_i delegated
        cases done
        exact placed_of_found named delegated own
      · rename_i ordinary
        cases done
        exact .free named fun a _ owns => ordinary owns.delegated

/-- A link is found unless the chunk names one that is not there, or itself. -/
theorem parentOf_succeeds_iff : Succeeds (parentOf chunks c) ↔
    ∀ name, c.delegateParent = some name →
      (c.fileId, name) ∈ chunks.map WholeChunk.key ∧ (c.fileId, name) ≠ c.key := by
  unfold parentOf
  cases named : c.delegateParent with
  | some name =>
    have there : (c.fileId, name) ∈ chunks.map WholeChunk.key ↔
        ∃ p ∈ chunks, p.fileId = c.fileId ∧ p.chunkId = name := by
      simp [WholeChunk.key]
    have other : (c.fileId, name) ≠ c.key ↔ name ≠ c.chunkId := by
      simp [WholeChunk.key]
    simp only [Option.some.injEq, forall_eq', there, other]
    cases found : chunks.findIdx? fun p => decide (p.fileId = c.fileId ∧ p.chunkId = name) with
    | none =>
      have missing := List.findIdx?_eq_none_iff.1 found
      refine iff_of_false (by simp [Succeeds]) fun present => ?_
      obtain ⟨p, mem, same⟩ := present.1
      simpa [same] using missing p mem
    | some i =>
      obtain ⟨bound, same, -⟩ := List.findIdx?_eq_some_iff_getElem.1 found
      have present : ∃ p ∈ chunks, p.fileId = c.fileId ∧ p.chunkId = name :=
        ⟨_, List.getElem_mem bound, of_decide_eq_true same⟩
      by_cases self : name = c.chunkId
      · simp [Succeeds, self]
      · simp only [self, if_false, ne_eq, not_false_eq_true, and_true]
        exact iff_of_true ⟨_, rfl⟩ present
  | none =>
    -- Without a name nothing can fail, whether an owner is found or not.
    refine iff_of_true ?_ (by simp)
    cases c.parentSymbolId with
    | none => exact ⟨_, rfl⟩
    | some symbol =>
      simp only
      split <;> exact ⟨_, rfl⟩

/-! ### The links of all chunks -/

variable {parents : List (Option Nat)}

/-- The metadata of the leading part of one chunk names another one of the same file. -/
def Names (rows : List Slice) (child parent : ChunkKey) : Prop :=
  ∃ r m name, Lowest rows r ∧ r.Records m ∧ r.chunkKey = child ∧
    m.str? "delegate_parent_chunk" = some name ∧ parent = (child.1, name)

/-- Rows whose leading parts can be read, and which name other chunks that are there without a cycle. -/
structure WellLinked (rows : List Slice) : Prop where
  readable : ∀ r, Lowest rows r → ∃ m, r.Records m
  present : ∀ child parent, Names rows child parent → parent ∈ chunkKeys rows ∧ parent ≠ child
  acyclic : ∀ key, ¬ TransGen (Names rows) key key

theorem names_iff (distinct : (rows.map Slice.slot).Nodup) (gathered : Gathered rows chunks)
    (mem : c ∈ chunks) {parent : ChunkKey} :
    Names rows c.key parent ↔ ∃ name, c.delegateParent = some name ∧ parent = (c.fileId, name) := by
  obtain ⟨r, m, lowest, read, led⟩ := gathered.led c mem
  constructor
  · rintro ⟨r', m', name, lowest', read', key, named, rfl⟩
    obtain rfl := lowest_unique distinct lowest lowest' (led.key.symm.trans key.symm)
    obtain rfl := Except.ok.inj (Eq.trans (Eq.symm read) read')
    exact ⟨name, led.delegateParent.trans named, rfl⟩
  · rintro ⟨name, named, rfl⟩
    exact ⟨r, m, name, lowest, read, led.key.symm, led.delegateParent.symm.trans named, rfl⟩

theorem Names.exists_chunk (gathered : Gathered rows chunks) {child parent : ChunkKey}
    (names : Names rows child parent) : ∃ c ∈ chunks, c.key = child := by
  obtain ⟨r, -, -, lowest, -, rfl, -⟩ := names
  exact List.mem_map.1 (gathered.keys.symm.subset (mem_chunkKeys.2 ⟨r, lowest.mem, rfl⟩))

/-- All links are found if and only if every name is that of another chunk that is there. -/
theorem parents_succeed_iff (distinct : (rows.map Slice.slot).Nodup)
    (gathered : Gathered rows chunks) : Succeeds (chunks.mapM (parentOf chunks)) ↔
      ∀ child parent, Names rows child parent → parent ∈ chunkKeys rows ∧ parent ≠ child := by
  rw [mapM_succeeds_iff]
  simp only [parentOf_succeeds_iff, gathered.keys.mem_iff]
  constructor
  · intro all child parent names
    obtain ⟨c, mem, rfl⟩ := names.exists_chunk gathered
    obtain ⟨name, named, rfl⟩ := (names_iff distinct gathered mem).1 names
    exact all c mem name named
  · intro all c mem name named
    exact all _ _ ((names_iff distinct gathered mem).2 ⟨name, named, rfl⟩)

section Links

variable (links : chunks.map (parentOf chunks) = parents.map .ok)

include links

theorem placed_at {i : Nat} (here : chunks[i]? = some c) :
    ∃ o, parents[i]? = some o ∧ Placed chunks c o := by
  obtain ⟨bound, same⟩ := List.getElem?_eq_some_iff.1 here
  have bound' : i < parents.length := length_of_map_ok links ▸ bound
  have done := getElem_of_map_ok links bound bound'
  rw [same] at done
  exact ⟨_, List.getElem?_eq_getElem bound', placed_of_ok done⟩

theorem placed_of_link {i p : Nat} (link : Link parents i p) :
    ∃ c, chunks[i]? = some c ∧ Placed chunks c (some p) := by
  have bound : i < chunks.length := length_of_map_ok links ▸ link_lt link
  obtain ⟨o, there, placed⟩ := placed_at links (List.getElem?_eq_getElem bound)
  obtain rfl := Option.some.inj (there.symm.trans link)
  exact ⟨_, List.getElem?_eq_getElem bound, placed⟩

theorem inside_of_links : Inside parents := by
  intro i p link
  obtain ⟨c, -, placed⟩ := placed_of_link links link
  rw [length_of_map_ok links]
  cases placed with
  | named _ here _ => exact (List.getElem?_eq_some_iff.1 here).1
  | owned here _ _ => exact (List.getElem?_eq_some_iff.1 here).1

/-- A link to a chunk that hangs below another one itself was named: owners are ordinary chunks, and
these are roots. -/
theorem names_of_links (distinct : (rows.map Slice.slot).Nodup) (gathered : Gathered rows chunks)
    {i p q : Nat} (link : Link parents i p) (further : Link parents p q) :
    ∃ c a, chunks[i]? = some c ∧ chunks[p]? = some a ∧ Names rows c.key a.key := by
  obtain ⟨c, here, placed⟩ := placed_of_link links link
  obtain ⟨a, above, placed'⟩ := placed_of_link links further
  refine ⟨c, a, here, above, ?_⟩
  cases placed with
  | named own here' key =>
    obtain rfl := Option.some.inj (above.symm.trans here')
    exact (names_iff distinct gathered (List.mem_of_getElem? here)).2 ⟨_, own, key⟩
  | owned here' owns =>
    obtain rfl := Option.some.inj (above.symm.trans here')
    obtain ⟨r, m, -, -, led⟩ := gathered.led a (List.mem_of_getElem? above)
    have delegated : a.isDelegated = true := by
      cases placed' with
      | named own => exact led.delegated_of_named own
      | owned _ owns' => exact owns'.delegated
    exact absurd (owns.ordinary.symm.trans delegated) Bool.false_ne_true

theorem link_of_names (distinct : (rows.map Slice.slot).Nodup) (gathered : Gathered rows chunks)
    {child parent : ChunkKey} (names : Names rows child parent) :
    Link parents (chunks.findIdx (·.key = child)) (chunks.findIdx (·.key = parent)) := by
  have place {i : Nat} {a : WholeChunk} (here : chunks[i]? = some a) :
      chunks.findIdx (·.key = a.key) = i := by
    obtain ⟨bound, same⟩ := List.getElem?_eq_some_iff.1 here
    refine (List.findIdx_eq bound).2 ⟨by simp [same], fun j less => ?_⟩
    have apart := List.pairwise_iff_getElem.1 (List.pairwise_map.1 gathered.apart) j i
      (Nat.lt_trans less bound) bound less
    simpa [← same] using apart
  obtain ⟨c, mem, rfl⟩ := names.exists_chunk gathered
  obtain ⟨i, bound, rfl⟩ := List.getElem_of_mem mem
  have here : chunks[i]? = some chunks[i] := List.getElem?_eq_getElem bound
  obtain ⟨name, named, rfl⟩ := (names_iff distinct gathered mem).1 names
  obtain ⟨o, there, placed⟩ := placed_at links here
  cases placed with
  | named own above key =>
    obtain rfl := Option.some.inj (named.symm.trans own)
    rw [place here, ← key, place above]
    exact there
  | owned _ owns => simp [owns.unnamed] at named
  | free unnamed => simp [unnamed] at named

/-- The links between places have a cycle exactly when the names have one. -/
theorem acyclic_iff_names (distinct : (rows.map Slice.slot).Nodup)
    (gathered : Gathered rows chunks) :
    Acyclic parents ↔ ∀ key, ¬ TransGen (Names rows) key key := by
  constructor
  · intro acyclic key again
    let place (key : ChunkKey) : Nat := chunks.findIdx (·.key = key)
    exact acyclic (place key) (again.lift place fun _ _ => link_of_names links distinct gathered)
  · intro acyclic i again
    let keyAt (i : Nat) : ChunkKey := (chunks[i]?.map WholeChunk.key).getD (0, "")
    have step {i p q : Nat} (link : Link parents i p) (further : Link parents p q) :
        Names rows (keyAt i) (keyAt p) := by
      obtain ⟨c, a, here, above, names⟩ := names_of_links links distinct gathered link further
      simpa [keyAt, here, above] using names
    -- All places of a path that goes on have links, so all its links were named.
    have path {i p : Nat} (above : TransGen (Link parents) i p) :
        ∀ q, Link parents p q → TransGen (Names rows) (keyAt i) (keyAt p) := by
      induction above with
      | single link => exact fun q further => .single (step link further)
      | tail _ link ih => exact fun q further => (ih _ link).tail (step link further)
    obtain ⟨q, further, -⟩ := Relation.TransGen.head'_iff.1 again
    exact acyclic _ (path again q further)

end Links

/-! ### The trees -/

/-- The first owner of a chunk in a forest, in the order of the places in the file. -/
structure FirstOwner (trees : List ChunkTree) (p c : WholeChunk) : Prop where
  mem : p ∈ ChunkTree.forest trees
  owns : Owns p c
  first : ∀ q ∈ ChunkTree.forest trees, Owns q c → p.before q = true

/-- Trees that hold every chunk and every slice once, each chunk where its links put it. -/
structure Assembled (rows : List Slice) (trees : List ChunkTree) : Prop where
  keys : ((ChunkTree.forest trees).map WholeChunk.key).Perm (chunkKeys rows)
  size : ChunkTree.sizes trees = (chunkKeys rows).length
  slices : ((ChunkTree.forest trees).flatMap (·.parts)).Perm rows
  parts : ∀ c ∈ ChunkTree.forest trees, c.parts.Perm (partsOf rows c.key)
  led : ∀ c ∈ ChunkTree.forest trees, ∃ r m, Lowest rows r ∧ r.Records m ∧ c.LedBy r m
  named : ∀ c ∈ ChunkTree.forest trees, ∀ name, c.delegateParent = some name →
    ∃ p, p.key = (c.fileId, name) ∧ (p, c) ∈ ChunkTree.forestLinks trees
  owned : ∀ c ∈ ChunkTree.forest trees, ∀ p, FirstOwner trees p c →
    (p, c) ∈ ChunkTree.forestLinks trees
  top : ∀ c ∈ ChunkTree.forest trees, c.delegateParent = none →
    (∀ p ∈ ChunkTree.forest trees, ¬ Owns p c) → c ∈ trees.map ChunkTree.chunk

theorem before_antisymm {a b : WholeChunk} (ab : a.before b = true) (ba : b.before a = true) :
    a.key = b.key := by
  rw [WholeChunk.before_iff] at ab ba
  have := @String.le_antisymm a.chunkId b.chunkId
  simp only [WholeChunk.key, Prod.mk.injEq]
  grind

/-- The owner that stands first in the list is the only one that is before all others. -/
theorem Gathered.owner_unique (gathered : Gathered rows chunks) {c p a : WholeChunk} {q : Nat}
    (above : chunks[q]? = some a) (first : ∀ b ∈ chunks.take q, ¬ Owns b c) (mem : p ∈ chunks)
    (own : Owns p c) (least : p.before a = true) : p = a := by
  obtain ⟨bound, same⟩ := List.getElem?_eq_some_iff.1 above
  obtain ⟨j, bound', same'⟩ := List.getElem_of_mem mem
  rcases Nat.lt_trichotomy q j with less | rfl | more
  · have sorted := List.pairwise_iff_getElem.1 gathered.sorted q j bound bound' less
    rw [same, same'] at sorted
    exact gathered.eq_of_key mem (List.mem_of_getElem? above) (before_antisymm least sorted)
  · exact same'.symm.trans same
  · have earlier : p ∈ chunks.take q :=
      List.mem_take_iff_getElem.2 ⟨j, Nat.lt_min.2 ⟨more, bound'⟩, same'⟩
    exact absurd own (first p earlier)

theorem assembled_grown (gathered : Gathered rows chunks)
    (links : chunks.map (parentOf chunks) = parents.map .ok) (acyclic : Acyclic parents) :
    Assembled rows (grown chunks parents (chunks.length + 1)) := by
  have length := length_of_map_ok links
  have inside := inside_of_links links
  have all : ChunkTree.sizes (grown chunks parents (chunks.length + 1)) = chunks.length :=
    (sizes_grown_iff length inside (by omega)).2 acyclic
  have perm : (ChunkTree.forest (grown chunks parents (chunks.length + 1))).Perm chunks :=
    forest_perm length rfl all
  have met {i : Nat} (bound : i < chunks.length) : i ∈ places parents (chunks.length + 1) :=
    (mem_places_iff (by omega)).2 (rooted_of_acyclic inside acyclic i (length ▸ bound))
  -- Without a cycle every chunk is reached, and its place in the list tells how it was linked.
  have place {c : WholeChunk} (mem : c ∈ ChunkTree.forest (grown chunks parents (chunks.length + 1))) :
      ∃ i o, i < chunks.length ∧ chunks[i]? = some c ∧ parents[i]? = some o ∧ Placed chunks c o := by
    obtain ⟨i, here⟩ := List.mem_iff_getElem?.1 (perm.subset mem)
    obtain ⟨o, there, placed⟩ := placed_at links here
    exact ⟨i, o, (List.getElem?_eq_some_iff.1 here).1, here, there, placed⟩
  constructor
  case keys => exact (perm.map _).trans gathered.keys
  case size =>
    rw [all, ← gathered.keys.length_eq, List.length_map]
  case slices => exact (perm.flatMap_right _).trans gathered.slices
  case parts => exact fun c mem => gathered.parts c (perm.subset mem)
  case led => exact fun c mem => gathered.led c (perm.subset mem)
  case named =>
    intro c mem name named
    obtain ⟨i, o, bound, here, there, placed⟩ := place mem
    cases placed with
    | named own above key =>
      obtain rfl := Option.some.inj (named.symm.trans own)
      exact ⟨_, key, link_grown length (met bound) there above here⟩
    | owned _ owns => simp [owns.unnamed] at named
    | free unnamed => simp [unnamed] at named
  case owned =>
    intro c mem p own
    obtain ⟨i, o, bound, here, there, placed⟩ := place mem
    cases placed with
    | named named => simp [own.owns.unnamed] at named
    | free _ ownerless => exact absurd own.owns (ownerless p (perm.subset own.mem))
    | @owned q a above owns first =>
      have one : p = a := gathered.owner_unique above first (perm.subset own.mem) own.owns
        (own.first a (perm.symm.subset (List.mem_of_getElem? above)) owns)
      exact one ▸ link_grown length (met bound) there above here
  case top =>
    intro c mem unnamed ownerless
    obtain ⟨i, o, bound, here, there, placed⟩ := place mem
    cases placed with
    | named named => simp [unnamed] at named
    | owned above owns =>
      exact absurd owns (ownerless _ (perm.symm.subset (List.mem_of_getElem? above)))
    | free => exact root_grown there here

/-- The chunks of rows in the order of their places, if all can be made whole. -/
def gather (rows : List Slice) : Except Error (List WholeChunk) :=
  ((groups rows).mapM WholeChunk.ofParts).map (·.mergeSort WholeChunk.before)

theorem gathered_of_gather (done : gather rows = .ok chunks) : Gathered rows chunks := by
  unfold gather at done
  cases made : (groups rows).mapM WholeChunk.ofParts with
  | error e => simp [made, Except.map] at done
  | ok found =>
    simp only [made, Except.map, Except.ok.injEq] at done
    exact done ▸ gathered made

theorem gather_succeeds_iff : Succeeds (gather rows) ↔
    Succeeds ((groups rows).mapM WholeChunk.ofParts) := by
  unfold gather
  cases (groups rows).mapM WholeChunk.ofParts <;> simp [Succeeds, Except.map]

theorem recompose_eq (rows : List Slice) : recompose rows =
    gather rows >>= fun chunks => chunks.mapM (parentOf chunks) >>= fun parents =>
      if ChunkTree.sizes (grown chunks parents (chunks.length + 1)) = chunks.length then
        .ok (grown chunks parents (chunks.length + 1))
      else .error (.integrity "delegate parent links form a cycle") := by
  unfold gather
  cases made : (groups rows).mapM WholeChunk.ofParts with
  | error e => simp only [recompose, made, bind, Except.bind, Except.map]
  | ok found =>
    simp only [recompose, made, bind, Except.bind, Except.map]
    rfl

theorem recompose_ok_iff {trees : List ChunkTree} : recompose rows = .ok trees ↔
    ∃ chunks parents, gather rows = .ok chunks ∧ chunks.map (parentOf chunks) = parents.map .ok ∧
      Acyclic parents ∧ trees = grown chunks parents (chunks.length + 1) := by
  have all_iff {chunks : List WholeChunk} {parents : List (Option Nat)}
      (links : chunks.map (parentOf chunks) = parents.map .ok) :
      ChunkTree.sizes (grown chunks parents (chunks.length + 1)) = chunks.length ↔ Acyclic parents := by
    have length := length_of_map_ok links
    exact sizes_grown_iff length (inside_of_links links) (length ▸ Nat.le_succ _)
  simp only [recompose_eq, bind_ok_iff, mapM_ok_iff]
  constructor
  · rintro ⟨chunks, made, parents, links, done⟩
    split at done
    · rename_i all
      cases done
      exact ⟨chunks, parents, made, links, (all_iff links).1 all, rfl⟩
    · cases done
  · rintro ⟨chunks, parents, made, links, acyclic, rfl⟩
    exact ⟨chunks, made, parents, links, if_pos ((all_iff links).2 acyclic)⟩

theorem recompose_succeeds_iff (distinct : (rows.map Slice.slot).Nodup) :
    Succeeds (recompose rows) ↔ WellLinked rows := by
  constructor
  · rintro ⟨trees, done⟩
    obtain ⟨chunks, parents, made, links, acyclic, -⟩ := recompose_ok_iff.1 done
    have gathered := gathered_of_gather made
    exact ⟨(groups_succeed_iff distinct).1 (gather_succeeds_iff.1 ⟨chunks, made⟩),
      (parents_succeed_iff distinct gathered).1 ⟨parents, mapM_ok_iff.2 links⟩,
      (acyclic_iff_names links distinct gathered).1 acyclic⟩
  · intro linked
    obtain ⟨chunks, made⟩ := gather_succeeds_iff.2 ((groups_succeed_iff distinct).2 linked.readable)
    have gathered := gathered_of_gather made
    obtain ⟨parents, all⟩ := (parents_succeed_iff distinct gathered).2 linked.present
    have links := mapM_ok_iff.1 all
    have acyclic := (acyclic_iff_names links distinct gathered).2 linked.acyclic
    exact ⟨_, recompose_ok_iff.2 ⟨chunks, parents, made, links, acyclic, rfl⟩⟩

theorem assembled_of_recompose {trees : List ChunkTree} (done : recompose rows = .ok trees) :
    Assembled rows trees := by
  obtain ⟨chunks, parents, made, links, acyclic, rfl⟩ := recompose_ok_iff.1 done
  exact assembled_grown (gathered_of_gather made) links acyclic

/-- Slices with different places are put together exactly when their chunks are well linked, and then
to trees that lose nothing; otherwise there is an error and no tree. -/
theorem recompose_exact (distinct : (rows.map Slice.slot).Nodup) :
    (WellLinked rows → ∃ trees, recompose rows = .ok trees ∧ Assembled rows trees) ∧
      (¬ WellLinked rows → ∃ e, recompose rows = .error e) := by
  constructor
  · intro linked
    obtain ⟨trees, done⟩ := (recompose_succeeds_iff distinct).2 linked
    exact ⟨trees, done, assembled_of_recompose done⟩
  · intro unlinked
    cases done : recompose rows with
    | ok trees => exact absurd ((recompose_succeeds_iff distinct).1 ⟨trees, done⟩) unlinked
    | error e => exact ⟨e, rfl⟩

/-! ### A page with a style -/

/-- A part of a chunk of one file. -/
def pageRow (id : Int) (chunkId : String) (partIndex : Int) (m : Metadata) : Slice where
  id
  batchId := "b1"
  content := {
    fileId := 1, chunkId, partIndex, handlerName := "html", handlerVersion := "1"
    metadataJson := if m.isEmpty then none else some m.canonical }
  createdAt := .epoch
  updatedAt := .epoch
  firstSeen := "b1"
  lastSeen := "b1"

def styleMetadata : Metadata := Metadata.empty.putStr "delegate_parent_chunk" "page"

def pageRows : List Slice := [
  pageRow 1 "page" 0 Metadata.empty,
  pageRow 2 "page" 1 Metadata.empty,
  pageRow 3 "style" 0 styleMetadata]

theorem records_pageRow {id : Int} {chunkId : String} {partIndex : Int} {m : Metadata}
    (small : m.Fits) : (pageRow id chunkId partIndex m).Records m :=
  WholeChunk.metadataOf_written small

theorem names_pageRows {child parent : ChunkKey} (names : Names pageRows child parent) :
    child = (1, "style") ∧ parent = (1, "page") := by
  obtain ⟨r, m, name, lowest, read, rfl, named, rfl⟩ := names
  have small : styleMetadata.Fits := Metadata.fits_putStr Metadata.fits_empty _ _
  have mem := lowest.mem
  simp only [pageRows, List.mem_cons, List.not_mem_nil, or_false] at mem
  rcases mem with rfl | rfl | rfl
  · obtain rfl := Except.ok.inj (read.symm.trans (records_pageRow Metadata.fits_empty))
    cases named
  · obtain rfl := Except.ok.inj (read.symm.trans (records_pageRow Metadata.fits_empty))
    cases named
  · obtain rfl := Except.ok.inj (read.symm.trans (records_pageRow small))
    obtain rfl : "page" = name := Option.some.inj named
    exact ⟨rfl, rfl⟩

theorem wellLinked_pageRows : WellLinked pageRows where
  readable := by
    intro r lowest
    have small : styleMetadata.Fits := Metadata.fits_putStr Metadata.fits_empty _ _
    have mem := lowest.mem
    simp only [pageRows, List.mem_cons, List.not_mem_nil, or_false] at mem
    rcases mem with rfl | rfl | rfl
    · exact ⟨_, records_pageRow Metadata.fits_empty⟩
    · exact ⟨_, records_pageRow Metadata.fits_empty⟩
    · exact ⟨_, records_pageRow small⟩
  present := by
    intro child parent names
    obtain ⟨rfl, rfl⟩ := names_pageRows names
    exact ⟨mem_chunkKeys.2 ⟨_, List.mem_cons_self, rfl⟩, by decide⟩
  acyclic := by
    intro key again
    obtain ⟨next, names, -⟩ := Relation.TransGen.head'_iff.1 again
    obtain ⟨last, -, names'⟩ := Relation.TransGen.tail'_iff.1 again
    have style := (names_pageRows names).1
    rw [(names_pageRows names').2] at style
    exact absurd style (by decide)

theorem page_with_style_recomposes :
    ∃ trees, recompose pageRows = .ok trees ∧ Assembled pageRows trees :=
  (recompose_exact (by decide)).1 wellLinked_pageRows

end Recomposition

end SourceSlices
