import Mathlib.Data.List.Perm.Basic
import Mathlib.Data.Set.List
import SourceSlices.Chunk.Groups

/-!
Grouping of parts. A list of chunks that is accepted falls apart into groups with different ids, and
the parts of a group are numbered by their places in it.
-/
namespace SourceSlices

/-! ### Steps that may fail -/

theorem bind_ok_iff {ε α β : Type} {x : Except ε α} {f : α → Except ε β} {b : β} :
    x >>= f = .ok b ↔ ∃ a, x = .ok a ∧ f a = .ok b := by
  cases x with
  | error e => simp [bind, Except.bind]
  | ok a => simp [bind, Except.bind]

theorem mapError_ok_iff {ε ε' α : Type} {x : Except ε α} {f : ε → ε'} {a : α} :
    x.mapError f = .ok a ↔ x = .ok a := by
  cases x <;> simp [Except.mapError]

theorem mapM_ok_iff {ε α β : Type} {f : α → Except ε β} {l : List α} {r : List β} :
    l.mapM f = .ok r ↔ l.map f = r.map .ok := by
  induction l generalizing r with
  | nil => cases r <;> simp [pure, Except.pure]
  | cons a rest ih =>
    simp only [List.mapM_cons, bind_ok_iff, ih, pure, Except.pure, Except.ok.injEq, List.map_cons]
    constructor
    · rintro ⟨b, hb, bs, hbs, rfl⟩
      simp [hb, hbs]
    · intro h
      cases r with
      | nil => simp at h
      | cons b bs =>
        simp only [List.map_cons, List.cons.injEq] at h
        exact ⟨b, h.1, bs, h.2, rfl⟩

/-- If a step fails, it is for one of the elements. -/
theorem exists_of_mapM_error {ε α β : Type} {f : α → Except ε β} {l : List α} {e : ε}
    (failed : l.mapM f = .error e) : ∃ a ∈ l, f a = .error e := by
  induction l with
  | nil => cases failed
  | cons a rest ih =>
    rw [List.mapM_cons] at failed
    cases own : f a with
    | error e' =>
      rw [own] at failed
      cases failed
      exact ⟨a, List.mem_cons_self, own⟩
    | ok b =>
      cases others : rest.mapM f with
      | error e' =>
        rw [own, others] at failed
        cases failed
        obtain ⟨c, mem, fault⟩ := ih others
        exact ⟨c, List.mem_cons_of_mem _ mem, fault⟩
      | ok bs =>
        rw [own, others] at failed
        cases failed

theorem exists_of_all_made {α β : Type} {f : α → β} {l : List β} (all : ∀ b ∈ l, ∃ a, f a = b) :
    ∃ r : List α, r.map f = l := by
  have made : l ∈ Set.range (List.map f) := by
    rw [Set.range_list_map]
    exact all
  exact made

/-- A step that gives a result. -/
def Succeeds {ε α : Type} (x : Except ε α) : Prop := ∃ a, x = .ok a

theorem mapM_succeeds_iff {ε α β : Type} {f : α → Except ε β} {l : List α} :
    Succeeds (l.mapM f) ↔ ∀ a ∈ l, Succeeds (f a) := by
  constructor
  · rintro ⟨r, done⟩ a mem
    have made : f a ∈ r.map Except.ok := mapM_ok_iff.1 done ▸ List.mem_map_of_mem mem
    obtain ⟨b, -, same⟩ := List.mem_map.1 made
    exact ⟨b, same.symm⟩
  · intro all
    have made : ∀ x ∈ l.map f, ∃ b, Except.ok b = x := by
      intro x mem
      obtain ⟨a, there, rfl⟩ := List.mem_map.1 mem
      obtain ⟨b, same⟩ := all a there
      exact ⟨b, same.symm⟩
    obtain ⟨r, same⟩ := exists_of_all_made made
    exact ⟨r, mapM_ok_iff.2 same.symm⟩

theorem length_of_map_ok {ε α β : Type} {f : α → Except ε β} {l : List α} {r : List β}
    (all : l.map f = r.map .ok) : r.length = l.length := by
  simpa using (congrArg List.length all).symm

theorem getElem_of_map_ok {ε α β : Type} {f : α → Except ε β} {l : List α} {r : List β}
    (all : l.map f = r.map .ok) {i : Nat} (hl : i < l.length) (hr : i < r.length) :
    f l[i] = .ok r[i] := by
  have at_i := congrArg (·[i]?) all
  simpa [hl, hr] using at_i

theorem nodup_eraseDups {α : Type} [BEq α] [LawfulBEq α] (l : List α) : l.eraseDups.Nodup := by
  induction h : l.length using Nat.strongRecOn generalizing l with
  | ind n ih =>
    cases l with
    | nil => simp
    | cons a rest =>
      have shorter : (rest.filter fun b => !b == a).length < n := by
        have := List.length_filter_le (fun b => !b == a) rest
        simp only [List.length_cons] at h
        omega
      rw [List.eraseDups_cons, List.nodup_cons]
      exact ⟨by simp, ih _ shorter _ rfl⟩

theorem eraseDups_map {α β : Type} [BEq α] [LawfulBEq α] [BEq β] [LawfulBEq β] {f : α → β}
    (injective : Function.Injective f) (l : List α) : (l.map f).eraseDups = l.eraseDups.map f := by
  induction h : l.length using Nat.strongRecOn generalizing l with
  | ind n ih =>
    cases l with
    | nil => simp
    | cons a rest =>
      have shorter : (rest.filter fun b => !b == a).length < n := by
        have := List.length_filter_le (fun b => !b == a) rest
        simp only [List.length_cons] at h
        omega
      have kept : (rest.map f).filter (fun b => !b == f a) = (rest.filter fun b => !b == a).map f := by
        rw [List.filter_map]
        congr 1
        apply List.filter_congr
        intro b _
        have same : f b = f a ↔ b = a := injective.eq_iff
        rw [Bool.eq_iff_iff]
        simp [same]
      rw [List.map_cons, List.eraseDups_cons, List.eraseDups_cons, List.map_cons, kept,
        ih _ shorter _ rfl]

/-- A list falls apart into its members under each of their keys. -/
theorem flatMap_filter_perm {α κ : Type} [DecidableEq κ] (key : α → κ) {keys : List κ}
    (distinct : keys.Nodup) {l : List α} (all : ∀ a ∈ l, key a ∈ keys) :
    (keys.flatMap fun k => l.filter fun a => key a = k).Perm l := by
  induction keys generalizing l with
  | nil =>
    rw [List.eq_nil_iff_forall_not_mem.2 fun a mem => List.not_mem_nil (all a mem)]
    exact List.Perm.refl _
  | cons k rest ih =>
    obtain ⟨apart, distinct'⟩ := List.nodup_cons.1 distinct
    have others : (rest.flatMap fun k' => l.filter fun a => key a = k') =
        rest.flatMap fun k' => (l.filter fun a => key a ≠ k).filter fun a => key a = k' := by
      refine List.flatMap_congr fun k' mem => ?_
      rw [List.filter_filter]
      refine List.filter_congr fun a _ => ?_
      by_cases same : key a = k'
      · have different : key a ≠ k := fun own => apart (own ▸ same ▸ mem)
        simp [same, same ▸ different]
      · simp [same]
    have inner := ih (l := l.filter fun a => key a ≠ k) distinct' fun a mem => by
      obtain ⟨there, different⟩ := List.mem_filter.1 mem
      exact (List.mem_cons.1 (all a there)).resolve_left (of_decide_eq_true different)
    rw [List.flatMap_cons, others]
    refine (inner.append_left _).trans ?_
    have split := List.filter_append_perm (fun a => decide (key a = k)) l
    simpa only [decide_not, ne_eq] using split

namespace ChunkGroup

theorem nodup_idsOf (chunks : List Chunk) : (idsOf chunks).Nodup := nodup_eraseDups _

theorem mem_idsOf {chunks : List Chunk} {id : String} :
    id ∈ idsOf chunks ↔ ∃ p ∈ chunks, p.chunkId = id := by
  simp [idsOf]

theorem mem_partsOf {chunks : List Chunk} {id : String} {p : Chunk} :
    p ∈ partsOf chunks id ↔ p ∈ chunks ∧ p.chunkId = id := by
  simp [partsOf]

/-- Complete: the parts are numbered without gap and agree on how many they are. -/
structure Complete (g : ChunkGroup) : Prop where
  numbered : g.parts.map (·.partIndex) = List.range g.parts.length
  totals : ∀ p ∈ g.parts, ∀ t, p.metadata.int? "part_total" = some t → t = (g.parts.length : Int)

theorem ascending_of_complete {g : ChunkGroup} (whole : g.Complete) :
    g.parts.Pairwise (·.partIndex < ·.partIndex) := by
  refine List.pairwise_map.1 (?_ : (g.parts.map (·.partIndex)).Pairwise (· < ·))
  rw [whole.numbered]
  exact List.pairwise_lt_range

theorem complete_iff {g : ChunkGroup} :
    g.Complete ↔ g.isContiguous = true ∧ g.hasItsTotal = true := by
  have contiguous : g.isContiguous = true ↔
      g.parts.map (·.partIndex) = List.range g.parts.length := by simp [isContiguous]
  have totals : g.hasItsTotal = true ↔ ∀ p ∈ g.parts, ∀ t,
      p.metadata.int? "part_total" = some t → t = (g.parts.length : Int) := by
    simp only [hasItsTotal, List.all_eq_true, Option.all_eq_true, decide_eq_true_eq]
  rw [contiguous, totals]
  exact ⟨fun whole => ⟨whole.numbered, whole.totals⟩, fun both => ⟨both.1, both.2⟩⟩

instance (g : ChunkGroup) : Decidable g.Complete := decidable_of_iff _ complete_iff.symm

theorem check_ok_iff {g h : ChunkGroup} : check g = .ok h ↔ h = g ∧ g.Complete := by
  rw [complete_iff, check]
  cases g.isContiguous
  · simp
  · cases g.hasItsTotal
    · simp
    · simp [eq_comm]

/-- The groups of a list in the order of their first parts. -/
def all (chunks : List Chunk) : List ChunkGroup :=
  (idsOf chunks).map fun id => ⟨id, partsOf chunks id⟩

theorem ofChunks_ok_iff {chunks : List Chunk} {groups : List ChunkGroup} :
    ofChunks chunks = .ok groups ↔ groups = all chunks ∧ ∀ g ∈ all chunks, g.Complete := by
  simp only [ofChunks, mapM_ok_iff, all]
  generalize idsOf chunks = ids
  induction ids generalizing groups with
  | nil => simp [eq_comm]
  | cons id rest ih =>
    cases groups with
    | nil => simp
    | cons g groups =>
      simp only [List.map_cons, List.cons.injEq, check_ok_iff, ih, List.forall_mem_cons]
      constructor
      · rintro ⟨⟨rfl, whole⟩, rfl, others⟩
        exact ⟨⟨rfl, rfl⟩, whole, others⟩
      · rintro ⟨⟨rfl, rfl⟩, whole, others⟩
        exact ⟨⟨rfl, whole⟩, rfl, others⟩

/-- Parts that are complete in the order of the list are not moved. -/
theorem partsOf_eq {chunks parts : List Chunk} {id : String}
    (same : chunks.filter (·.chunkId = id) = parts) (whole : Complete ⟨id, parts⟩) :
    partsOf chunks id = parts := by
  rw [partsOf, same]
  exact List.mergeSort_of_pairwise ((ascending_of_complete whole).imp
    fun less => decide_eq_true (Nat.le_of_lt less))

theorem ofChunks_of_filter {chunks : List Chunk}
    (whole : ∀ id ∈ idsOf chunks, Complete ⟨id, chunks.filter (·.chunkId = id)⟩) :
    ofChunks chunks = .ok ((idsOf chunks).map fun id => ⟨id, chunks.filter (·.chunkId = id)⟩) := by
  have groups : all chunks = (idsOf chunks).map fun id => ⟨id, chunks.filter (·.chunkId = id)⟩ := by
    apply List.map_congr_left
    intro id mem
    rw [partsOf_eq rfl (whole id mem)]
  apply ofChunks_ok_iff.2
  refine ⟨groups.symm, ?_⟩
  intro g mem
  rw [groups] at mem
  obtain ⟨id, there, rfl⟩ := List.mem_map.1 mem
  exact whole id there

theorem mem_all {chunks : List Chunk} {g : ChunkGroup} (mem : g ∈ all chunks) :
    g.chunkId ∈ idsOf chunks ∧ g.parts = partsOf chunks g.chunkId := by
  obtain ⟨id, there, rfl⟩ := List.mem_map.1 mem
  exact ⟨there, rfl⟩

theorem parts_ne_nil {chunks : List Chunk} {g : ChunkGroup} (mem : g ∈ all chunks) : g.parts ≠ [] := by
  obtain ⟨there, same⟩ := mem_all mem
  obtain ⟨p, part, here⟩ := mem_idsOf.1 there
  rw [same]
  exact List.ne_nil_of_mem (mem_partsOf.2 ⟨part, here⟩)

theorem eq_of_same_id {chunks : List Chunk} {g h : ChunkGroup} (hg : g ∈ all chunks)
    (hh : h ∈ all chunks) (same : g.chunkId = h.chunkId) : g = h := by
  obtain ⟨id, -, rfl⟩ := List.mem_map.1 hg
  obtain ⟨id', -, rfl⟩ := List.mem_map.1 hh
  have ids : id = id' := same
  rw [ids]

/-- The group that a part belongs to. -/
def ofPart (chunks : List Chunk) (p : Chunk) : ChunkGroup := ⟨p.chunkId, partsOf chunks p.chunkId⟩

theorem ofPart_mem {chunks : List Chunk} {p : Chunk} (mem : p ∈ chunks) :
    ofPart chunks p ∈ all chunks ∧ p ∈ (ofPart chunks p).parts :=
  ⟨List.mem_map.2 ⟨p.chunkId, mem_idsOf.2 ⟨p, mem, rfl⟩, rfl⟩, mem_partsOf.2 ⟨mem, rfl⟩⟩

theorem forall_parts_iff {chunks : List Chunk} {P : Chunk → Prop} :
    (∀ g ∈ all chunks, ∀ p ∈ g.parts, P p) ↔ ∀ p ∈ chunks, P p := by
  constructor
  · intro grouped p mem
    obtain ⟨group, part⟩ := ofPart_mem mem
    exact grouped _ group p part
  · intro each g mem p part
    rw [(mem_all mem).2] at part
    exact each p (mem_partsOf.1 part).1

theorem parts_perm (chunks : List Chunk) : ((all chunks).flatMap (·.parts)).Perm chunks := by
  have sorted : ((idsOf chunks).flatMap fun id => partsOf chunks id).Perm
      ((idsOf chunks).flatMap fun id => chunks.filter fun p => p.chunkId = id) :=
    .flatMap_left _ fun id _ => List.mergeSort_perm _ _
  rw [all, List.flatMap_map]
  exact sorted.trans (flatMap_filter_perm (·.chunkId) (nodup_idsOf chunks) fun p mem =>
    mem_idsOf.2 ⟨p, mem, rfl⟩)

theorem nodup_all_ids (chunks : List Chunk) : ((all chunks).map (·.chunkId)).Nodup := by
  have same : (all chunks).map (·.chunkId) = idsOf chunks := by
    simp [all, Function.comp_def]
  exact same ▸ nodup_idsOf chunks

theorem partIndex_getElem {g : ChunkGroup} (whole : g.Complete) {i : Nat}
    (bound : i < g.parts.length) : g.parts[i].partIndex = i := by
  have at_i := congrArg (·[i]?) whole.numbered
  simpa [bound] using at_i

/-! ### Chunks before and after others -/

theorem idsOf_append {parts others : List Chunk} {id : String} (some : parts ≠ [])
    (own : ∀ p ∈ parts, p.chunkId = id) (foreign : ∀ p ∈ others, p.chunkId ≠ id) :
    idsOf (parts ++ others) = id :: idsOf others := by
  obtain ⟨first, rest, rfl⟩ := List.exists_cons_of_ne_nil some
  obtain ⟨rfl, same⟩ := List.forall_mem_cons.1 own
  have none : rest.filter ((fun b => !b == first.chunkId) ∘ (·.chunkId)) = [] := by
    apply List.filter_eq_nil_iff.2
    intro p mem
    simp [same p mem]
  have all : others.filter ((fun b => !b == first.chunkId) ∘ (·.chunkId)) = others := by
    apply List.filter_eq_self.2
    intro p mem
    simp [foreign p mem]
  rw [idsOf, List.cons_append, List.map_cons, List.eraseDups_cons, List.filter_map,
    List.filter_append, none, all, List.nil_append, idsOf]

/-- Sources with ids of their own keep their order. -/
theorem idsOf_flatMap {β : Type} {sources : List β} {key : β → String} {parts : β → List Chunk}
    (distinct : (sources.map key).Nodup) (some : ∀ a ∈ sources, parts a ≠ [])
    (own : ∀ a ∈ sources, ∀ p ∈ parts a, p.chunkId = key a) :
    idsOf (sources.flatMap parts) = sources.map key := by
  induction sources with
  | nil => rfl
  | cons a rest ih =>
    rw [List.map_cons, List.nodup_cons] at distinct
    obtain ⟨mine, others⟩ := List.forall_mem_cons.1 own
    have foreign : ∀ p ∈ rest.flatMap parts, p.chunkId ≠ key a := by
      intro p mem same
      obtain ⟨b, there, part⟩ := List.mem_flatMap.1 mem
      apply distinct.1
      rw [← same, others b there p part]
      exact List.mem_map_of_mem there
    rw [List.flatMap_cons, idsOf_append (some a List.mem_cons_self) mine foreign, List.map_cons,
      ih distinct.2 (fun b mem => some b (List.mem_cons_of_mem a mem)) others]

/-- A complete chunk before chunks of other ids is the first of the groups. -/
theorem all_append {parts others : List Chunk} {id : String} (some : parts ≠ [])
    (own : ∀ p ∈ parts, p.chunkId = id) (foreign : ∀ p ∈ others, p.chunkId ≠ id)
    (whole : Complete ⟨id, parts⟩) : all (parts ++ others) = ⟨id, parts⟩ :: all others := by
  have mine : partsOf (parts ++ others) id = parts := by
    have inside : parts.filter (·.chunkId = id) = parts :=
      List.filter_eq_self.2 fun p mem => decide_eq_true (own p mem)
    have outside : others.filter (·.chunkId = id) = [] :=
      List.filter_eq_nil_iff.2 fun p mem same => foreign p mem (of_decide_eq_true same)
    apply partsOf_eq _ whole
    rw [List.filter_append, inside, outside, List.append_nil]
  have theirs {id' : String} (mem : id' ∈ idsOf others) :
      partsOf (parts ++ others) id' = partsOf others id' := by
    obtain ⟨p, there, rfl⟩ := mem_idsOf.1 mem
    have outside : parts.filter (·.chunkId = p.chunkId) = [] := by
      apply List.filter_eq_nil_iff.2
      intro p' mem' same
      exact foreign p there ((of_decide_eq_true same).symm.trans (own p' mem'))
    rw [partsOf, List.filter_append, outside, List.nil_append, partsOf]
  rw [all, idsOf_append some own foreign, List.map_cons, mine, all]
  congr 1
  apply List.map_congr_left
  intro id' mem
  rw [theirs mem]

/-- Chunks that are changed, but not in their indices, and that get other ids fall into the same groups. -/
theorem all_map {f : Chunk → Chunk} {rename : String → String} (injective : Function.Injective rename)
    (renamed : ∀ p, (f p).chunkId = rename p.chunkId) (index : ∀ p, (f p).partIndex = p.partIndex)
    (chunks : List Chunk) :
    all (chunks.map f) = (all chunks).map fun g => ⟨rename g.chunkId, g.parts.map f⟩ := by
  have ids : idsOf (chunks.map f) = (idsOf chunks).map rename := by
    rw [idsOf, idsOf, ← eraseDups_map injective, List.map_map, List.map_map]
    congr 1
    exact List.map_congr_left fun p _ => renamed p
  have parts (id : String) : partsOf (chunks.map f) (rename id) = (partsOf chunks id).map f := by
    have kept : (chunks.map f).filter (·.chunkId = rename id) = (chunks.filter (·.chunkId = id)).map f := by
      rw [List.filter_map]
      congr 1
      apply List.filter_congr
      intro p _
      simp [renamed, injective.eq_iff]
    rw [partsOf, partsOf, kept, ← List.map_mergeSort]
    intro a _ b _
    rw [index, index]
  rw [all, all, ids, List.map_map, List.map_map]
  apply List.map_congr_left
  intro id _
  simp [parts]

/-! ### Chunks of several sources -/

/-- Chunks that sources make under ids of their own, each complete. -/
structure Family {β : Type} (sources : List β) (key : β → String) (parts : β → List Chunk) : Prop where
  apart : sources.Pairwise fun a b => key a ≠ key b
  own : ∀ a ∈ sources, ∀ p ∈ parts a, p.chunkId = key a
  some : ∀ a ∈ sources, parts a ≠ []
  complete : ∀ a ∈ sources, Complete ⟨key a, parts a⟩

variable {β : Type} {sources : List β} {key : β → String} {parts : β → List Chunk}

theorem filter_family (family : Family sources key parts) {a : β} (mem : a ∈ sources) :
    (sources.flatMap parts).filter (·.chunkId = key a) = parts a := by
  rw [List.filter_flatMap]
  obtain ⟨apart, own, -, -⟩ := family
  have mine : (parts a).filter (·.chunkId = key a) = parts a :=
    List.filter_eq_self.2 fun p inside => decide_eq_true (own a mem p inside)
  have foreign (b : β) (there : b ∈ sources) (other : key b ≠ key a) :
      (parts b).filter (·.chunkId = key a) = [] :=
    List.filter_eq_nil_iff.2 fun p inside same => other (own b there p inside ▸ of_decide_eq_true same)
  obtain ⟨before, after, rfl⟩ := List.append_of_mem mem
  obtain ⟨-, later, cross⟩ := List.pairwise_append.1 apart
  have none_before : before.flatMap (fun b => (parts b).filter (·.chunkId = key a)) = [] :=
    List.flatMap_eq_nil_iff.2 fun b there =>
      foreign b (List.mem_append_left _ there) (cross b there a List.mem_cons_self)
  have none_after : after.flatMap (fun b => (parts b).filter (·.chunkId = key a)) = [] :=
    List.flatMap_eq_nil_iff.2 fun b there =>
      foreign b (List.mem_append_right _ (List.mem_cons_of_mem _ there))
        ((List.pairwise_cons.1 later).1 b there).symm
  rw [List.flatMap_append, List.flatMap_cons, none_before, none_after, mine]
  simp

theorem partsOf_family (family : Family sources key parts) {a : β} (mem : a ∈ sources) :
    partsOf (sources.flatMap parts) (key a) = parts a :=
  partsOf_eq (filter_family family mem) (family.complete a mem)

theorem idsOf_family (family : Family sources key parts) :
    (idsOf (sources.flatMap parts)).Perm (sources.map key) := by
  refine (List.perm_ext_iff_of_nodup (nodup_idsOf _) (List.pairwise_map.2 family.apart)).2 fun id => ?_
  simp only [mem_idsOf, List.mem_flatMap, List.mem_map]
  constructor
  · rintro ⟨p, ⟨a, there, inside⟩, rfl⟩
    exact ⟨a, there, (family.own a there p inside).symm⟩
  · rintro ⟨a, there, rfl⟩
    obtain ⟨p, inside⟩ := List.exists_mem_of_ne_nil _ (family.some a there)
    exact ⟨p, ⟨a, there, inside⟩, family.own a there p inside⟩

theorem all_family (family : Family sources key parts) {g : ChunkGroup}
    (mem : g ∈ all (sources.flatMap parts)) : ∃ a ∈ sources, g = ⟨key a, parts a⟩ := by
  obtain ⟨id, there, rfl⟩ := List.mem_map.1 mem
  obtain ⟨a, source, rfl⟩ := List.mem_map.1 ((idsOf_family family).subset there)
  exact ⟨a, source, by rw [partsOf_family family source]⟩

theorem complete_family (family : Family sources key parts) {g : ChunkGroup}
    (mem : g ∈ all (sources.flatMap parts)) : g.Complete := by
  obtain ⟨a, source, rfl⟩ := all_family family mem
  exact family.complete a source

end ChunkGroup

end SourceSlices
