import SourceSlices.Proofs.Slots

/-!
What a batch shows, by slots: the newest of the rows that it has written or confirmed. The rows it
shows of a file are in the strict order of their slots, so they are known by their slots alone.
-/
namespace SourceSlices

/-- The newest row seen in a batch. -/
def shownAmong (batch : String) (rows : List Slice) : Option Slice :=
  (rows.filter (·.isSeenIn batch)).getLast?

/-- Order by chunk and part, without repetition. -/
def SliceContent.Before (a b : SliceContent) : Prop :=
  a.chunkId < b.chunkId ∨ a.chunkId = b.chunkId ∧ a.partIndex < b.partIndex

theorem before_asymm {a b : SliceContent} (ab : a.Before b) (ba : b.Before a) : False := by
  unfold SliceContent.Before at ab ba
  rcases ab with ab | ⟨ab, less⟩ <;> rcases ba with ba | ⟨ba, less'⟩
  · exact String.lt_irrefl _ (String.lt_trans ab ba)
  · exact String.lt_irrefl _ (ba ▸ ab)
  · exact String.lt_irrefl _ (ab ▸ ba)
  · omega

theorem byChunk_iff {a b : Slice} :
    Store.byChunk a b ↔ a.content.Before b.content ∨
      a.content.chunkId = b.content.chunkId ∧ a.content.partIndex = b.content.partIndex := by
  simp only [Store.byChunk, SliceContent.Before, Bool.or_eq_true, Bool.and_eq_true,
    decide_eq_true_eq]
  constructor
  · rintro (less | ⟨same, le⟩)
    · exact Or.inl (Or.inl less)
    · rcases Int.lt_or_eq_of_le le with less | eq
      · exact Or.inl (Or.inr ⟨same, less⟩)
      · exact Or.inr ⟨same, eq⟩
  · rintro ((less | ⟨same, less⟩) | ⟨same, eq⟩)
    · exact Or.inl less
    · exact Or.inr ⟨same, Int.le_of_lt less⟩
    · exact Or.inr ⟨same, Int.le_of_eq eq⟩

theorem byChunk_trans (a b c : Slice) (ab : Store.byChunk a b) (bc : Store.byChunk b c) :
    Store.byChunk a c := by
  simp only [Store.byChunk, Bool.or_eq_true, Bool.and_eq_true, decide_eq_true_eq] at *
  rcases ab with ab | ⟨ab, le⟩ <;> rcases bc with bc | ⟨bc, le'⟩
  · exact Or.inl (String.lt_trans ab bc)
  · exact Or.inl (bc ▸ ab)
  · exact Or.inl (ab ▸ bc)
  · exact Or.inr ⟨ab.trans bc, Int.le_trans le le'⟩

theorem byChunk_total (a b : Slice) : Store.byChunk a b || Store.byChunk b a := by
  simp only [Store.byChunk, Bool.or_eq_true, Bool.and_eq_true, decide_eq_true_eq]
  rcases Std.lt_trichotomy a.content.chunkId b.content.chunkId with less | same | more
  · exact Or.inl (Or.inl less)
  · rcases Int.le_total a.content.partIndex b.content.partIndex with le | ge
    · exact Or.inl (Or.inr ⟨same, le⟩)
    · exact Or.inr (Or.inr ⟨same.symm, ge⟩)
  · exact Or.inr (Or.inl more)

theorem eq_of_same_members {α : Type} (content : α → SliceContent) {l m : List α}
    (hl : l.Pairwise fun a b => (content a).Before (content b))
    (hm : m.Pairwise fun a b => (content a).Before (content b)) (same : ∀ c, c ∈ l ↔ c ∈ m) :
    l = m := by
  have apart {a b : α} (before : (content a).Before (content b)) : a ≠ b :=
    fun eq => before_asymm before (eq ▸ before)
  have perm := (List.perm_ext_iff_of_nodup (hl.imp apart) (hm.imp apart)).2 same
  exact perm.eq_of_pairwise (fun _ _ _ _ ab ba => (before_asymm ab ba).elim) hl hm

namespace Store

/-- The row that a batch shows of a slot. -/
def shown? (s : Store) (batch : String) (x : Slot) : Option Slice := shownAmong batch (s.rowsAt x)

theorem mem_of_shownAmong {batch : String} {rows : List Slice} {r : Slice}
    (shown : shownAmong batch rows = some r) : r ∈ rows ∧ r.isSeenIn batch := by
  have mem := List.mem_of_getLast? shown
  exact ⟨(List.mem_filter.1 mem).1, (List.mem_filter.1 mem).2⟩

theorem shown_spec {s : Store} {batch : String} {x : Slot} {r : Slice}
    (shown : s.shown? batch x = some r) : r ∈ s.slices ∧ r.slot = x ∧ r.isSeenIn batch := by
  obtain ⟨mem, seen⟩ := mem_of_shownAmong shown
  exact ⟨(mem_rowsAt.1 mem).1, (mem_rowsAt.1 mem).2, seen⟩

/-- In a list that ascends, the last element is the one that none exceeds. -/
theorem getLast_iff_greatest {rows : List Slice} (ascending : rows.Pairwise (·.id < ·.id))
    {r : Slice} : rows.getLast? = some r ↔ r ∈ rows ∧ ∀ v ∈ rows, v.id ≤ r.id := by
  rcases List.eq_nil_or_concat rows with rfl | ⟨init, last, rfl⟩
  · simp
  · rw [List.concat_eq_append] at ascending ⊢
    have greatest (v : Slice) (mem : v ∈ init) : v.id < last.id :=
      (List.pairwise_append.1 ascending).2.2 v mem last (List.mem_singleton.2 rfl)
    simp only [List.getLast?_append, List.getLast?_singleton, Option.some_or,
      Option.some.injEq, List.mem_append, List.mem_singleton]
    constructor
    · rintro rfl
      refine ⟨Or.inr rfl, fun v mem => ?_⟩
      rcases mem with old | rfl
      · exact Int.le_of_lt (greatest v old)
      · exact Int.le_refl _
    · rintro ⟨old | same, above⟩
      · have := greatest r old
        have := above last (Or.inr rfl)
        omega
      · exact same.symm

theorem mem_visibleIn {s : Store} (sound : s.Sound) {batch : String} {r : Slice} :
    r ∈ s.visibleIn batch ↔ s.shown? batch r.slot = some r := by
  have ascending := (rowsAt_ascending sound r.slot).filter (·.isSeenIn batch)
  unfold shown? shownAmong
  rw [getLast_iff_greatest ascending]
  simp only [visibleIn, isNewestIn, List.mem_filter, Bool.and_eq_true, List.all_eq_true,
    Bool.or_eq_true, Bool.not_eq_true', Bool.and_eq_false_iff, decide_eq_true_eq,
    decide_eq_false_iff_not, mem_rowsAt]
  constructor
  · rintro ⟨mem, seen, newest⟩
    refine ⟨⟨⟨mem, trivial⟩, seen⟩, ?_⟩
    rintro v ⟨⟨vmem, here⟩, vseen⟩
    rcases newest v vmem with (unseen | elsewhere) | le
    · simp_all
    · exact absurd here elsewhere
    · exact le
  · rintro ⟨⟨⟨mem, -⟩, seen⟩, newest⟩
    refine ⟨mem, seen, fun v vmem => ?_⟩
    by_cases vseen : v.isSeenIn batch
    · by_cases here : v.slot = r.slot
      · exact Or.inr (newest v ⟨⟨vmem, here⟩, vseen⟩)
      · exact Or.inl (Or.inr here)
    · exact Or.inl (Or.inl (by simpa using vseen))

theorem mem_fileSlices {s : Store} (sound : s.Sound) {batch : String} {fileId : Int} {r : Slice} :
    r ∈ s.fileSlices batch fileId ↔ s.shown? batch r.slot = some r ∧ r.content.fileId = fileId := by
  simp only [fileSlices, List.mem_mergeSort, List.mem_filter, decide_eq_true_eq,
    mem_visibleIn sound]

theorem fileSlices_ordered {s : Store} (sound : s.Sound) (batch : String) (fileId : Int) :
    ((s.fileSlices batch fileId).map (·.content)).Pairwise SliceContent.Before := by
  have sorted : (s.fileSlices batch fileId).Pairwise (Store.byChunk · ·) :=
    List.pairwise_mergeSort byChunk_trans byChunk_total _
  have distinct : (s.fileSlices batch fileId).Nodup := by
    have all : s.slices.Nodup := sound.sliceOrder.imp fun less eq => by simp [eq] at less
    exact (List.mergeSort_perm _ _).nodup_iff.2 ((all.filter _).filter _)
  refine List.pairwise_map.2 ((sorted.and distinct).imp_of_mem fun {a b} ha hb both => ?_)
  rcases byChunk_iff.1 both.1 with before | ⟨chunk, part⟩
  · exact before
  · rw [mem_fileSlices sound] at ha hb
    have same : a.slot = b.slot := by simp [Slice.slot, ha.2, hb.2, chunk, part]
    have eq : a = b := Option.some.inj (ha.1.symm.trans (same ▸ hb.1))
    exact absurd eq both.2

theorem fileSlices_congr {s t : Store} (sound : s.Sound) (soundT : t.Sound) {batch : String}
    {fileId : Int} (same : ∀ x : Slot, x.1 = fileId → t.shown? batch x = s.shown? batch x) :
    t.fileSlices batch fileId = s.fileSlices batch fileId := by
  have ordered {u : Store} (sound : u.Sound) :=
    List.pairwise_map.1 (fileSlices_ordered sound batch fileId)
  refine eq_of_same_members Slice.content (ordered soundT) (ordered sound) fun r => ?_
  rw [mem_fileSlices soundT, mem_fileSlices sound]
  exact and_congr_left fun file => by rw [same r.slot file]

/-- A batch shows exactly some parts of a file when it shows them slot by slot and no others. -/
theorem fileSlices_contents_iff {s : Store} (sound : s.Sound) {batch : String} {fileId : Int}
    {parts : List SliceContent} (ordered : parts.Pairwise SliceContent.Before) :
    (s.fileSlices batch fileId).map (·.content) = parts ↔
      ∀ c, c ∈ parts ↔ c.fileId = fileId ∧ (s.shown? batch c.slot).map (·.content) = some c := by
  have members (c : SliceContent) : c ∈ (s.fileSlices batch fileId).map (·.content) ↔
      c.fileId = fileId ∧ (s.shown? batch c.slot).map (·.content) = some c := by
    simp only [List.mem_map, mem_fileSlices sound, Option.map_eq_some_iff]
    constructor
    · rintro ⟨r, ⟨shown, file⟩, rfl⟩
      exact ⟨file, r, shown, rfl⟩
    · rintro ⟨file, r, shown, rfl⟩
      exact ⟨r, ⟨shown, file⟩, rfl⟩
  constructor
  · rintro rfl c
    exact members c
  · intro all
    exact eq_of_same_members id (fileSlices_ordered sound batch fileId) ordered
      fun c => (members c).trans (all c).symm

end Store

end SourceSlices
