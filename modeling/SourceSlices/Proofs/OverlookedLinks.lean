import SourceSlices.Proofs.ExactForest
import SourceSlices.Proofs.FileBatch
import SourceSlices.Proofs.JsonPrefix

/-!
The check of a batch and the recomposition of its files judge the same rows. The check reads every row,
recomposition only the leading parts; the check follows a name to any chunk of the batch, recomposition
only inside the file and not in a circle. So behind a silent check metadata can always be read, and a file
fails only through names that the check does not follow.
-/
namespace SourceSlices

open Health
open Relation (TransGen)

variable {s : Store} {batch : String} {fileId : Int} {r : Slice}

/-! ### What both read -/

theorem Text.trim_of_allBlank {cs : List Char} (blank : isAllBlank cs = true) : trim cs = [] := by
  have start : (cs ++ []).dropWhile isBlank = [] :=
    List.dropWhile_append_of_pos (List.all_eq_true.1 blank)
  rw [List.append_nil] at start
  simp [trim, trimWhere, trimStartWhere, trimEndWhere, start]

/-- Metadata that the check can read says the same in recomposition, although that trims it first. -/
theorem Slice.records_of_readable (readable : ∀ e, metadataOf r.summary ≠ some (.error e)) :
    ∃ m, r.Records m ∧ (metadataOf r.summary = some (.ok m) ∨ m = Metadata.empty) := by
  unfold Slice.Records
  cases written : r.content.metadataJson with
  | none => exact ⟨_, rfl, Or.inr rfl⟩
  | some text =>
    by_cases blank : Text.isAllBlank text.toList = true
    · refine ⟨_, ?_, Or.inr rfl⟩
      simp [WholeChunk.metadataOf, Text.trim_of_allBlank blank]
    · have checked : metadataOf r.summary = some (Metadata.read text) := by
        simp [metadataOf, Slice.summary, written, Option.filter, blank]
      cases read : Metadata.read text with
      | error e => exact absurd (checked.trans (congrArg some read)) (readable e)
      | ok m =>
        obtain ⟨inner, solid, again⟩ := Metadata.read_trimmed read
        refine ⟨m, ?_, Or.inl (checked.trans (congrArg some read))⟩
        have some : (Text.trim text.toList).isEmpty = false := by rw [solid]; rfl
        simp only [WholeChunk.metadataOf, some, Bool.false_eq_true, if_false, again]
        rfl

/-- A name that is not empty is one that the check looks up. -/
theorem Slice.Records.parentOf {m : Metadata} {name : String} (reads : r.Records m)
    (readable : ∀ e, metadataOf r.summary ≠ some (.error e))
    (named : m.str? "delegate_parent_chunk" = some name) (solid : name ≠ "") :
    Health.parentOf r.summary = some name := by
  obtain ⟨m', reads', checked⟩ := r.records_of_readable readable
  obtain rfl : m = m' := Except.ok.inj (reads.symm.trans reads')
  rcases checked with checked | rfl
  · simp [Health.parentOf, checked, named, solid]
  · cases named

/-! ### The rows of one file among those of the batch -/

namespace Store

theorem mem_visibleIn_of_fileSlices (mem : r ∈ s.fileSlices batch fileId) :
    r ∈ s.visibleIn batch ∧ r.content.fileId = fileId := by
  simpa [fileSlices] using mem

theorem mem_summaries_of_visibleIn (mem : r ∈ s.visibleIn batch) : r.summary ∈ s.summaries batch :=
  List.mem_map_of_mem (List.mem_mergeSort.2 mem)

theorem exists_visibleIn_of_summaries {row : SliceSummary} (mem : row ∈ s.summaries batch) :
    ∃ r ∈ s.visibleIn batch, r.summary = row := by
  simpa [summaries] using mem

theorem fileSlices_slots (sound : s.Sound) : ((s.fileSlices batch fileId).map Slice.slot).Nodup := by
  have ordered := List.pairwise_map.1 (fileSlices_ordered sound batch fileId)
  refine List.pairwise_map.2 (ordered.imp fun before same => ?_)
  simp only [Slice.slot, Prod.mk.injEq] at same
  rcases before with less | ⟨-, less⟩
  · exact String.lt_irrefl _ (same.2.1 ▸ less)
  · omega

end Store

/-! ### What the check overlooks -/

namespace Recomposition

/-- Names of a file that recomposition rejects and that the check of the batch does not look into. -/
inductive Overlooked (s : Store) (batch : String) (fileId : Int) : Prop where
  /-- The empty name, and no chunk of the file has it. -/
  | nameless {child parent : ChunkKey} (names : Names (s.fileSlices batch fileId) child parent)
      (empty : parent.2 = "") (absent : parent ∉ chunkKeys (s.fileSlices batch fileId))
  /-- The name of a chunk that only other files of the batch have. -/
  | foreign {child parent : ChunkKey} (names : Names (s.fileSlices batch fileId) child parent)
      (absent : parent ∉ chunkKeys (s.fileSlices batch fileId))
      (there : ∃ r ∈ s.visibleIn batch, r.content.fileId ≠ fileId ∧ r.content.chunkId = parent.2)
  /-- A chunk that names itself, or others that lead back to it. -/
  | circular {key : ChunkKey} (again : TransGen (Names (s.fileSlices batch fileId)) key key)

theorem Names.file {child parent : ChunkKey} (names : Names (s.fileSlices batch fileId) child parent) :
    child.1 = fileId ∧ parent.1 = fileId := by
  obtain ⟨r, -, -, lowest, -, rfl, -, rfl⟩ := names
  have file := (Store.mem_visibleIn_of_fileSlices lowest.mem).2
  exact ⟨file, file⟩

theorem Overlooked.not_wellLinked (overlooked : Overlooked s batch fileId) :
    ¬ WellLinked (s.fileSlices batch fileId) := by
  intro linked
  cases overlooked with
  | nameless names _ absent => exact absent (linked.present _ _ names).1
  | foreign names absent => exact absent (linked.present _ _ names).1
  | circular again => exact linked.acyclic _ again

/-- In consistent rows, a name that its file lacks is empty or that of a chunk of another file. -/
theorem overlooked_of_absent (consistent : Consistent (s.summaries batch)) {child parent : ChunkKey}
    (names : Names (s.fileSlices batch fileId) child parent)
    (absent : parent ∉ chunkKeys (s.fileSlices batch fileId)) : Overlooked s batch fileId := by
  by_cases empty : parent.2 = ""
  · exact .nameless names empty absent
  have file := names.file.2
  obtain ⟨r, m, name, lowest, reads, -, named, same⟩ := id names
  obtain rfl : parent.2 = name := congrArg Prod.snd same
  obtain ⟨seen, -⟩ := Store.mem_visibleIn_of_fileSlices lowest.mem
  have row := Store.mem_summaries_of_visibleIn seen
  obtain ⟨row', there, id⟩ := consistent.parents _ row parent.2
    (reads.parentOf (consistent.readable _ row) named empty)
  obtain ⟨q, shown, rfl⟩ := Store.exists_visibleIn_of_summaries there
  refine .foreign names absent ⟨q, shown, fun own => absent ?_, id⟩
  exact mem_chunkKeys.2 ⟨q, by simp [Store.fileSlices, shown, own], Prod.ext (own.trans file.symm) id⟩

theorem wellLinked_of_consistent (consistent : Consistent (s.summaries batch))
    (watched : ¬ Overlooked s batch fileId) : WellLinked (s.fileSlices batch fileId) where
  readable := by
    intro r lowest
    obtain ⟨seen, -⟩ := Store.mem_visibleIn_of_fileSlices lowest.mem
    obtain ⟨m, reads, -⟩ := r.records_of_readable
      (consistent.readable _ (Store.mem_summaries_of_visibleIn seen))
    exact ⟨m, reads⟩
  present := by
    intro child parent names
    constructor
    · by_contra absent
      exact watched (overlooked_of_absent consistent names absent)
    · rintro rfl
      exact watched (.circular (.single names))
  acyclic := fun _ again => watched (.circular again)

theorem ofFile_succeeds_iff (sound : s.Sound) :
    Succeeds (ofFile s batch fileId) ↔ WellLinked (s.fileSlices batch fileId) :=
  recompose_succeeds_iff (Store.fileSlices_slots sound)

/-- Behind a silent check of a batch, a file is put together unless one of its names is overlooked. -/
theorem silent_recomposes_iff (sound : s.Sound) (batch : String)
    (silent : (assessSlices (s.summaries batch) {}).issues = []) (fileId : Int) :
    Succeeds (ofFile s batch fileId) ↔ ¬ Overlooked s batch fileId := by
  have consistent := assessSlices_silent_iff.1 silent
  rw [ofFile_succeeds_iff sound]
  exact ⟨fun linked overlooked => overlooked.not_wellLinked linked,
    wellLinked_of_consistent consistent⟩

/-! ### A style whose page may be that of another file -/

def pageOf (fileId : Int) : Slice :=
  { pageRow 1 "page" 0 Metadata.empty with
    content := { (pageRow 1 "page" 0 Metadata.empty).content with fileId } }

/-- Two files. The first has a style that names a page; the page stands in the given one. -/
def styledPages (owner : Int) : Store where
  batches := [{ id := "b1", generatedAt := .epoch }]
  files := [⟨1, ⟨"b1", "a.html", "html", "", none, none⟩⟩, ⟨2, ⟨"b1", "b.html", "html", "", none, none⟩⟩]
  slices := [pageOf owner, pageRow 2 "style" 0 styleMetadata]
  lastFile := 2
  lastSlice := 2

theorem sound_styledPages {owner : Int} (known : owner = 1 ∨ owner = 2) :
    (styledPages owner).Sound where
  sliceOrder := by simp [styledPages, pageOf, pageRow]
  sliceNumbers := by simp [styledPages, pageOf, pageRow]
  sliceFiles := by
    rcases known with rfl | rfl <;> simp [styledPages, pageOf, pageRow]
  fileNumbers := by simp [styledPages]
  symbolOrder := List.Pairwise.nil
  symbolNumbers := by simp [styledPages]

theorem styledPages_visible (owner : Int) :
    (styledPages owner).visibleIn "b1" = (styledPages owner).slices := by
  simp [Store.visibleIn, Store.isNewestIn, styledPages, pageOf, pageRow, Slice.isSeenIn, Slice.slot]

theorem mem_styledPages {owner : Int} {r : Slice} :
    r ∈ (styledPages owner).fileSlices "b1" fileId ↔
      (r = pageOf owner ∨ r = pageRow 2 "style" 0 styleMetadata) ∧ r.content.fileId = fileId := by
  rw [Store.fileSlices, List.mem_mergeSort, List.mem_filter, styledPages_visible]
  simp [styledPages]

theorem fits_styleMetadata : styleMetadata.Fits := Metadata.fits_putStr Metadata.fits_empty _ _

theorem page_checked (owner : Int) : metadataOf (pageOf owner).summary = none := rfl

theorem style_checked :
    metadataOf (pageRow 2 "style" 0 styleMetadata).summary = some (.ok styleMetadata) := by
  have some : styleMetadata.isEmpty = false := rfl
  have read := Staging.metadataOf_partSummary (p := {
    chunkId := "style", text := "", startOffset := 0, endOffset := 0, metadata := styleMetadata })
    fits_styleMetadata
  rw [if_neg (by simp [some])] at read
  exact read

theorem style_names :
    Health.parentOf (pageRow 2 "style" 0 styleMetadata).summary = some "page" := by
  have reads : (pageRow 2 "style" 0 styleMetadata).Records styleMetadata :=
    records_pageRow fits_styleMetadata
  exact reads.parentOf (by simp [style_checked]) rfl (by decide)

theorem styledPages_silent (owner : Int) :
    (assessSlices ((styledPages owner).summaries "b1") {}).issues = [] := by
  rw [assessSlices_silent_iff, Store.summaries, styledPages_visible,
    consistent_perm_iff ((List.mergeSort_perm _ _).map _)]
  constructor
  case readable => simp [styledPages, page_checked, style_checked]
  case counted => simp [styledPages, pageOf, pageRow, Slice.summary, indices]
  case numbered => simp [styledPages, pageOf, pageRow, Slice.summary, indices]
  case parents =>
    have page : Health.parentOf (pageOf owner).summary = none := by
      rw [Health.parentOf, page_checked]
    have id : (pageOf owner).summary.chunkId = "page" := rfl
    simp [styledPages, page, style_names, id]

theorem names_styledPages {owner : Int} {child parent : ChunkKey}
    (names : Names ((styledPages owner).fileSlices "b1" 1) child parent) :
    child = (1, "style") ∧ parent = (1, "page") := by
  obtain ⟨r, m, name, lowest, read, rfl, named, rfl⟩ := names
  rcases (mem_styledPages.1 lowest.mem).1 with rfl | rfl
  · obtain rfl : m = Metadata.empty := (Except.ok.inj read).symm
    cases named
  · obtain rfl := Except.ok.inj (read.symm.trans (records_pageRow fits_styleMetadata))
    obtain rfl : "page" = name := Option.some.inj named
    exact ⟨rfl, rfl⟩

theorem styledPages_names (owner : Int) :
    Names ((styledPages owner).fileSlices "b1" 1) (1, "style") (1, "page") := by
  refine ⟨_, _, "page", ⟨mem_styledPages.2 ⟨Or.inr rfl, rfl⟩, fun q there _ => ?_⟩,
    records_pageRow fits_styleMetadata, rfl, rfl, rfl⟩
  rcases (mem_styledPages.1 there).1 with rfl | rfl <;> exact Int.le_refl _

theorem page_in_chunkKeys_iff (owner : Int) :
    (1, "page") ∈ chunkKeys ((styledPages owner).fileSlices "b1" 1) ↔ owner = 1 := by
  simp only [mem_chunkKeys, mem_styledPages]
  constructor
  · rintro ⟨r, ⟨rfl | rfl, file⟩, key⟩
    · exact file
    · exact absurd (congrArg Prod.snd key) (by decide)
  · rintro rfl
    exact ⟨_, ⟨Or.inl rfl, rfl⟩, rfl⟩

theorem own_page_watched : ¬ Overlooked (styledPages 1) "b1" 1 := by
  intro overlooked
  cases overlooked with
  | nameless names empty _ => exact absurd ((names_styledPages names).2 ▸ empty) (by decide)
  | foreign names absent _ =>
    exact absent ((names_styledPages names).2 ▸ (page_in_chunkKeys_iff 1).2 rfl)
  | circular again =>
    obtain ⟨next, names, -⟩ := Relation.TransGen.head'_iff.1 again
    obtain ⟨last, -, names'⟩ := Relation.TransGen.tail'_iff.1 again
    have style := (names_styledPages names).1
    rw [(names_styledPages names').2] at style
    exact absurd style (by decide)

/-- A style that names the page of its own file. -/
theorem own_page_recomposes : (assessSlices ((styledPages 1).summaries "b1") {}).issues = [] ∧
    Succeeds (ofFile (styledPages 1) "b1" 1) :=
  ⟨styledPages_silent 1, (silent_recomposes_iff (sound_styledPages (Or.inl rfl)) "b1"
    (styledPages_silent 1) 1).2 own_page_watched⟩

/-- A style that names a page of another file: the check finds nothing, and its file cannot be put
together. -/
theorem foreign_page_unnoticed : ¬ ∀ (s : Store) (batch : String), s.Sound →
    (assessSlices (s.summaries batch) {}).issues = [] →
    ∀ fileId, Succeeds (ofFile s batch fileId) := by
  intro caught
  have sound := sound_styledPages (Or.inr rfl)
  have done := caught (styledPages 2) "b1" sound (styledPages_silent 2) 1
  have linked := (ofFile_succeeds_iff sound).1 done
  have own := (linked.present _ _ (styledPages_names 2)).1
  exact absurd ((page_in_chunkKeys_iff 2).1 own) (by decide)

end Recomposition

end SourceSlices
