import SourceSlices.Proofs.DelegatedIds
import SourceSlices.Proofs.HeadingTree

/-!
Sections cover a document. The front matter, the sections and, without headings, the body follow each
other, and what they leave out is blank. Fenced code stands in one section and is emitted behind it.
-/
namespace SourceSlices

open Text

namespace Text

/-! ### Ranges that tile -/

theorem apart_of_tiles {start stop : Nat} {found : List (Nat × Nat)} (tiles : Tiles start stop found) :
    found.Pairwise fun a b => a.2 ≤ b.1 := by
  induction found generalizing start with
  | nil => exact .nil
  | cons b rest ih =>
    obtain ⟨rfl, long, more⟩ := tiles
    exact List.pairwise_cons.2 ⟨fun c mem => le_of_tiles more mem, ih more⟩

theorem last_of_tiles {start stop : Nat} {found : List (Nat × Nat)} (tiles : Tiles start stop found) :
    start ≤ stop ∧ ∀ b ∈ found, b.2 ≤ stop := by
  induction found generalizing start with
  | nil => exact ⟨Nat.le_of_eq tiles, by simp⟩
  | cons b rest ih =>
    obtain ⟨rfl, long, more⟩ := tiles
    obtain ⟨le, others⟩ := ih more
    exact ⟨by omega, List.forall_mem_cons.2 ⟨le, others⟩⟩

theorem cover_of_tiles {start stop n : Nat} {found : List (Nat × Nat)} (tiles : Tiles start stop found)
    (from_ : start ≤ n) (less : n < stop) : ∃ b ∈ found, b.1 ≤ n ∧ n < b.2 := by
  induction found generalizing start with
  | nil =>
    have : start = stop := tiles
    omega
  | cons b rest ih =>
    obtain ⟨rfl, long, more⟩ := tiles
    by_cases here : n < b.2
    · exact ⟨b, List.mem_cons_self, from_, here⟩
    · obtain ⟨c, mem, there⟩ := ih more (Nat.le_of_not_lt here)
      exact ⟨c, List.mem_cons_of_mem _ mem, there⟩

/-! ### Characters of a slice -/

theorem mem_takeBytes {n : Nat} {cs : List Char} {c : Char} :
    c ∈ takeBytes n cs ↔ ∃ pre post, cs = pre ++ c :: post ∧ byteLength pre < n := by
  induction cs generalizing n with
  | nil => simp [takeBytes_nil]
  | cons head cs ih =>
    rcases Nat.eq_zero_or_pos n with rfl | some
    · simp [takeBytes_zero]
    · rw [takeBytes_cons some, List.mem_cons, ih]
      constructor
      · rintro (rfl | ⟨pre, post, rfl, less⟩)
        · exact ⟨[], cs, rfl, some⟩
        · exact ⟨head :: pre, post, rfl, by rw [byteLength_cons]; omega⟩
      · rintro ⟨pre, post, split, less⟩
        cases pre with
        | nil => exact .inl (List.cons.inj split).1.symm
        | cons first pre =>
          obtain ⟨rfl, rfl⟩ := List.cons.inj split
          rw [byteLength_cons] at less
          exact .inr ⟨pre, post, rfl, by omega⟩

/-- A character that begins at an offset or later is left when what is before the offset is dropped. -/
theorem split_dropBytes {cs pre post : List Char} {start : Nat} {c : Char} (boundary : IsBoundary cs start)
    (split : cs = pre ++ c :: post) (le : start ≤ byteLength pre) :
    ∃ mid, dropBytes start cs = mid ++ c :: post ∧ byteLength pre = start + byteLength mid := by
  obtain ⟨before, ⟨rest, rfl⟩, rfl⟩ := boundary
  rw [dropBytes_append]
  rcases List.append_eq_append_iff.1 split with ⟨mid, rfl, behind⟩ | ⟨mid, rfl, behind⟩
  · exact ⟨mid, behind, byteLength_append _ _⟩
  · have none : mid = [] := by
      by_contra some
      have := byteLength_pos some
      rw [byteLength_append] at le
      omega
    subst none
    exact ⟨[], behind.symm, by rw [List.append_nil]; rfl⟩

theorem mem_slice {cs : List Char} {start stop : Nat} (boundary : IsBoundary cs start) {c : Char} :
    c ∈ slice cs start stop ↔
      ∃ pre post, cs = pre ++ c :: post ∧ start ≤ byteLength pre ∧ byteLength pre < stop := by
  rw [slice, mem_takeBytes]
  constructor
  · obtain ⟨before, ⟨rest, rfl⟩, rfl⟩ := boundary
    rw [dropBytes_append]
    rintro ⟨pre, post, rfl, less⟩
    refine ⟨before ++ pre, post, by rw [List.append_assoc], ?_, ?_⟩ <;> rw [byteLength_append] <;> omega
  · rintro ⟨pre, post, split, le, less⟩
    obtain ⟨mid, behind, length⟩ := split_dropBytes boundary split le
    exact ⟨mid, post, behind, by omega⟩

/-- A character that begins before an offset also ends before it. -/
theorem IsBoundary.stop_le {cs pre post : List Char} {n : Nat} {c : Char} (boundary : IsBoundary cs n)
    (split : cs = pre ++ c :: post) (less : byteLength pre < n) : byteLength pre + c.utf8Size ≤ n := by
  obtain ⟨before, ⟨rest, rfl⟩, rfl⟩ := boundary
  rcases List.append_eq_append_iff.1 split with ⟨mid, rfl, -⟩ | ⟨mid, rfl, behind⟩
  · rw [byteLength_append] at less
    omega
  · cases mid with
    | nil =>
      rw [List.append_nil] at less
      omega
    | cons head mid =>
      obtain ⟨rfl, -⟩ := List.cons.inj behind
      rw [byteLength_append, byteLength_cons]
      omega

theorem isAllBlank_eq_false {cs : List Char} :
    isAllBlank cs = false ↔ ∃ c ∈ cs, isBlank c = false := by
  simp [isAllBlank]

end Text

namespace Markdown

/-! ### Front matter -/

theorem closeAt_some {format : FrontFormat} {offset stop : Nat} {lines body : List (List Char)}
    (closed : closeAt format offset lines = some (body, stop)) :
    ∃ pre post, lines = pre ++ post ∧ stop = offset + byteLength pre.flatten := by
  induction lines generalizing offset body with
  | nil => cases closed
  | cons line rest ih =>
    rw [closeAt] at closed
    split at closed
    · obtain ⟨-, rfl⟩ := Prod.mk.inj (Option.some.inj closed)
      exact ⟨[line], rest, rfl, by simp⟩
    · obtain ⟨⟨body', stop'⟩, later, same⟩ := Option.map_eq_some_iff.1 closed
      obtain ⟨-, rfl⟩ := Prod.mk.inj same
      obtain ⟨pre, post, rfl, rfl⟩ := ih later
      refine ⟨line :: pre, post, rfl, ?_⟩
      rw [List.flatten_cons, byteLength_append, Nat.add_assoc]

/-- Front matter ends behind a line. -/
theorem frontMatter?_stop {text : List Char} {f : FrontMatter} (found : frontMatter? text = some f) :
    IsBoundary text f.stop ∧ 0 < f.stop := by
  unfold frontMatter? at found
  split at found
  · cases found
  · rename_i first rest lines
    obtain ⟨format, -, closed⟩ := Option.bind_eq_some_iff.1 found
    obtain ⟨⟨body, stop⟩, behind, rfl⟩ := Option.map_eq_some_iff.1 closed
    obtain ⟨pre, post, rfl, rfl⟩ := closeAt_some behind
    have text_eq : text = first ++ pre.flatten ++ post.flatten := by
      rw [← flatten_linesInclusive text, lines]
      simp
    have some : 0 < byteLength first := byteLength_pos (linesInclusive_ne_nil (lines ▸ List.mem_cons_self))
    exact ⟨⟨first ++ pre.flatten, text_eq ▸ List.prefix_append _ _, byteLength_append _ _⟩, by
      dsimp only
      omega⟩

/-! ### What an outline reports -/

/-- Nothing in an outline begins before an offset. -/
structure Outline.Behind (base : Nat) (o : Outline) : Prop where
  headings : ∀ h ∈ o.headings, base ≤ h.start
  fences : ∀ f ∈ o.fences, base ≤ f.start
  openHeading : ∀ h, o.openHeading = some h → base ≤ h.start
  openFence : ∀ info a b, o.openFence = some (info, some (a, b)) → base ≤ a

namespace Outline

variable {base : Nat} {o : Outline}

theorem behind_addText (behind : o.Behind base) (s : String) {start : Nat} (le : base ≤ start)
    (stop : Nat) : (o.addText s start stop).Behind base := by
  unfold addText
  split
  · rename_i h found
    exact { behind with openHeading := fun _ same => Option.some.inj same ▸ behind.openHeading h found }
  · rename_i info span none found
    refine { behind with openFence := fun info' a b same => ?_ }
    obtain ⟨-, same⟩ := Prod.mk.inj (Option.some.inj same)
    split at same
    · obtain ⟨rfl, -⟩ := Prod.mk.inj (Option.some.inj same)
      have := behind.openFence _ _ _ found
      omega
    · obtain ⟨rfl, -⟩ := Prod.mk.inj (Option.some.inj same)
      exact le
  · exact behind

theorem behind_add (behind : o.Behind base) (e : Event) : (add base o e).Behind base := by
  have here : base ≤ base + e.start := Nat.le_add_right _ _
  unfold add
  dsimp only
  split
  case h_1 => exact { behind with openHeading := fun _ same => Option.some.inj same ▸ here }
  case h_2 =>
    split
    · rename_i h found
      refine { behind with headings := fun h' mem => ?_, openHeading := fun _ same => nomatch same }
      rcases List.mem_append.1 mem with mem | mem
      · exact behind.headings h' mem
      · obtain rfl := List.mem_singleton.1 mem
        exact behind.openHeading h found
    · exact behind
  case h_3 => exact { behind with openFence := fun _ _ _ same => nomatch same }
  case h_4 => exact behind
  case h_5 =>
    split
    · rename_i info a b found
      refine { behind with fences := fun f mem => ?_, openFence := fun _ _ _ same => nomatch same }
      rcases List.mem_append.1 mem with mem | mem
      · exact behind.fences f mem
      · obtain rfl := List.mem_singleton.1 mem
        exact behind.openFence _ _ _ found
    · exact { behind with openFence := fun _ _ _ same => nomatch same }
  case h_6 => exact behind_addText behind _ here _
  case h_7 => exact behind_addText behind _ here _

theorem behind_ofEvents (base : Nat) (events : List Event) : (ofEvents base events).Behind base := by
  have run : ∀ o : Outline, o.Behind base → (events.foldl (add base) o).Behind base := by
    induction events with
    | nil => exact fun _ behind => behind
    | cons e rest ih => exact fun _ behind => ih _ (behind_add behind e)
  exact run {} ⟨by simp, by simp, by simp, by simp⟩

end Outline

/-! ### Chunks before they are split -/

/-- A section: its span, its heading, and whether an introduction belongs to it. -/
structure Section where
  start : Nat
  stop : Nat
  heading : Heading
  intro : Bool

def Section.holds (s : Section) (f : Fence) : Bool := s.start ≤ f.start && f.start < s.stop

def Section.span (s : Section) : Nat × Nat := (s.start, s.stop)

def Section.id (s : Section) : String := "markdown:section:" ++ Document.span s.start s.stop

namespace Document

variable {d : Document}

def parts (d : Document) (whole : Chunk) : List Chunk :=
  Split.chunk d.reading.count d.budget (some d.lines) whole

def frontMetadata (f : FrontMatter) : Metadata :=
  let m := (Metadata.empty.putStr "kind" "front_matter").putStr "front_matter_format" f.format.name
  match f.keys with
  | .ok keys => m.put "front_matter_keys" (.list keys)
  | .error _ => m

/-- The chunk of the front matter. -/
def frontWhole? (d : Document) : Option Chunk :=
  (frontMatter? d.text).map fun f =>
    { Chunk.ofSlice "markdown:front-matter" d.text 0 f.stop with
      metadata := (frontMetadata f).putLines d.lines 0 f.stop }

/-- The chunk of all that follows the front matter, for a document without headings. -/
def bodyWhole? (d : Document) : Option Chunk :=
  if d.outline.headings.isEmpty && !isAllBlank (dropBytes d.bodyStart d.text) then
    some { Chunk.ofSlice ("markdown:body:" ++ span d.bodyStart d.size) d.text d.bodyStart d.size with
      metadata := ((Metadata.empty.putStr "kind" "body").putStr "strategy" "fallback").putLines d.lines
        d.bodyStart d.size }
  else none

/-- The chunk of a section. -/
def sectionWhole (d : Document) (s : Section) : Chunk :=
  let m := Metadata.ofList [("kind", .str "section"), ("heading_title", .str s.heading.title),
    ("heading_level", .nat s.heading.level), ("heading_line", .nat (d.lines.line s.heading.start)),
    ("intro_attached", .bool s.intro)]
  { Chunk.ofSlice s.id d.text s.start s.stop with
    parentSymbolId := some (headingId s.heading), metadata := m.putLines d.lines s.start s.stop }

def sectionsFrom (d : Document) : Option Nat → List Heading → List Section
  | _, [] => []
  | intro, h :: rest =>
    ⟨intro.getD h.start, ((rest.head?).map (·.start)).getD d.size, h, intro.isSome⟩ ::
      d.sectionsFrom none rest

def sectionList (d : Document) : List Section :=
  d.sectionsFrom ((d.outline.headings.head?).bind d.introStart?) d.outline.headings

/-- All chunks that hold the document itself. -/
def wholes (d : Document) : List Chunk :=
  d.frontWhole?.toList ++ d.bodyWhole?.toList ++ d.sectionList.map d.sectionWhole

def fencesIn (d : Document) (s : Section) : List Fence := d.outline.fences.filter s.holds

/-- What is emitted for a section: its parts, then its fences. -/
def emitted (d : Document) (s : Section) : List Chunk :=
  d.parts (d.sectionWhole s) ++
    (d.fencesIn s).flatMap fun f => (d.fence (headingId s.heading) s.id f).chunks

/-- Whether fenced code holds more than blanks. -/
def filled (d : Document) (f : Fence) : Bool := !isAllBlank (slice d.text f.start f.stop)

theorem chunks_frontOutput (d : Document) :
    d.frontOutput.chunks = d.frontWhole?.toList.flatMap d.parts := by
  unfold frontOutput frontWhole?
  cases frontMatter? d.text with
  | none => rfl
  | some f =>
    simp only [frontChunk, frontMetadata, Option.map_some, Option.toList_some, List.flatMap_singleton]
    cases f.keys <;> rfl

theorem chunks_sections (intro : Option Nat) (open' : List (Nat × String)) (headings : List Heading) :
    (d.sections d.outline.fences intro open' headings).chunks =
      (d.sectionsFrom intro headings).flatMap d.emitted := by
  induction headings generalizing intro open' with
  | nil => rfl
  | cons h rest ih =>
    rw [sectionsFrom, List.flatMap_cons, ← ih none ((h.level, headingId h) :: ancestors h.level open')]
    rw [emitted, fencesIn, ← List.flatMap_map, ← Output.chunks_join]
    rfl

/-- Everything that is emitted comes from the document's own chunks and from fences of its sections. -/
theorem chunks_output (d : Document) : d.output.chunks =
    (d.frontWhole?.toList ++ d.bodyWhole?.toList).flatMap d.parts ++ d.sectionList.flatMap d.emitted := by
  rw [List.flatMap_append, ← chunks_frontOutput]
  cases headings : d.outline.headings with
  | nil =>
    rw [output_plain headings, sectionList, headings, bodyWhole?, headings]
    simp only [sectionsFrom, List.flatMap_nil, List.append_nil, List.isEmpty_nil, Bool.true_and]
    show d.frontOutput.chunks ++ (d.bodyChunk d.bodyStart).chunks = _
    unfold bodyChunk
    cases isAllBlank (dropBytes d.bodyStart d.text)
    · simp only [Bool.not_false, if_true, Option.toList_some, List.flatMap_singleton]
      rfl
    · rfl
  | cons h rest =>
    rw [output_sections headings, sectionList, headings, bodyWhole?, headings]
    show d.frontOutput.chunks ++ (d.sections _ _ _ _).chunks = _
    rw [chunks_sections]
    simp

/-! ### Spans of sections -/

/-- What is asked of headings and fences: headings ascend, fenced code lies in the text, begins at a
character and holds no heading. -/
structure Located (d : Document) : Prop where
  placed : d.Placed d.outline.headings
  boundary : ∀ f ∈ d.outline.fences, IsBoundary d.text f.start
  inside : ∀ f ∈ d.outline.fences, f.stop ≤ d.size
  apart : ∀ f ∈ d.outline.fences, ∀ h ∈ d.outline.headings, h.start < f.start ∨ f.stop ≤ h.start

theorem tiles_sectionsFrom {headings : List Heading} (placed : d.Placed headings) {h : Heading}
    (first : headings.head? = some h) {intro : Option Nat} (le : ∀ n ∈ intro, n ≤ h.start) :
    Tiles (intro.getD h.start) d.size ((d.sectionsFrom intro headings).map Section.span) := by
  induction headings generalizing intro h with
  | nil => cases first
  | cons h' rest ih =>
    obtain rfl := Option.some.inj first
    have start : intro.getD h'.start ≤ h'.start := by
      cases intro with
      | none => exact Nat.le_refl _
      | some n => exact le n rfl
    cases rest with
    | nil => exact ⟨rfl, Nat.lt_of_le_of_lt start (placed.inside h' List.mem_cons_self), rfl⟩
    | cons next rest =>
      have ahead : h'.start < next.start := (List.pairwise_cons.1 placed.ascending).1 next (by simp)
      exact ⟨rfl, Nat.lt_of_le_of_lt start ahead, ih placed.tail rfl (fun _ none => nomatch none)⟩

theorem heading_sectionsFrom (intro : Option Nat) (headings : List Heading) :
    (d.sectionsFrom intro headings).map (·.heading) = headings := by
  induction headings generalizing intro with
  | nil => rfl
  | cons h rest ih => rw [sectionsFrom, List.map_cons, ih]

theorem stop_sectionsFrom {intro : Option Nat} {headings : List Heading} {s : Section}
    (mem : s ∈ d.sectionsFrom intro headings) : s.stop = d.size ∨ ∃ h ∈ headings, s.stop = h.start := by
  induction headings generalizing intro with
  | nil => cases mem
  | cons h rest ih =>
    rcases List.mem_cons.1 mem with rfl | mem
    · cases rest with
      | nil => exact .inl rfl
      | cons next rest => exact .inr ⟨next, by simp, rfl⟩
    · rcases ih mem with size | ⟨h', there, stop⟩
      · exact .inl size
      · exact .inr ⟨h', List.mem_cons_of_mem _ there, stop⟩

theorem boundary_bodyStart (d : Document) : IsBoundary d.text d.bodyStart := by
  unfold bodyStart
  cases found : frontMatter? d.text with
  | none => exact ⟨[], List.nil_prefix, rfl⟩
  | some f => exact (frontMatter?_stop found).1

theorem behind_outline (d : Document) : d.outline.Behind d.bodyStart := Outline.behind_ofEvents _ _

/-- No character that is not blank stands between the front matter and a place. -/
def BlankUpTo (d : Document) (first : Nat) : Prop :=
  ∀ pre c post, d.text = pre ++ c :: post → d.bodyStart ≤ byteLength pre → isBlank c = false →
    first ≤ byteLength pre

/-- Sections tile the text from the first heading on, or from the front matter on if something stands
between the two. -/
theorem tiles_sectionList (placed : d.Placed d.outline.headings) {h : Heading} {rest : List Heading}
    (headings : d.outline.headings = h :: rest) : ∃ first, (first = d.bodyStart ∨ first = h.start) ∧
      d.bodyStart ≤ first ∧ d.BlankUpTo first ∧ Tiles first d.size (d.sectionList.map Section.span) := by
  have after : d.bodyStart ≤ h.start := d.behind_outline.headings h (headings ▸ List.mem_cons_self)
  have le : ∀ n ∈ d.introStart? h, n ≤ h.start := by
    intro n found
    unfold introStart? at found
    split at found
    · exact Option.some.inj found ▸ after
    · cases found
  have tiles : Tiles ((d.introStart? h).getD h.start) d.size (d.sectionList.map Section.span) := by
    rw [sectionList, headings]
    exact tiles_sectionsFrom (headings ▸ placed) rfl le
  unfold introStart? at tiles
  split at tiles
  · exact ⟨d.bodyStart, .inl rfl, Nat.le_refl _, fun _ _ _ _ from_ _ => from_, tiles⟩
  · rename_i blank
    refine ⟨h.start, .inr rfl, after, fun pre c post split from_ solid => ?_, tiles⟩
    by_contra before
    have all : isAllBlank (slice d.text d.bodyStart h.start) = true := by simpa using blank
    rw [isAllBlank, List.all_eq_true] at all
    have := all c ((mem_slice d.boundary_bodyStart).2
      ⟨pre, post, split, from_, Nat.lt_of_not_le before⟩)
    rw [solid] at this
    cases this

/-- Without headings the body is one range up to the end, unless it is blank. -/
theorem tiles_body (d : Document) (headings : d.outline.headings = []) : ∃ first, d.bodyStart ≤ first ∧
    d.BlankUpTo first ∧
      Tiles first d.size (d.bodyWhole?.toList.map fun c => (c.startOffset, c.endOffset)) := by
  have boundary := d.boundary_bodyStart
  rw [bodyWhole?, headings]
  cases blank : isAllBlank (dropBytes d.bodyStart d.text) with
  | true =>
    refine ⟨d.size, boundary.le, fun pre c post split le solid => ?_, rfl⟩
    obtain ⟨mid, behind, -⟩ := split_dropBytes boundary split le
    rw [isAllBlank, List.all_eq_true] at blank
    have := blank c (behind ▸ by simp)
    rw [solid] at this
    cases this
  | false =>
    refine ⟨d.bodyStart, Nat.le_refl _, fun _ _ _ _ le _ => le, rfl, ?_, rfl⟩
    obtain ⟨pre, ⟨rest, whole⟩, length⟩ := boundary
    rw [← length, ← whole, dropBytes_append] at blank
    have some : rest ≠ [] := by
      rintro rfl
      cases blank
    have := byteLength_pos some
    show d.bodyStart < byteLength d.text
    rw [← whole, byteLength_append]
    omega

/-- What follows the front matter tiles the text from a place on, before which there are only blanks. -/
theorem tiles_rest (placed : d.Placed d.outline.headings) : ∃ first, d.bodyStart ≤ first ∧
    d.BlankUpTo first ∧
      Tiles first d.size ((d.bodyWhole?.toList ++ d.sectionList.map d.sectionWhole).map
        fun c => (c.startOffset, c.endOffset)) := by
  cases headings : d.outline.headings with
  | nil =>
    have none : d.sectionList = [] := by
      rw [sectionList, headings]
      rfl
    rw [none, List.map_nil, List.append_nil]
    exact d.tiles_body headings
  | cons h rest =>
    obtain ⟨first, -, after, blank, tiles⟩ := tiles_sectionList placed headings
    have none : d.bodyWhole? = none := by
      rw [bodyWhole?, headings]
      rfl
    rw [none, Option.toList_none, List.nil_append, List.map_map]
    exact ⟨first, after, blank, tiles⟩

/-! ### Fences -/

/-- Sections that tile a range hold each fence that begins in it once. -/
theorem perm_of_tiles {sections : List Section} {start stop : Nat}
    (tiles : Tiles start stop (sections.map Section.span)) {fences : List Fence}
    (inside : ∀ f ∈ fences, start ≤ f.start ∧ f.start < stop) :
    (sections.flatMap fun s => fences.filter s.holds).Perm fences := by
  induction sections generalizing start fences with
  | nil =>
    have none : fences = [] := by
      refine List.eq_nil_iff_forall_not_mem.2 fun f mem => ?_
      have := inside f mem
      have : start = stop := tiles
      omega
    rw [none]
    exact .refl _
  | cons s rest ih =>
    obtain ⟨rfl, -, more⟩ := tiles
    rw [List.flatMap_cons]
    refine .trans (.append_left _ ?_) (List.filter_append_perm s.holds fences)
    -- A fence that the first section holds begins before every later section.
    have later : ∀ s' ∈ rest, fences.filter s'.holds = (fences.filter (!s.holds ·)).filter s'.holds := by
      intro s' mem
      rw [List.filter_filter]
      refine List.filter_congr fun f _ => ?_
      have behind : s.stop ≤ s'.start := le_of_tiles more (List.mem_map_of_mem mem)
      cases held : s'.holds f with
      | false => rfl
      | true =>
        simp only [Section.holds, Bool.and_eq_true, decide_eq_true_eq] at held
        simp only [Bool.true_and, Section.holds, Bool.true_eq, Bool.not_eq_true', Bool.and_eq_false_iff,
          decide_eq_false_iff_not]
        exact .inr (by omega)
    rw [List.flatMap_congr later]
    refine ih more fun f mem => ?_
    obtain ⟨there, other⟩ := List.mem_filter.1 mem
    have bounds := inside f there
    simp only [Section.holds, Section.span, Bool.not_eq_true', Bool.and_eq_false_iff,
      decide_eq_false_iff_not] at other bounds ⊢
    omega

theorem filled_start (located : d.Located) {f : Fence} (mem : f ∈ d.outline.fences)
    (filled : d.filled f = true) : ∃ pre c post, d.text = pre ++ c :: post ∧ isBlank c = false ∧
      f.start ≤ byteLength pre ∧ byteLength pre < f.stop := by
  have some : isAllBlank (slice d.text f.start f.stop) = false := by
    simpa only [Document.filled, Bool.not_eq_true'] using filled
  obtain ⟨c, there, solid⟩ := isAllBlank_eq_false.1 some
  obtain ⟨pre, post, split, from_, less⟩ := (mem_slice (located.boundary f mem)).1 there
  exact ⟨pre, c, post, split, solid, from_, less⟩

/-- Every fence that is not blank stands in one of the sections. -/
theorem perm_fences (located : d.Located) (some : d.outline.headings ≠ []) :
    ((d.sectionList.flatMap d.fencesIn).filter d.filled).Perm (d.outline.fences.filter d.filled) := by
  obtain ⟨h, rest, headings⟩ := List.exists_cons_of_ne_nil some
  obtain ⟨first, from_, -, blank, tiles⟩ := tiles_sectionList located.placed headings
  have each : (d.sectionList.flatMap d.fencesIn).filter d.filled =
      d.sectionList.flatMap fun s => (d.outline.fences.filter d.filled).filter s.holds := by
    rw [List.filter_flatMap]
    exact List.flatMap_congr fun s _ => List.filter_comm _ _ _
  rw [each]
  refine perm_of_tiles tiles fun f mem => ?_
  obtain ⟨among, more⟩ := List.mem_filter.1 mem
  obtain ⟨pre, c, post, split, solid, start, stop⟩ := filled_start located among more
  have after := d.behind_outline.fences f among
  have reached := blank pre c post split (Nat.le_trans after start) solid
  have inside := located.inside f among
  have apart := located.apart f among h (headings ▸ List.mem_cons_self)
  omega

theorem stop_le_of_holds (located : d.Located) {s : Section} (mem : s ∈ d.sectionList) {f : Fence}
    (there : f ∈ d.fencesIn s) : s.start ≤ f.start ∧ f.stop ≤ s.stop := by
  obtain ⟨among, held⟩ := List.mem_filter.1 there
  simp only [Section.holds, Bool.and_eq_true, decide_eq_true_eq] at held
  refine ⟨held.1, ?_⟩
  rcases stop_sectionsFrom mem with size | ⟨h, listed, stop⟩
  · rw [size]
    exact located.inside f among
  · have := located.apart f among h listed
    omega

/-- Chunks that begin with the parts of a fence, which belong to a symbol, and go on with what was found
inside it. -/
def EmitsFence (d : Document) (symbolId : String) (f : Fence) (chunks : List Chunk) : Prop :=
  ∃ (whole : Chunk) (budget : Nat) (lines : Option LineIndex) (inner : List Chunk),
    chunks = Split.chunk d.reading.count budget lines whole ++ inner ∧
      (whole.startOffset, whole.endOffset) = (f.start, f.stop) ∧
      whole.text = sliceText d.text f.start f.stop ∧
      whole.parentSymbolId = some symbolId ∧
      ∀ c ∈ inner, c.chunkId ≠ whole.chunkId

theorem emitsFence_delegate (d : Document) {q : Delegation.Request} {symbolId : String} {f : Fence}
    (text : q.text = slice d.text f.start f.stop) (start : q.startOffset = f.start)
    (stop : q.endOffset = f.stop) (parent : q.parentSymbol = some symbolId) :
    d.EmitsFence symbolId f (Delegation.delegate d.read d.reading d.path q).output.chunks := by
  have shell : (q.shell.startOffset, q.shell.endOffset) = (f.start, f.stop) ∧
      q.shell.text = sliceText d.text f.start f.stop ∧ q.shell.parentSymbolId = some symbolId :=
    ⟨congrArg₂ Prod.mk start stop, congrArg String.ofList text, parent⟩
  have plain (status : Delegation.Status) (warning : String) :
      d.EmitsFence symbolId f (Delegation.keepPlain d.reading q status warning).output.chunks :=
    ⟨{ q.shell with
        delegate := none
        metadata := Metadata.putStr (q.shell.metadata.erase "handler") "delegate_status" status.name },
      _, none, [], (List.append_nil _).symm, shell.1, shell.2.1, shell.2.2, by simp⟩
  unfold Delegation.delegate
  split
  · exact plain _ _
  · split
    · exact plain _ _
    · split
      · exact plain _ _
      · dsimp only
        split
        · exact ⟨q.shell, _, none, _, Delegation.merge_chunks _ _ _, shell.1, shell.2.1, shell.2.2,
            fun c mem => Delegation.foreign_taken mem⟩
        · exact plain _ _

theorem emitsFence_fence {f : Fence} (some : d.filled f = true) (symbolId sectionId : String) :
    d.EmitsFence symbolId f (d.fence symbolId sectionId f).chunks := by
  have solid : isAllBlank (slice d.text f.start f.stop) = false := by
    simpa only [filled, Bool.not_eq_true'] using some
  unfold fence
  simp only [solid, Bool.false_eq_true, if_false]
  split
  · exact emitsFence_delegate d rfl rfl rfl rfl
  · exact ⟨_, d.budget, _, [], (List.append_nil _).symm, rfl, rfl, rfl, by simp⟩

theorem fence_of_blank {f : Fence} (none : d.filled f = false) (symbolId sectionId : String) :
    (d.fence symbolId sectionId f).chunks = [] := by
  have blank : isAllBlank (slice d.text f.start f.stop) = true := by
    simpa only [filled, Bool.not_eq_false'] using none
  unfold fence
  simp only [blank, if_true]

/-! ### The whole document -/

/-- A document that is emitted once: by chunks that do not overlap and leave out only blanks, and by its
fences, each with the section that it stands in. -/
structure CoveredOnce (d : Document) : Prop where
  emitted : d.output.chunks =
    (d.frontWhole?.toList ++ d.bodyWhole?.toList).flatMap d.parts ++ d.sectionList.flatMap d.emitted
  headings : d.sectionList.map (·.heading) = d.outline.headings
  nonempty : ∀ w ∈ d.wholes, w.startOffset < w.endOffset ∧ w.endOffset ≤ d.size
  ordered : d.wholes.Pairwise fun a b => a.endOffset ≤ b.startOffset
  covers : ∀ pre c post, d.text = pre ++ c :: post → isBlank c = false →
    ∀ byte, byteLength pre ≤ byte → byte < byteLength pre + c.utf8Size →
      ∃ w ∈ d.wholes, w.startOffset ≤ byte ∧ byte < w.endOffset
  fences : d.outline.headings ≠ [] →
    ((d.sectionList.flatMap d.fencesIn).filter d.filled).Perm (d.outline.fences.filter d.filled)
  inside : ∀ s ∈ d.sectionList, ∀ f ∈ d.fencesIn s, s.start ≤ f.start ∧ f.stop ≤ s.stop
  fenced : ∀ s ∈ d.sectionList, ∀ f ∈ d.fencesIn s, if d.filled f
    then d.EmitsFence (headingId s.heading) f (d.fence (headingId s.heading) s.id f).chunks
    else (d.fence (headingId s.heading) s.id f).chunks = []

theorem span_frontWhole? {w : Chunk} (found : w ∈ d.frontWhole?) :
    w.startOffset = 0 ∧ 0 < w.endOffset ∧ w.endOffset = d.bodyStart := by
  obtain ⟨f, there, rfl⟩ := Option.map_eq_some_iff.1 found
  refine ⟨rfl, (frontMatter?_stop there).2, ?_⟩
  show f.stop = d.bodyStart
  rw [bodyStart, there]
  rfl

/-- Before the place where the body starts there is front matter. -/
theorem frontWhole?_of_lt {n : Nat} (less : n < d.bodyStart) : ∃ w, d.frontWhole? = some w := by
  unfold bodyStart at less
  cases found : frontMatter? d.text with
  | none =>
    rw [found] at less
    exact absurd less (Nat.not_lt_zero n)
  | some f => exact ⟨_, congrArg _ found⟩

/-- Bytes of characters that are not blank lie in one of the chunks. -/
theorem cover_wholes (placed : d.Placed d.outline.headings) {pre post : List Char} {c : Char}
    (split : d.text = pre ++ c :: post) (solid : isBlank c = false) {byte : Nat}
    (from_ : byteLength pre ≤ byte) (less : byte < byteLength pre + c.utf8Size) :
    ∃ w ∈ d.wholes, w.startOffset ≤ byte ∧ byte < w.endOffset := by
  by_cases front : byteLength pre < d.bodyStart
  · obtain ⟨w, found⟩ := frontWhole?_of_lt front
    obtain ⟨start, -, stop⟩ := span_frontWhole? found
    have := d.boundary_bodyStart.stop_le split front
    refine ⟨w, ?_, by omega, by omega⟩
    rw [wholes, found]
    exact List.mem_cons_self
  · obtain ⟨first, after, blank, tiles⟩ := tiles_rest placed
    have reached := blank pre c post split (Nat.le_of_not_lt front) solid
    have inside : byteLength pre + c.utf8Size ≤ d.size := by
      rw [size, split, byteLength_append, byteLength_cons]
      omega
    obtain ⟨b, mem, low, high⟩ := cover_of_tiles tiles (Nat.le_trans reached from_) (by omega)
    obtain ⟨w, there, rfl⟩ := List.mem_map.1 mem
    refine ⟨w, ?_, low, high⟩
    rw [wholes, List.append_assoc]
    exact List.mem_append_right _ there

theorem coveredOnce (located : d.Located) : d.CoveredOnce := by
  obtain ⟨first, after, -, tiles⟩ := tiles_rest located.placed
  have wholes : d.wholes =
      d.frontWhole?.toList ++ (d.bodyWhole?.toList ++ d.sectionList.map d.sectionWhole) :=
    List.append_assoc _ _ _
  have body : ∀ w ∈ d.bodyWhole?.toList ++ d.sectionList.map d.sectionWhole,
      first ≤ w.startOffset ∧ w.startOffset < w.endOffset ∧ w.endOffset ≤ d.size := by
    intro w mem
    have there := List.mem_map_of_mem (f := fun c : Chunk => (c.startOffset, c.endOffset)) mem
    exact ⟨le_of_tiles tiles there, lt_of_tiles tiles there, (last_of_tiles tiles).2 _ there⟩
  refine ⟨d.chunks_output, heading_sectionsFrom _ _, fun w mem => ?_, ?_,
    fun pre c post split solid byte from_ less => cover_wholes located.placed split solid from_ less,
    perm_fences located, fun s mem f there => stop_le_of_holds located mem there, fun s _ f _ => ?_⟩
  · rw [wholes, List.mem_append, Option.mem_toList] at mem
    rcases mem with mem | mem
    · obtain ⟨start, some, stop⟩ := span_frontWhole? mem
      have := d.boundary_bodyStart.le
      exact ⟨by omega, stop ▸ this⟩
    · exact (body w mem).2
  · rw [wholes]
    refine List.pairwise_append.2 ⟨?_, List.pairwise_map.1 (apart_of_tiles tiles), ?_⟩
    · cases d.frontWhole? <;> simp
    · intro a there b behind
      have := (span_frontWhole? (Option.mem_toList.1 there)).2.2
      have := (body b behind).1
      omega
  · split
    · rename_i some
      exact emitsFence_fence some _ _
    · rename_i none
      exact fence_of_blank (by simpa using none) _ _

/-- A document with front matter, an introduction with code, a section with code, and one without. -/
def handbook : Document where
  path := "a.md"
  text := "---\nx: 1\n---\n\n\x60\x60\x60\ni\n\x60\x60\x60\n# A\n\x60\x60\x60py\nc\n\x60\x60\x60\n## B\n".toList
  lines := LineIndex.ofText
    "---\nx: 1\n---\n\n\x60\x60\x60\ni\n\x60\x60\x60\n# A\n\x60\x60\x60py\nc\n\x60\x60\x60\n## B\n".toList
  reading := { Staging.guideReading with readers := { Staging.guideReading.readers with
    markdown _ := [⟨.fenceStart "", 1, 10⟩, ⟨.text "i\n", 5, 7⟩, ⟨.codeEnd, 1, 10⟩,
      ⟨.headingStart 1, 11, 15⟩, ⟨.text "A", 13, 14⟩, ⟨.headingEnd, 11, 15⟩,
      ⟨.fenceStart "py", 15, 26⟩, ⟨.text "c\n", 21, 23⟩, ⟨.codeEnd, 15, 26⟩,
      ⟨.headingStart 2, 27, 32⟩, ⟨.text "B", 30, 31⟩, ⟨.headingEnd, 27, 32⟩] } }
  budget := 100
  read := readSource

theorem located_handbook : handbook.Located where
  placed := ⟨by decide +kernel, by decide +kernel⟩
  boundary f mem := ⟨handbook.text.take f.start, List.take_prefix _ _,
    (by decide +kernel : ∀ f ∈ handbook.outline.fences,
      byteLength (handbook.text.take f.start) = f.start) f mem⟩
  inside := by decide +kernel
  apart := by decide +kernel

/-- The code of the introduction stands in the section of the first heading. -/
theorem handbook_coveredOnce : handbook.Located ∧
    handbook.wholes.map (fun w => (w.startOffset, w.endOffset)) = [(0, 13), (13, 40), (40, 45)] ∧
    handbook.sectionList.map (fun s => (handbook.fencesIn s).map fun f => (f.start, f.stop)) =
      [[(18, 20), (34, 36)], []] ∧
    (handbook.outline.fences.filter handbook.filled).length = 2 ∧ handbook.CoveredOnce :=
  ⟨located_handbook, by decide +kernel, by decide +kernel, by decide +kernel, coveredOnce located_handbook⟩

end Document

end Markdown
end SourceSlices
