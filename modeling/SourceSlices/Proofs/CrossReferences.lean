import SourceSlices.Markdown.Reader
import SourceSlices.Proofs.HeadingKeys
import SourceSlices.Proofs.SectionCover

/-!
Chunks that refer to headings. Fenced code names the symbol of its heading, and a section holds the line of
its heading. A result that is taken over gets other ids and lines, but under these keys nothing changes. So
the references of a document agree with its symbols exactly if no fenced code that goes to Markdown has a
heading of its own.
-/
namespace SourceSlices

/-- Fenced code names a symbol of the result, which it belongs to. A section belongs to the symbol of a
heading and holds the line of that symbol. -/
structure HandlerResult.CrossReferences (r : HandlerResult) : Prop where
  named : ∀ c ∈ r.chunks, ∀ v, c.metadata.find? "heading_symbol" = some v →
    ∃ y ∈ r.symbols, v = .str y.symbolId
  fenced : ∀ c ∈ r.chunks, c.metadata.find? "kind" = some (.str "fenced_code") →
    ∀ v, c.metadata.find? "heading_symbol" = some v → ∃ s, c.parentSymbolId = some s ∧ v = .str s
  sections : ∀ c ∈ r.chunks, c.metadata.find? "kind" = some (.str "section") →
    ∃ line, c.metadata.int? "heading_line" = some line ∧
      (∃ y ∈ r.symbols, c.parentSymbolId = some y.symbolId) ∧
      ∀ y ∈ r.symbols, c.parentSymbolId = some y.symbolId →
        y.kind = "heading" ∧ y.metadata.int? "line" = some line

namespace Markdown

/-- The language that the info text of a fence begins with. -/
def Fence.language (f : Fence) : String := String.ofList (((Text.words f.info.toList).head?).getD [])

namespace Document

variable {d : Document} {s : Section} {f : Fence} {c : Chunk} {y : Symbol}

/-! ### Ids -/

theorem slash_under (q : Delegation.Request) (id : String) : '/' ∈ (q.under id).toList := by
  rw [Delegation.Request.under, String.toList_append, String.toList_append]
  simp

theorem toList_headingId (h : Heading) :
    (headingId h).toList = "markdown:heading:".toList ++ Nat.toDigits 10 h.start := by
  have number : (toString h.start).toList = Nat.toDigits 10 h.start := Nat.toList_repr
  show ("markdown:heading:" ++ toString h.start).toList = _
  rw [String.toList_append, number]

theorem headingId_ne_under (h : Heading) (q : Delegation.Request) (id : String) :
    headingId h ≠ q.under id := by
  intro same
  have slash := slash_under q id
  rw [← same, toList_headingId, List.mem_append] at slash
  rcases slash with inside | digit
  · revert inside
    decide
  · have := Json.isDigit_toDigits digit
    revert this
    decide

theorem start_of_headingId {a b : Heading} (same : headingId a = headingId b) : a.start = b.start := by
  have lists := congrArg String.toList same
  rw [toList_headingId, toList_headingId, List.append_cancel_left_eq] at lists
  exact Json.toDigits_injective lists

/-! ### Symbols -/

def headingLine (d : Document) (h : Heading) : Int := min (d.lines.line h.start : Int) MetaValue.intMax

/-- The symbol of a heading. -/
structure IsHeading (d : Document) (h : Heading) (y : Symbol) : Prop where
  id : y.symbolId = headingId h
  kind : y.kind = "heading"
  line : y.metadata.int? "line" = some (d.headingLine h)

/-- What the fenced code in a section becomes. -/
def fenceOf (d : Document) (s : Section) (f : Fence) : Output := d.fence (headingId s.heading) s.id f

/-- The symbols of sections are those of their headings and those that their fences hold. -/
structure Gathers (d : Document) (sections : List Section) (symbols : List Symbol) : Prop where
  made : ∀ y ∈ symbols, ∃ s ∈ sections, d.IsHeading s.heading y ∨
    ∃ f ∈ d.fencesIn s, y ∈ (d.fenceOf s f).symbols
  heads : ∀ s ∈ sections, ∃ y ∈ symbols, d.IsHeading s.heading y
  fences : ∀ s ∈ sections, ∀ f ∈ d.fencesIn s, ∀ y ∈ (d.fenceOf s f).symbols, y ∈ symbols

theorem Gathers.cons {sections : List Section} {symbols own : List Symbol}
    (rest : d.Gathers sections symbols) (head : d.IsHeading s.heading y)
    (fenced : ∀ z, z ∈ own ↔ ∃ f ∈ d.fencesIn s, z ∈ (d.fenceOf s f).symbols) :
    d.Gathers (s :: sections) (y :: own ++ symbols) := by
  constructor
  · intro z mem
    rcases List.mem_append.1 mem with mem | mem
    · rcases List.mem_cons.1 mem with rfl | mem
      · exact ⟨s, List.mem_cons_self, .inl head⟩
      · exact ⟨s, List.mem_cons_self, .inr ((fenced z).1 mem)⟩
    · obtain ⟨s', there, of⟩ := rest.made z mem
      exact ⟨s', List.mem_cons_of_mem _ there, of⟩
  · intro s' mem
    rcases List.mem_cons.1 mem with rfl | mem
    · exact ⟨y, List.mem_append_left _ List.mem_cons_self, head⟩
    · obtain ⟨z, there, of⟩ := rest.heads s' mem
      exact ⟨z, List.mem_append_right _ there, of⟩
  · intro s' mem f there z inside
    rcases List.mem_cons.1 mem with rfl | mem
    · exact List.mem_append_left _ (List.mem_cons_of_mem _ ((fenced z).2 ⟨f, there, inside⟩))
    · exact List.mem_append_right _ (rest.fences s' mem f there z inside)

theorem isHeading_symbol (open' : List (Nat × String)) (h : Heading) (rest : List Heading) :
    ∃ y, d.headingSymbol open' h rest = .ofSymbol y ∧ d.IsHeading h y :=
  ⟨_, rfl, rfl, rfl, Metadata.int?_putNat _ _ _⟩

theorem gathers_sections (intro' : Option Nat) (open' : List (Nat × String)) (headings : List Heading) :
    d.Gathers (d.sectionsFrom intro' headings)
      (d.sections d.outline.fences intro' open' headings).symbols := by
  induction headings generalizing intro' open' with
  | nil => exact ⟨by simp [sections], by simp [sectionsFrom], by simp [sectionsFrom]⟩
  | cons h rest ih =>
    obtain ⟨y, symbol, head⟩ := d.isHeading_symbol (ancestors h.level open') h rest
    let s : Section :=
      ⟨intro'.getD h.start, ((rest.head?).map (·.start)).getD d.size, h, intro'.isSome⟩
    let later := (h.level, headingId h) :: ancestors h.level open'
    have fenced (z : Symbol) : z ∈ (Output.join ((d.fencesIn s).map (d.fenceOf s))).symbols ↔
        ∃ f ∈ d.fencesIn s, z ∈ (d.fenceOf s f).symbols := by
      simp [mem_symbols_join]
    have all : (d.sections d.outline.fences intro' open' (h :: rest)).symbols =
        y :: (Output.join ((d.fencesIn s).map (d.fenceOf s))).symbols ++
          (d.sections d.outline.fences none later rest).symbols := by
      show (d.headingSymbol (ancestors h.level open') h rest).symbols ++ _ ++ _ = _
      rw [symbol]
      rfl
    rw [all]
    exact (ih none later).cons (s := s) head fenced

theorem gathers_output (d : Document) : d.Gathers d.sectionList d.output.symbols := by
  cases headings : d.outline.headings with
  | nil =>
    have none : d.output.symbols = [] := by
      rw [output_plain headings]
      show d.frontOutput.symbols ++ (d.bodyChunk d.bodyStart).symbols = []
      rw [symbols_frontOutput, symbols_bodyChunk]
      rfl
    have empty : d.sectionList = [] := by
      rw [sectionList, headings]
      rfl
    rw [none, empty]
    exact ⟨by simp, by simp, by simp⟩
  | cons h rest =>
    have all : d.output.symbols = (d.sections d.outline.fences (d.introStart? h) [] (h :: rest)).symbols := by
      rw [output_sections headings]
      show d.frontOutput.symbols ++ _ = _
      rw [symbols_frontOutput, List.nil_append]
    rw [all, sectionList, headings]
    exact gathers_sections _ _ _

/-! ### Chunks -/

theorem find?_putLines_part {key : String} (other : key ∉ Split.partKeys) (m : Metadata)
    (lines : LineIndex) (start stop : Nat) : (m.putLines lines start stop).find? key = m.find? key := by
  simp only [Split.partKeys, List.mem_cons, not_or] at other
  exact Metadata.find?_putLines_ne other.1 other.2.1 lines start stop

/-- A part of a section. -/
structure PartOf (d : Document) (h : Heading) (c : Chunk) : Prop where
  parent : c.parentSymbolId = some (headingId h)
  kind : c.metadata.find? "kind" = some (.str "section")
  unnamed : c.metadata.find? "heading_symbol" = none
  line : c.metadata.int? "heading_line" = some (d.headingLine h)

/-- Fenced code that belongs to a heading and names it. -/
structure FencedUnder (h : Heading) (c : Chunk) : Prop where
  parent : c.parentSymbolId = some (headingId h)
  kind : c.metadata.find? "kind" = some (.str "fenced_code")
  named : c.metadata.find? "heading_symbol" = some (.str (headingId h))

theorem partOf_parts (mem : c ∈ d.parts (d.sectionWhole s)) : d.PartOf s.heading c := by
  obtain ⟨parent, kept⟩ := Split.kept_chunk mem
  have whole (key : String) (other : key ∉ Split.partKeys) : c.metadata.find? key =
      (Metadata.ofList [("kind", .str "section"), ("heading_title", .str s.heading.title),
        ("heading_level", .nat s.heading.level), ("heading_line", .nat (d.lines.line s.heading.start)),
        ("intro_attached", .bool s.intro)]).find? key :=
    (kept key other).trans (find?_putLines_part other _ _ _ _)
  constructor
  · exact parent
  · exact (whole "kind" (by decide)).trans (SortedMap.find?_ofList _ _)
  · exact (whole "heading_symbol" (by decide)).trans (SortedMap.find?_ofList _ _)
  · rw [Metadata.int?, whole "heading_line" (by decide), Metadata.ofList, SortedMap.find?_ofList]
    rfl

/-- The part that fenced code is handed over as. -/
def request (d : Document) (s : Section) (f : Fence) (delegate : String) : Delegation.Request where
  delegate := delegate
  parentHandler := "markdown"
  component := some "fence"
  text := Text.slice d.text f.start f.stop
  startOffset := f.start
  endOffset := f.stop
  startLine := d.lines.line f.start
  parentSymbol := some (headingId s.heading)
  parentChunk := some s.id
  metadata := Metadata.ofList [("kind", .str "fenced_code"), ("language", .str f.language),
    ("fence_info", .str f.info), ("heading_symbol", .str (headingId s.heading))]

theorem fenceOf_blank (blank : d.filled f = false) : d.fenceOf s f = {} := by
  have blank : Text.isAllBlank (Text.slice d.text f.start f.stop) = true := by
    simpa only [filled, Bool.not_eq_false'] using blank
  unfold fenceOf fence
  exact if_pos blank

theorem fenceOf_delegated (filled : d.filled f = true) {delegate : String}
    (language : d.reading.registry.delegateFor f.language = some delegate) : d.fenceOf s f =
      (Delegation.delegate d.read d.reading d.path (d.request s f delegate)).output := by
  have solid : Text.isAllBlank (Text.slice d.text f.start f.stop) = false := by
    simpa [Document.filled] using filled
  rw [Fence.language] at language
  unfold fenceOf fence
  simp only [solid, language, Bool.false_eq_true, if_false]
  rfl

/-- Fenced code without a handler stays with the document. -/
theorem fenceOf_kept (filled : d.filled f = true)
    (language : d.reading.registry.delegateFor f.language = none) : d.fenceOf s f =
      d.quietChunk ("markdown:fence:" ++ span f.start f.stop) f.start f.stop
        (some (headingId s.heading)) (d.request s f "").metadata := by
  have solid : Text.isAllBlank (Text.slice d.text f.start f.stop) = false := by
    simpa [Document.filled] using filled
  rw [Fence.language] at language
  unfold fenceOf fence
  simp only [solid, language, Bool.false_eq_true, if_false]
  rfl

theorem fencedUnder_of_kept {delegate : String} (parent : c.parentSymbolId = some (headingId s.heading))
    (kept : ∀ key ∈ headingKeys, c.metadata.find? key = (d.request s f delegate).metadata.find? key) :
    FencedUnder s.heading c where
  parent := parent
  kind := (kept "kind" (by decide)).trans (SortedMap.find?_ofList _ _)
  named := (kept "heading_symbol" (by decide)).trans (SortedMap.find?_ofList _ _)

/-- A chunk of fenced code belongs to the heading of its section, or was taken over. -/
theorem fence_chunk (mem : c ∈ (d.fenceOf s f).chunks) : FencedUnder s.heading c ∨
    d.filled f = true ∧ ∃ delegate, d.reading.registry.delegateFor f.language = some delegate ∧
      ∃ h, (d.request s f delegate).Goes d.reading h ∧
        ∃ inner ∈ (d.read h (d.reading.delegated (Text.slice d.text f.start f.stop)) d.path).chunks,
          c = (d.request s f delegate).takeChunk inner := by
  cases filled : d.filled f with
  | false =>
    rw [fenceOf_blank filled] at mem
    cases mem
  | true =>
    cases language : d.reading.registry.delegateFor f.language with
    | some delegate =>
      rw [fenceOf_delegated filled language] at mem
      rcases Delegation.delegate_chunk mem with ⟨parent, kept⟩ | taken
      · exact .inl (fencedUnder_of_kept parent kept)
      · exact .inr ⟨rfl, delegate, rfl, taken⟩
    | none =>
      rw [fenceOf_kept filled language] at mem
      obtain ⟨parent, kept⟩ := Split.kept_chunk mem
      have others : ∀ key ∈ headingKeys, key ∉ Split.partKeys := by decide
      left
      apply fencedUnder_of_kept (f := f) parent
      intro key named
      exact (kept key (others key named)).trans (find?_putLines_part (others key named) _ _ _ _)

theorem fence_symbol (mem : y ∈ (d.fenceOf s f).symbols) :
    ∃ (q : Delegation.Request) (inner : Symbol), y = q.takeSymbol inner := by
  cases filled : d.filled f with
  | false =>
    rw [fenceOf_blank filled] at mem
    cases mem
  | true =>
    cases language : d.reading.registry.delegateFor f.language with
    | some delegate =>
      rw [fenceOf_delegated filled language] at mem
      exact ⟨_, Delegation.delegate_symbol mem⟩
    | none =>
      rw [fenceOf_kept filled language] at mem
      cases mem

theorem unheaded_wholes (mem : c ∈ (d.frontWhole?.toList ++ d.bodyWhole?.toList).flatMap d.parts) :
    c.metadata.Unheaded := by
  obtain ⟨w, there, part⟩ := List.mem_flatMap.1 mem
  have others : ∀ key ∈ headingKeys, key ∉ Split.partKeys := by decide
  have whole : w.metadata.Unheaded := by
    rcases List.mem_append.1 there with front | body
    · obtain ⟨m, -, rfl⟩ := Option.map_eq_some_iff.1 (Option.mem_toList.1 front)
      have kind := (Metadata.unheaded_kind (by decide : "front_matter" ≠ "section")).putStr
        (by decide : "front_matter_format" ∉ headingKeys) m.format.name
      apply Metadata.Unheaded.putLines
      unfold frontMetadata
      dsimp only
      split
      · exact kind.put (by decide) _
      · exact kind
    · have found := Option.mem_toList.1 body
      unfold bodyWhole? at found
      split at found
      · cases found
        exact ((Metadata.unheaded_kind (by decide)).putStr (by decide) _).putLines _ _ _
      · cases found
  exact Metadata.unheaded_of_same
    (fun key named => (Split.kept_chunk part).2 key (others key named)) whole

theorem unheaded_output (flat : d.outline.headings = []) : d.output.Unheaded := by
  intro c mem
  have none : d.sectionList = [] := by
    rw [sectionList, flat]
    rfl
  rw [chunks_output, none, List.flatMap_nil, List.append_nil] at mem
  exact unheaded_wholes mem

/-! ### References -/

theorem isHeading_of_id (mem : y ∈ d.output.symbols) {h : Heading} (same : y.symbolId = headingId h) :
    d.IsHeading h y := by
  obtain ⟨s, -, head | ⟨f, -, inside⟩⟩ := d.gathers_output.made y mem
  · have start : s.heading.start = h.start := start_of_headingId (head.id.symm.trans same)
    refine ⟨same, head.kind, head.line.trans ?_⟩
    rw [headingLine, headingLine, start]
  · obtain ⟨q, inner, rfl⟩ := fence_symbol inside
    exact absurd same.symm (headingId_ne_under h q _)

/-- The references of chunks that are parts of sections, fenced code of sections, or neither. -/
theorem crossReferences_of_chunks {source : LoadedSource} (each : ∀ c ∈ d.output.chunks,
    c.metadata.Unheaded ∨ ∃ s ∈ d.sectionList, d.PartOf s.heading c ∨ FencedUnder s.heading c) :
    (d.output.toResult source).CrossReferences := by
  constructor
  · intro c mem v found
    rcases each c mem with quiet | ⟨s, there, part | fenced⟩
    · cases quiet.symbol.symm.trans found
    · cases part.unnamed.symm.trans found
    · obtain ⟨y, listed, head⟩ := d.gathers_output.heads s there
      refine ⟨y, listed, ?_⟩
      rw [head.id]
      exact Option.some.inj (found.symm.trans fenced.named)
  · intro c mem kind v found
    rcases each c mem with quiet | ⟨s, there, part | fenced⟩
    · cases quiet.symbol.symm.trans found
    · cases part.unnamed.symm.trans found
    · exact ⟨_, fenced.parent, Option.some.inj (found.symm.trans fenced.named)⟩
  · intro c mem kind
    rcases each c mem with quiet | ⟨s, there, part | fenced⟩
    · exact absurd kind quiet.kind
    · refine ⟨d.headingLine s.heading, part.line, ?_, ?_⟩
      · obtain ⟨y, listed, head⟩ := d.gathers_output.heads s there
        exact ⟨y, listed, part.parent.trans (congrArg some head.id.symm)⟩
      · intro y listed same
        have id : y.symbolId = headingId s.heading :=
          Option.some.inj (same.symm.trans part.parent)
        have head := isHeading_of_id listed id
        exact ⟨head.kind, head.line⟩
    · have same := Option.some.inj (kind.symm.trans fenced.kind)
      exact absurd (MetaValue.str.inj same) (by decide)

/-- The document that a text is read as. -/
def ofText (r : Reading) (path : String) (text : List Char) : Document :=
  ⟨path, text, LineIndex.ofText text, r, r.maxTokens "markdown",
    readWithin (r.config.maxDelegationDepth - r.depth)⟩

/-- The document inside fenced code. -/
def inside (d : Document) (f : Fence) : Document :=
  ofText (d.reading.delegated (Text.slice d.text f.start f.stop)) d.path
    (Text.slice d.text f.start f.stop)

/-- Fenced code of a section that is handed to Markdown. -/
structure Nests (d : Document) (s : Section) (f : Fence) : Prop where
  shown : s ∈ d.sectionList
  held : f ∈ d.fencesIn s
  filled : d.filled f = true
  language : d.reading.registry.delegateFor f.language = some "markdown"
  available : d.reading.registry.isAvailable "markdown" = true
  allowed : d.reading.depth < d.reading.config.maxDelegationDepth

theorem read_ofText {r : Reading} {path : String} {source : LoadedSource}
    (loaded : r.load path "markdown" = .ok source) :
    readSource .markdown r path = (ofText r path source.text).output.toResult source := by
  show Markdown.read _ r path = _
  unfold Markdown.read
  rw [loaded]
  rfl

/-- What Markdown makes of fenced code that it is handed. -/
theorem read_inside {r : Reading} {path : String} {text : List Char} (made : d = ofText r path text)
    (allowed : d.reading.depth < d.reading.config.maxDelegationDepth) (f : Fence) :
    ∃ source, d.read .markdown (d.reading.delegated (Text.slice d.text f.start f.stop)) d.path =
      (d.inside f).output.toResult source := by
  subst made
  change r.depth < r.config.maxDelegationDepth at allowed
  have fuel : r.config.maxDelegationDepth - r.depth =
      r.config.maxDelegationDepth - (r.depth + 1) + 1 := by omega
  obtain ⟨source, loaded, view⟩ : ∃ source,
      (r.delegated (Text.slice text f.start f.stop)).load path "markdown" = .ok source ∧
        source.text = Text.slice text f.start f.stop := ⟨_, rfl, rfl⟩
  have own := read_ofText loaded
  rw [view] at own
  refine ⟨source, Eq.trans ?_ own⟩
  show readWithin (r.config.maxDelegationDepth - r.depth) _ _ _ = _
  rw [fuel]
  rfl

section Nesting

variable {r : Reading} {path : String} {text : List Char}

theorem instantiate_markdown (languages : r.registry.descriptors = Descriptor.defaults) :
    r.registry.instantiate "markdown" = .ok .markdown := by
  unfold Registry.instantiate Registry.find?
  rw [languages]
  rfl

/-- If no fenced code that goes to Markdown has headings, only the document's own chunks name any. -/
theorem chunk_of_flat (languages : r.registry.descriptors = Descriptor.defaults)
    (flat : ∀ s f, (ofText r path text).Nests s f → ((ofText r path text).inside f).outline.headings = [])
    (mem : c ∈ (ofText r path text).output.chunks) : c.metadata.Unheaded ∨
      ∃ s ∈ (ofText r path text).sectionList, (ofText r path text).PartOf s.heading c ∨
        FencedUnder s.heading c := by
  rw [chunks_output] at mem
  rcases List.mem_append.1 mem with own | below
  · exact .inl (unheaded_wholes own)
  · obtain ⟨s, shown, emitted⟩ := List.mem_flatMap.1 below
    rcases List.mem_append.1 emitted with part | fenced
    · exact .inr ⟨s, shown, .inl (partOf_parts part)⟩
    · obtain ⟨f, held, there⟩ := List.mem_flatMap.1 fenced
      rcases fence_chunk there with named | ⟨filled, delegate, language, h, goes, inner, found, rfl⟩
      · exact .inr ⟨s, shown, .inr named⟩
      · left
        apply Delegation.unheaded_taken
        by_cases markdown : delegate = "markdown"
        · subst markdown
          obtain rfl : h = .markdown :=
            Except.ok.inj (goes.found.symm.trans (instantiate_markdown languages))
          have nests : (ofText r path text).Nests s f :=
            ⟨shown, held, filled, language, goes.available, goes.allowed⟩
          obtain ⟨source, read⟩ := read_inside rfl goes.allowed f
          rw [read] at found
          exact unheaded_output (flat s f nests) inner found
        · exact unheaded_readWithin _ (mem_languages languages goes.found)
            (not_markdown languages markdown goes.found) (r := r.delegated _) languages path inner found

/-- Fenced code that is handed to Markdown becomes its part and what Markdown makes of it. -/
theorem fenceOf_nests (languages : r.registry.descriptors = Descriptor.defaults)
    (nests : (ofText r path text).Nests s f) : ∃ source, (ofText r path text).fenceOf s f =
      Delegation.merge r ((ofText r path text).request s f "markdown")
        (((ofText r path text).inside f).output.toResult source) := by
  obtain ⟨source, read⟩ := read_inside rfl nests.allowed f
  have goes : ((ofText r path text).request s f "markdown").Goes r .markdown :=
    ⟨nests.available, nests.allowed, instantiate_markdown languages⟩
  refine ⟨source, ?_⟩
  rw [fenceOf_delegated nests.filled nests.language]
  refine (Delegation.delegate_merged goes ?_).trans ?_
  · exact congrArg HandlerResult.errors read
  · exact congrArg (Delegation.merge r _) read

theorem taken_chunk (languages : r.registry.descriptors = Descriptor.defaults)
    (nests : (ofText r path text).Nests s f)
    (mem : c ∈ ((ofText r path text).inside f).output.chunks) :
    ((ofText r path text).request s f "markdown").takeChunk c ∈ (ofText r path text).output.chunks := by
  obtain ⟨source, merged⟩ := fenceOf_nests languages nests
  have fenced : ((ofText r path text).request s f "markdown").takeChunk c ∈
      ((ofText r path text).fenceOf s f).chunks := by
    rw [merged]
    exact List.mem_append_right _ (List.mem_map_of_mem mem)
  rw [chunks_output]
  apply List.mem_append_right
  apply List.mem_flatMap.2
  exact ⟨s, nests.shown, List.mem_append_right _ (List.mem_flatMap.2 ⟨f, nests.held, fenced⟩)⟩

theorem taken_symbol (languages : r.registry.descriptors = Descriptor.defaults)
    (nests : (ofText r path text).Nests s f)
    (mem : y ∈ ((ofText r path text).inside f).output.symbols) :
    ((ofText r path text).request s f "markdown").takeSymbol y ∈
      (ofText r path text).output.symbols := by
  obtain ⟨source, merged⟩ := fenceOf_nests languages nests
  apply (ofText r path text).gathers_output.fences s nests.shown f nests.held
  rw [merged]
  exact List.mem_map_of_mem mem

/-- A document with headings has a part of a section, and the symbol that it belongs to. -/
theorem exists_part (noText : d.reading.count [] = 0) (some : d.outline.headings ≠ []) :
    ∃ h, ∃ c ∈ d.output.chunks, ∃ y ∈ d.output.symbols, d.PartOf h c ∧ d.IsHeading h y := by
  obtain ⟨s, listed⟩ : ∃ s, s ∈ d.sectionList := by
    have headings := d.heading_sectionsFrom ((d.outline.headings.head?).bind d.introStart?)
      d.outline.headings
    apply List.exists_mem_of_ne_nil
    intro none
    rw [← sectionList, none] at headings
    exact some headings.symm
  obtain ⟨c, part⟩ := List.exists_mem_of_ne_nil _
    (Split.chunk_ne_nil noText d.budget (.some d.lines) (d.sectionWhole s))
  obtain ⟨y, symbol, head⟩ := d.gathers_output.heads s listed
  have emitted : c ∈ d.emitted s := List.mem_append_left _ part
  refine ⟨s.heading, c, ?_, y, symbol, partOf_parts part, head⟩
  rw [chunks_output]
  exact List.mem_append_right _ (List.mem_flatMap.2 ⟨s, listed, emitted⟩)

/-- A heading inside fenced code is taken over under a line of the file, but its section goes on to hold
the line that it has in the code. -/
theorem flat_of_crossReferences (languages : r.registry.descriptors = Descriptor.defaults)
    (noText : r.count [] = 0) {source : LoadedSource}
    (refs : ((ofText r path text).output.toResult source).CrossReferences)
    (nests : (ofText r path text).Nests s f) (late : 1 < (LineIndex.ofText text).line f.start) :
    ((ofText r path text).inside f).outline.headings = [] := by
  by_contra some
  obtain ⟨h, p, chunk, y, symbol, part, head⟩ := exists_part noText some
  let q := (ofText r path text).request s f "markdown"
  have kind : (q.takeChunk p).metadata.find? "kind" = .some (.str "section") :=
    (Delegation.find?_takeChunk (by decide) (by decide)).trans part.kind
  have parent : (q.takeChunk p).parentSymbolId = .some (q.takeSymbol y).symbolId := by
    refine (Delegation.adopt_owner q q.under _ p).trans ?_
    rw [part.parent]
    exact congrArg (fun id => Option.some (q.under id)) head.id.symm
  obtain ⟨line, recorded, -, agree⟩ :=
    refs.sections (q.takeChunk p) (taken_chunk languages nests chunk) kind
  have stays : line = ((ofText r path text).inside f).headingLine h := by
    rw [Metadata.int?, Delegation.find?_takeChunk (by decide) (by decide), ← Metadata.int?,
      part.line] at recorded
    exact (Option.some.inj recorded).symm
  have moves : line =
      ((ofText r path text).inside f).headingLine h + ((q.startLine - 1 : Nat) : Int) := by
    have moved := (agree (q.takeSymbol y) (taken_symbol languages nests symbol) parent).2
    rw [Delegation.Request.takeSymbol, Delegation.int?_adoptSymbol (by decide), head.line] at moved
    exact (Option.some.inj moved).symm
  have shift : 0 < q.startLine - 1 := by
    change 0 < (LineIndex.ofText text).line f.start - 1
    omega
  omega

end Nesting

/-- Chunks refer to the symbols of their headings, and sections hold the lines of them, exactly if no fenced
code that is handed to Markdown has a heading of its own. Fenced code stands below the line that opens it. -/
theorem references_survive_iff {r : Reading}
    (languages : r.registry.descriptors = Descriptor.defaults) (noText : r.count [] = 0)
    {path : String} {source : LoadedSource} (loaded : r.load path "markdown" = .ok source)
    (late : ∀ s f, (ofText r path source.text).Nests s f →
      1 < (LineIndex.ofText source.text).line f.start) :
    (readSource .markdown r path).CrossReferences ↔
      ∀ s f, (ofText r path source.text).Nests s f →
        ((ofText r path source.text).inside f).outline.headings = [] := by
  rw [read_ofText loaded]
  constructor
  · intro refs s f nests
    exact flat_of_crossReferences languages noText refs nests (late s f nests)
  · intro flat
    apply crossReferences_of_chunks
    intro c mem
    exact chunk_of_flat languages flat mem

/-! ### Documents in documents -/

/-- A reading of a text with the Markdown grammar. -/
def bookReading (text : String) : Reading :=
  { Staging.guideReading with
    readers := { Staging.guideReading.readers with markdown := events }
    view := some text.toList }

def plainBook : String := "# A\n\x60\x60\x60markdown\nplain\n\x60\x60\x60\n"

theorem nests_plainBook :
    ∃ s f, (ofText (bookReading plainBook) "a.md" plainBook.toList).Nests s f := by
  let d := ofText (bookReading plainBook) "a.md" plainBook.toList
  have nested : ∃ s ∈ d.sectionList, ∃ f ∈ d.fencesIn s, d.filled f = true ∧
      d.reading.registry.delegateFor f.language = some "markdown" := by decide +kernel
  obtain ⟨s, shown, f, held, filled, language⟩ := nested
  exact ⟨s, f, shown, held, filled, language, by decide +kernel, by decide⟩

/-- Fenced Markdown without a heading leaves the references as they are. -/
theorem plain_book_keeps_references :
    (∃ s f, (ofText (bookReading plainBook) "a.md" plainBook.toList).Nests s f) ∧
      (readSource .markdown (bookReading plainBook) "a.md").CrossReferences := by
  let d := ofText (bookReading plainBook) "a.md" plainBook.toList
  have flat : ∀ s ∈ d.sectionList, ∀ f ∈ d.fencesIn s, 1 < (LineIndex.ofText d.text).line f.start ∧
      (d.inside f).outline.headings.isEmpty = true := by decide +kernel
  refine ⟨nests_plainBook, (references_survive_iff (r := bookReading plainBook) rfl rfl rfl ?_).2 ?_⟩
  · intro s f nests
    exact (flat s nests.shown f nests.held).1
  · intro s f nests
    exact List.isEmpty_iff.1 (flat s nests.shown f nests.held).2

def nestedBook : String :=
  "# Outer\n\n\x60\x60\x60\x60markdown\n# Inner\n\n\x60\x60\x60cobol\nx\n\x60\x60\x60\n\x60\x60\x60\x60\n"

def nestedResult : HandlerResult := readSource .markdown (bookReading nestedBook) "README.md"

/-- The code inside the code names the heading around it, and the section there holds line 1 for a heading
in line 4. -/
theorem nested_heading_loses_references : ¬ nestedResult.CrossReferences ∧
    (∃ c ∈ nestedResult.chunks, c.metadata.find? "kind" = some (.str "fenced_code") ∧
      c.metadata.find? "heading_symbol" = some (.str "markdown:heading:0") ∧
      c.parentSymbolId = some "markdown:delegate:markdown:fence:22:46/markdown:heading:0") ∧
    ∃ c ∈ nestedResult.chunks, c.metadata.find? "kind" = some (.str "section") ∧
      c.metadata.int? "heading_line" = some 1 ∧ ∃ y ∈ nestedResult.symbols,
        c.parentSymbolId = some y.symbolId ∧ y.metadata.int? "line" = some 4 := by
  have found : (∃ c ∈ nestedResult.chunks, c.metadata.find? "kind" = some (.str "fenced_code") ∧
      c.metadata.find? "heading_symbol" = some (.str "markdown:heading:0") ∧
      c.parentSymbolId = some "markdown:delegate:markdown:fence:22:46/markdown:heading:0") ∧
    ∃ c ∈ nestedResult.chunks, c.metadata.find? "kind" = some (.str "section") ∧
      c.metadata.int? "heading_line" = some 1 ∧ ∃ y ∈ nestedResult.symbols,
        c.parentSymbolId = some y.symbolId ∧ y.metadata.int? "line" = some 4 := by decide +kernel
  refine ⟨fun refs => ?_, found⟩
  obtain ⟨-, c, mem, kind, held, y, listed, parent, shown⟩ := found
  obtain ⟨line, recorded, -, agree⟩ := refs.sections c mem kind
  have four := Option.some.inj ((agree y listed parent).2.symm.trans shown)
  have one := Option.some.inj (recorded.symm.trans held)
  omega

end Document

end Markdown

end SourceSlices
