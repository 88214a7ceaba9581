import SourceSlices.Proofs.DelegatedIds

/-!
Lines after a chain of delegations. A part of a part is again one slice of the file, the lines before it
add up, and what is taken over is moved by all of them. So the lines of a span in the innermost text become
the lines of the same span in the file, and they lie within those of every part around it.
-/
namespace SourceSlices

open Text

/-! ### Lines of a slice -/

namespace LineIndex

theorem line_zero (cs : List Char) : (ofText cs).line 0 = 1 := by
  rw [line_ofText, takeBytes_zero]
  rfl

/-- A line of a slice lies so many lines further down as there are line feeds before the slice. -/
theorem line_inside (pre part post : List Char) {n : Nat} (inside : n ≤ byteLength part) :
    (ofText (pre ++ (part ++ post))).line (byteLength pre + n) =
      (ofText part).line n + pre.count '\n' := by
  rw [line_ofText, line_ofText, takeBytes_add, takeBytes_of_le inside, List.count_append]
  omega

theorem line_at (pre part post : List Char) :
    (ofText (pre ++ (part ++ post))).line (byteLength pre) = pre.count '\n' + 1 := by
  have start := line_inside pre part post (Nat.zero_le _)
  rw [line_zero, Nat.add_zero] at start
  omega

theorem span_inside (pre : List Char) {part : List Char} (post : List Char) {start stop : Nat}
    (some : start < stop) (inside : stop ≤ byteLength part) :
    (ofText (pre ++ (part ++ post))).span (byteLength pre + start) (byteLength pre + stop) =
      (((ofText part).span start stop).1 + pre.count '\n',
        ((ofText part).span start stop).2 + pre.count '\n') := by
  have last : byteLength pre + stop - 1 = byteLength pre + (stop - 1) := by omega
  rw [span_of_lt _ some, span_of_lt _ (by omega), last,
    line_inside pre part post (by omega), line_inside pre part post (by omega)]

end LineIndex

/-- Metadata with the lines of a span of a text. -/
def Metadata.HasLines (m : Metadata) (text : List Char) (start stop : Nat) : Prop :=
  m.int? "start_line" = some (((LineIndex.ofText text).span start stop).1 : Int) ∧
    m.int? "end_line" = some (((LineIndex.ofText text).span start stop).2 : Int)

/-- Lines that lie within the lines that other metadata have. -/
def Metadata.LinesWithin (m outer : Metadata) : Prop :=
  ∃ first last first' last' : Int, m.int? "start_line" = some first ∧ m.int? "end_line" = some last ∧
    outer.int? "start_line" = some first' ∧ outer.int? "end_line" = some last' ∧
    first' ≤ first ∧ last ≤ last'

namespace Metadata

instance (m : Metadata) (text : List Char) (start stop : Nat) : Decidable (m.HasLines text start stop) :=
  inferInstanceAs (Decidable (_ ∧ _))

variable {m outer : Metadata} {text : List Char} {start stop : Nat}

theorem linesWithin_of_span (own : m.HasLines text start stop) {start' stop' : Nat}
    (around : outer.HasLines text start' stop') (some : start < stop) (first : start' ≤ start)
    (last : stop ≤ stop') : m.LinesWithin outer := by
  obtain ⟨ownFirst, ownLast⟩ := own
  obtain ⟨outerFirst, outerLast⟩ := around
  rw [LineIndex.span_of_lt _ some] at ownFirst ownLast
  rw [LineIndex.span_of_lt _ (by omega)] at outerFirst outerLast
  have above := LineIndex.line_mono text first
  have below : (LineIndex.ofText text).line (stop - 1) ≤ (LineIndex.ofText text).line (stop' - 1) :=
    LineIndex.line_mono text (by omega)
  exact ⟨_, _, _, _, ownFirst, ownLast, outerFirst, outerLast, Int.ofNat_le.2 above,
    Int.ofNat_le.2 below⟩

end Metadata

namespace Delegation

/-! ### Chains of delegations -/

/-- A part that is handed over while a handler reads a view. -/
structure Handover where
  view : List Char
  read : ReadSource
  reading : Reading
  path : String
  request : Request
  handler : Handler

namespace Handover

/-- What the other handler finds in the part. -/
def result (h : Handover) : HandlerResult := h.read h.handler (h.reading.delegated h.request.text) h.path

def outcome (h : Handover) : Outcome := delegate h.read h.reading h.path h.request

/-- The chunks of the part itself. -/
def parts (h : Handover) : List Chunk := h.request.parts h.reading

/-- The part is the slice of the view at its offset, begins in the line of that offset, and another handler
takes it. -/
structure Exact (h : Handover) : Prop where
  slice : ∃ pre post, h.view = pre ++ (h.request.text ++ post) ∧ h.request.startOffset = byteLength pre
  line : h.request.startLine = (LineIndex.ofText h.view).line h.request.startOffset
  found : h.reading.registry.instantiate h.request.delegate = .ok h.handler
  done : h.outcome.status = .delegated

/-- Handovers one inside the other, the innermost one first. The outermost one reads the file; the others
read the part around them, and what they make of theirs is among what is found there. -/
inductive Nested (file : List Char) (final : Output) : Handover → List Handover → Prop
  | outermost {h : Handover} (exact : h.Exact) (view : h.view = file) (made : h.outcome.output = final) :
      Nested file final h []
  | inside {h outer : Handover} {above : List Handover} (exact : h.Exact)
      (view : h.view = outer.request.text) (chunks : h.outcome.output.chunks ⊆ outer.result.chunks)
      (symbols : h.outcome.output.symbols ⊆ outer.result.symbols)
      (nested : Nested file final outer above) : Nested file final h (outer :: above)

/-- Where the innermost part begins in the file. -/
def offset : List Handover → Nat
  | [] => 0
  | h :: above => offset above + h.request.startOffset

/-- The lines before the innermost part. -/
def linesAbove : List Handover → Nat
  | [] => 0
  | h :: above => linesAbove above + (h.request.startLine - 1)

/-- A chunk that is taken over by one handover after the other. -/
def carryChunk : List Handover → Chunk → Chunk
  | [], c => c
  | h :: above, c => carryChunk above (h.request.takeChunk c)

def carrySymbol : List Handover → Symbol → Symbol
  | [], y => y
  | h :: above, y => carrySymbol above (h.request.takeSymbol y)

/-- Lines within those of every part that is handed over on the way out. -/
def Enclosed (final : Output) (m : Metadata) : List Handover → Prop
  | [] => True
  | h :: above => h.parts ≠ [] ∧
      (∀ p ∈ h.parts, carryChunk above p ∈ final.chunks ∧ m.LinesWithin (carryChunk above p).metadata) ∧
      Enclosed final m above

/-- Metadata that have the lines of a span of the innermost part in the file. -/
structure FileLines (file : List Char) (final : Output) (chain : List Handover) (m : Metadata)
    (start stop : Nat) : Prop where
  lines : m.HasLines file (offset chain + start) (offset chain + stop)
  enclosed : Enclosed final m chain

variable {file : List Char} {final : Output} {h outer : Handover} {above : List Handover}
  {key : String} {start stop : Nat}

/-! ### One handover -/

theorem output_eq (exact : h.Exact) : h.outcome.output = merge h.reading h.request h.result := by
  obtain ⟨handler, found, output⟩ := delegate_done exact.done
  obtain rfl := Except.ok.inj (exact.found.symm.trans found)
  exact output

theorem takeChunk_mem (exact : h.Exact) {c : Chunk} (mem : c ∈ h.result.chunks) :
    h.request.takeChunk c ∈ h.outcome.output.chunks := by
  rw [output_eq exact, merge_chunks]
  exact List.mem_append_right _ (List.mem_map_of_mem mem)

theorem takeSymbol_mem (exact : h.Exact) {y : Symbol} (mem : y ∈ h.result.symbols) :
    h.request.takeSymbol y ∈ h.outcome.output.symbols := by
  rw [output_eq exact]
  exact List.mem_map_of_mem (f := h.request.takeSymbol) mem

theorem parts_mem (exact : h.Exact) {p : Chunk} (mem : p ∈ h.parts) :
    p ∈ h.outcome.output.chunks := by
  rw [output_eq exact, merge_chunks]
  exact List.mem_append_left _ mem

theorem length_le_view (exact : h.Exact) :
    h.request.startOffset + byteLength h.request.text ≤ byteLength h.view := by
  obtain ⟨pre, post, view, start⟩ := exact.slice
  rw [view, start, byteLength_append, byteLength_append]
  omega

theorem int?_parts (mem : key ∈ ["start_line", "end_line"]) {p : Chunk} (part : p ∈ h.parts) :
    p.metadata.int? key = h.request.shell.metadata.int? key := by
  have kept : ∀ key ∈ ["start_line", "end_line"], key ∉ Split.markKeys := by decide
  obtain ⟨index, piece, -, same⟩ := Split.mem_chunk part
  rw [same, Metadata.int?, Split.partChunk_metadata, Split.find?_marked (kept key mem)]
  rfl

theorem int?_shell_first (q : Request) :
    q.shell.metadata.int? "start_line" = some (min (q.startLine : Int) MetaValue.intMax) :=
  (Metadata.int?_put_ne (by decide) _).trans (Metadata.int?_putNat _ _ _)

/-- The last line that is recorded for a part is that of its last byte. -/
theorem int?_shell_last (exact : h.Exact) (some : h.request.text ≠ []) :
    h.request.shell.metadata.int? "end_line" = Option.some (min ((LineIndex.ofText h.view).line
      (h.request.startOffset + (byteLength h.request.text - 1)) : Int) MetaValue.intMax) := by
  obtain ⟨pre, post, view, start⟩ := exact.slice
  have first := LineIndex.line_at pre h.request.text post
  have last := LineIndex.line_inside pre h.request.text post (Nat.sub_le _ 1)
  rw [← view, ← start] at first last
  have ends : h.request.startLine +
      ((LineIndex.ofText h.request.text).span 0 (byteLength h.request.text)).2 - 1 =
      (LineIndex.ofText h.view).line (h.request.startOffset + (byteLength h.request.text - 1)) := by
    rw [exact.line, LineIndex.span_of_lt _ (byteLength_pos some), last]
    omega
  rw [← ends]
  exact Metadata.int?_putNat _ _ _

theorem hasLines_parts (exact : h.Exact) (fits : (byteLength h.view : Int) ≤ MetaValue.intMax)
    (some : h.request.text ≠ []) {p : Chunk} (part : p ∈ h.parts) :
    p.metadata.HasLines h.view h.request.startOffset
      (h.request.startOffset + byteLength h.request.text) := by
  have filled := byteLength_pos some
  have inside := length_le_view exact
  have low := LineIndex.line_le h.view h.request.startOffset
  have high := LineIndex.line_le h.view (h.request.startOffset + (byteLength h.request.text - 1))
  rw [Metadata.HasLines, int?_parts (by decide) part, int?_parts (by decide) part, int?_shell_first,
    int?_shell_last exact some, exact.line, LineIndex.span_of_lt _ (by omega),
    Nat.add_sub_assoc filled, Int.min_eq_left (by omega), Int.min_eq_left (by omega)]
  exact ⟨rfl, rfl⟩

theorem parts_some (some : h.request.text ≠ []) : h.parts ≠ [] := by
  rw [← text_shell] at some
  exact mt Split.chunk_eq_nil_iff.1 (Split.byTokens_ne_nil_of_text _ _ some)

/-! ### Chains -/

theorem map_linesAbove_nil (line : Option Int) : line.map (· + (linesAbove [] : Int)) = line := by
  cases line with
  | none => rfl
  | some n => simp [linesAbove]

/-- A number that is moved by one handover and then by those above it is moved by all of them. -/
theorem map_linesAbove_cons (h : Handover) (above : List Handover) (line : Option Int) :
    (line.map (· + ((h.request.startLine - 1 : Nat) : Int))).map (· + (linesAbove above : Int)) =
      line.map (· + (linesAbove (h :: above) : Int)) := by
  cases line with
  | none => rfl
  | some n =>
    simp only [Option.map_some, linesAbove, Option.some.injEq]
    omega

theorem int?_carryChunk (mem : key ∈ lineKeys) (chain : List Handover) (c : Chunk) :
    (carryChunk chain c).metadata.int? key =
      (c.metadata.int? key).map (· + (linesAbove chain : Int)) := by
  induction chain generalizing c with
  | nil => rw [map_linesAbove_nil, carryChunk]
  | cons h above ih =>
    rw [carryChunk, ih, Request.takeChunk, int?_adoptChunk mem, map_linesAbove_cons]

theorem int?_carrySymbol (mem : key ∈ lineKeys) (chain : List Handover) (y : Symbol) :
    (carrySymbol chain y).metadata.int? key =
      (y.metadata.int? key).map (· + (linesAbove chain : Int)) := by
  induction chain generalizing y with
  | nil => rw [map_linesAbove_nil, carrySymbol]
  | cons h above ih =>
    rw [carrySymbol, ih, Request.takeSymbol, int?_adoptSymbol mem, map_linesAbove_cons]

theorem carryChunk_mem (nested : Nested file final h above) {c : Chunk} (mem : c ∈ h.result.chunks) :
    carryChunk (h :: above) c ∈ final.chunks := by
  induction nested generalizing c with
  | outermost exact _ made => exact made ▸ takeChunk_mem exact mem
  | inside exact _ chunks _ _ ih => exact ih (chunks (takeChunk_mem exact mem))

theorem carrySymbol_mem (nested : Nested file final h above) {y : Symbol} (mem : y ∈ h.result.symbols) :
    carrySymbol (h :: above) y ∈ final.symbols := by
  induction nested generalizing y with
  | outermost exact _ made => exact made ▸ takeSymbol_mem exact mem
  | inside exact _ _ symbols _ ih => exact ih (symbols (takeSymbol_mem exact mem))

theorem lines_before (exact : h.Exact) : ∃ pre post, h.view = pre ++ (h.request.text ++ post) ∧
    byteLength pre = h.request.startOffset ∧ pre.count '\n' = h.request.startLine - 1 := by
  obtain ⟨pre, post, slice, start⟩ := exact.slice
  have line := exact.line
  rw [start, slice, LineIndex.line_at] at line
  exact ⟨pre, post, slice, start.symm, Nat.eq_sub_of_add_eq line.symm⟩

/-- A part of a part is one slice of the file, and the lines before it add up. -/
theorem slice_of_file (nested : Nested file final h above) :
    ∃ pre post, file = pre ++ (h.request.text ++ post) ∧ byteLength pre = offset (h :: above) ∧
      pre.count '\n' = linesAbove (h :: above) := by
  induction nested with
  | outermost exact view =>
    obtain ⟨pre, post, slice, start, lines⟩ := lines_before exact
    refine ⟨pre, post, view ▸ slice, ?_, ?_⟩
    · rw [start, offset, offset, Nat.zero_add]
    · rw [lines, linesAbove, linesAbove, Nat.zero_add]
  | inside exact view _ _ _ ih =>
    obtain ⟨pre, post, slice, start, lines⟩ := lines_before exact
    obtain ⟨pre', post', outer, start', lines'⟩ := ih
    refine ⟨pre' ++ pre, post ++ post', ?_, ?_, ?_⟩
    · rw [outer, ← view, slice]
      simp only [List.append_assoc]
    · rw [byteLength_append, start', start]
      rfl
    · rw [List.count_append, lines', lines]
      rfl

/-- Metadata with the lines of a span of the innermost part that are moved by all lines above it have the
lines of that span in the file. -/
theorem hasLines_moved (nested : Nested file final h above) {m m' : Metadata}
    (own : m.HasLines h.request.text start stop) (some : start < stop)
    (inside : stop ≤ byteLength h.request.text)
    (moved : ∀ key ∈ lineKeys, m'.int? key = (m.int? key).map (· + (linesAbove (h :: above) : Int))) :
    m'.HasLines file (offset (h :: above) + start) (offset (h :: above) + stop) := by
  obtain ⟨pre, post, slice, begin', lines⟩ := slice_of_file nested
  obtain ⟨first, last⟩ := own
  have span := LineIndex.span_inside pre post some inside
  rw [Metadata.HasLines, moved _ (by decide), moved _ (by decide), first, last, ← begin', ← lines, slice,
    span]
  exact ⟨rfl, rfl⟩

theorem length_le_file (nested : Nested file final h above) :
    offset (h :: above) + byteLength h.request.text ≤ byteLength file := by
  obtain ⟨pre, post, slice, begin', -⟩ := slice_of_file nested
  rw [slice, ← begin', byteLength_append, byteLength_append]
  omega

/-- The parts of every part of a part are in the output, with the lines of the part in the file. -/
theorem parts_of_file (fits : (byteLength file : Int) ≤ MetaValue.intMax)
    (nested : Nested file final h above) (some : h.request.text ≠ []) {p : Chunk} (part : p ∈ h.parts) :
    carryChunk above p ∈ final.chunks ∧
      (carryChunk above p).metadata.HasLines file (offset (h :: above))
        (offset (h :: above) + byteLength h.request.text) := by
  have filled := byteLength_pos some
  cases nested with
  | outermost exact view made =>
    have lines := hasLines_parts exact (view ▸ fits) some part
    rw [view] at lines
    refine ⟨made ▸ parts_mem exact part, ?_⟩
    simpa [offset, carryChunk] using lines
  | @inside _ outer above exact view chunks _ nested =>
    have small := length_le_file nested
    have lines := hasLines_parts exact (by rw [view]; omega) some part
    rw [view] at lines
    have inside := length_le_view exact
    rw [view] at inside
    have moved := hasLines_moved nested lines (by omega) inside
      fun key mem => int?_carryChunk mem (outer :: above) p
    rw [← Nat.add_assoc] at moved
    exact ⟨carryChunk_mem nested (chunks (parts_mem exact part)), moved⟩

/-- Lines of a span of the innermost part lie within those of every part around it. -/
theorem enclosed_of_hasLines (fits : (byteLength file : Int) ≤ MetaValue.intMax)
    (nested : Nested file final h above) {m : Metadata} (own : m.HasLines file start stop)
    (some : start < stop) (first : offset (h :: above) ≤ start)
    (last : stop ≤ offset (h :: above) + byteLength h.request.text) : Enclosed final m (h :: above) := by
  have part {h : Handover} {above : List Handover} (nested : Nested file final h above)
      (first : offset (h :: above) ≤ start)
      (last : stop ≤ offset (h :: above) + byteLength h.request.text) :
      h.parts ≠ [] ∧ ∀ p ∈ h.parts, carryChunk above p ∈ final.chunks ∧
        m.LinesWithin (carryChunk above p).metadata := by
    have filled : h.request.text ≠ [] := by
      intro empty
      have nothing : byteLength [] = 0 := rfl
      rw [empty, nothing] at last
      omega
    refine ⟨parts_some filled, ?_⟩
    intro p part
    obtain ⟨there, lines⟩ := parts_of_file fits nested filled part
    exact ⟨there, Metadata.linesWithin_of_span own lines some first last⟩
  induction nested with
  | outermost exact view made =>
    obtain ⟨filled, around⟩ := part (.outermost exact view made) first last
    exact ⟨filled, around, trivial⟩
  | @inside h outer above exact view chunks symbols nested ih =>
    obtain ⟨filled, around⟩ := part (.inside exact view chunks symbols nested) first last
    have inside := length_le_view exact
    rw [view] at inside
    have start' : offset (h :: outer :: above) = offset (outer :: above) + h.request.startOffset := rfl
    exact ⟨filled, around, ih (by omega) (by omega)⟩

theorem fileLines_of_moved (fits : (byteLength file : Int) ≤ MetaValue.intMax)
    (nested : Nested file final h above) {m m' : Metadata} (own : m.HasLines h.request.text start stop)
    (some : start < stop) (inside : stop ≤ byteLength h.request.text)
    (moved : ∀ key ∈ lineKeys, m'.int? key = (m.int? key).map (· + (linesAbove (h :: above) : Int))) :
    FileLines file final (h :: above) m' start stop := by
  have lines := hasLines_moved nested own some inside moved
  exact ⟨lines, enclosed_of_hasLines fits nested lines (by omega) (by omega) (by omega)⟩

/-- After a chain of delegations, what the innermost handler found with the lines of its span in the text
that it read is in the output with the lines of the same span in the file, and these lie within the lines
of every part that was handed over. -/
theorem delegated_lines_of_file (fits : (byteLength file : Int) ≤ MetaValue.intMax)
    (nested : Nested file final h above) :
    (∀ c ∈ h.result.chunks, c.startOffset < c.endOffset → c.endOffset ≤ byteLength h.request.text →
      c.metadata.HasLines h.request.text c.startOffset c.endOffset →
        carryChunk (h :: above) c ∈ final.chunks ∧
          FileLines file final (h :: above) (carryChunk (h :: above) c).metadata c.startOffset
            c.endOffset) ∧
      ∀ y ∈ h.result.symbols, y.startOffset < y.endOffset → y.endOffset ≤ byteLength h.request.text →
        y.metadata.HasLines h.request.text y.startOffset y.endOffset →
          carrySymbol (h :: above) y ∈ final.symbols ∧
            FileLines file final (h :: above) (carrySymbol (h :: above) y).metadata y.startOffset
              y.endOffset := by
  constructor
  · intro c mem some inside own
    refine ⟨carryChunk_mem nested mem, fileLines_of_moved fits nested own some inside ?_⟩
    intro key line
    exact int?_carryChunk line (h :: above) c
  · intro y mem some inside own
    refine ⟨carrySymbol_mem nested mem, fileLines_of_moved fits nested own some inside ?_⟩
    intro key line
    exact int?_carrySymbol line (h :: above) y

/-! The script in the page in the guide, which is fenced code of a list of guides. -/

def guidesText : List Char :=
  "# Guides\n\n\x60\x60\x60\x60markdown\n# A\n\x60\x60\x60html\n<script>f()</script>\n\x60\x60\x60\n\x60\x60\x60\x60\n".toList

def guideHandover : Handover where
  view := guidesText
  read := readSource
  reading := tightReading
  path := "a.md"
  request := guideFence
  handler := .markdown

def pageHandover : Handover where
  view := guideFence.text
  read := readSource
  reading := tightReading.delegated guideFence.text
  path := "a.md"
  request :=
    { delegate := "html", parentHandler := "markdown", component := some "fence"
      text := "<script>f()</script>\n".toList
      startOffset := 12, endOffset := 33, startLine := 3
      parentSymbol := some "markdown:heading:0", parentChunk := some "markdown:section:0:37"
      metadata := Metadata.ofList [("kind", .str "fenced_code"), ("language", .str "html"),
        ("fence_info", .str "html"), ("heading_symbol", .str "markdown:heading:0")] }
  handler := .html

def scriptHandover : Handover where
  view := pageHandover.request.text
  read := readSource
  reading := pageHandover.reading.delegated pageHandover.request.text
  path := "a.md"
  request :=
    { delegate := "javascript", parentHandler := "html", component := some "inline_script"
      text := "f()".toList
      startOffset := 8, endOffset := 11, startLine := 1
      parentSymbol := some "html::script:0:20", parentChunk := some "html:script:0:20"
      metadata := Metadata.ofList [("kind", .str "script"), ("tag", .str "script")] }
  handler := .javascript

theorem nested_guide : Nested guidesText guideHandover.outcome.output scriptHandover
    [pageHandover, guideHandover] := by
  have guide : guideHandover.Exact :=
    ⟨⟨guidesText.take 23, guidesText.drop 60, by decide +kernel⟩, by decide +kernel, rfl,
      by decide +kernel⟩
  have page : pageHandover.Exact :=
    ⟨⟨guideFence.text.take 12, guideFence.text.drop 33, by decide +kernel⟩, by decide +kernel, rfl,
      by decide +kernel⟩
  have script : scriptHandover.Exact :=
    ⟨⟨pageHandover.request.text.take 8, pageHandover.request.text.drop 11, by decide +kernel⟩,
      by decide +kernel, rfl, by decide +kernel⟩
  -- What is taken over comes last in what is found around it.
  obtain ⟨chunks, symbols⟩ : scriptHandover.outcome.output.chunks = pageHandover.result.chunks.drop 1 ∧
      scriptHandover.outcome.output.symbols = pageHandover.result.symbols.drop 1 := by decide +kernel
  obtain ⟨chunks', symbols'⟩ : pageHandover.outcome.output.chunks = guideHandover.result.chunks.drop 2 ∧
      pageHandover.outcome.output.symbols = guideHandover.result.symbols.drop 1 := by decide +kernel
  apply Nested.inside script rfl (chunks ▸ List.drop_subset _ _) (symbols ▸ List.drop_subset _ _)
  apply Nested.inside page rfl (chunks' ▸ List.drop_subset _ _) (symbols' ▸ List.drop_subset _ _)
  exact .outermost guide rfl rfl

/-- The script stands alone in its text, and in the sixth line of the file. -/
theorem script_lines_of_file : ∃ c ∈ scriptHandover.result.chunks,
    c.metadata.HasLines "f()".toList 0 3 ∧
      carryChunk [scriptHandover, pageHandover, guideHandover] c ∈ guideHandover.outcome.output.chunks ∧
      (LineIndex.ofText guidesText).span 43 46 = (6, 6) ∧
      FileLines guidesText guideHandover.outcome.output [scriptHandover, pageHandover, guideHandover]
        (carryChunk [scriptHandover, pageHandover, guideHandover] c).metadata 0 3 := by
  obtain ⟨c, mem, first, last, own⟩ : ∃ c ∈ scriptHandover.result.chunks, c.startOffset = 0 ∧
      c.endOffset = 3 ∧ c.metadata.HasLines "f()".toList 0 3 := by decide +kernel
  obtain ⟨chunks, -⟩ := delegated_lines_of_file (by decide +kernel) nested_guide
  have inside : 3 ≤ byteLength scriptHandover.request.text := by decide +kernel
  rw [← first, ← last] at own
  obtain ⟨there, lines⟩ := chunks c mem (by omega) (by omega) own
  rw [first, last] at own lines
  exact ⟨c, mem, own, there, by decide +kernel, lines⟩

end Handover

end Delegation

end SourceSlices
