import SourceSlices.Proofs.MetadataKeys
import SourceSlices.Proofs.LosslessSplit

/-!
The parts of a chunk. They stand under the id of the chunk in the order of its text, their spans tile
its span, and of its metadata they change only what tells the parts apart.
-/
namespace SourceSlices.Split

open Text

variable {count : Counter} {budget : Nat} {lines : Option LineIndex} {c : Chunk}
  {total index : Nat} {p : SplitPart} {key : String}

/-- The keys that splitting writes. -/
def partKeys : List String :=
  ["start_line", "end_line", "part_index", "part_total", "overflow", "overflow_is_truncated",
    "overflow_reason"]

/-- Those among them that tell the parts apart. -/
def markKeys : List String :=
  ["part_index", "part_total", "overflow", "overflow_is_truncated", "overflow_reason"]

/-- The metadata of a part before its place among the parts is known. -/
def placedMetadata (c : Chunk) (lines : Option LineIndex) (total : Nat) (p : SplitPart) : Metadata :=
  match lines with
  | some lines =>
    if 1 < total then
      c.metadata.putLines lines (min (c.startOffset + p.start) c.endOffset)
        (min (c.startOffset + p.stop) c.endOffset)
    else c.metadata
  | none => c.metadata

/-- The metadata of a part. -/
def markedMetadata (m : Metadata) (total index : Nat) (truncated : Bool) : Metadata :=
  if truncated then
    ((putPart m index total).putBool "overflow_is_truncated" true).putStr "overflow_reason"
      truncationReason
  else putPart m index total

theorem partChunk_metadata (c : Chunk) (lines : Option LineIndex) (total index : Nat) (p : SplitPart) :
    (partChunk c lines total index p).metadata =
      markedMetadata (placedMetadata c lines total p) total index p.truncated := by
  cases lines <;> rfl

/-- Before that at most the lines are changed. -/
theorem find?_placed (other : key ∉ ["start_line", "end_line"]) :
    (placedMetadata c lines total p).find? key = c.metadata.find? key := by
  simp only [List.mem_cons, not_or] at other
  unfold placedMetadata
  split
  · split
    · exact Metadata.find?_putLines_ne other.1 other.2.1 _ _ _
    · rfl
  · rfl

theorem find?_putPart {m : Metadata} (other : key ∉ markKeys) :
    (putPart m index total).find? key = m.find? key := by
  simp only [markKeys, List.mem_cons, not_or] at other
  have coordinates : ((m.putNat "part_index" index).putNat "part_total" total).find? key =
      m.find? key := by
    rw [Metadata.putNat, Metadata.putNat, Metadata.find?_put_ne other.2.1,
      Metadata.find?_put_ne other.1]
  simp only [putPart]
  split
  · rw [Metadata.putBool, Metadata.find?_put_ne other.2.2.1, coordinates]
  · exact coordinates

theorem find?_putPart_index (m : Metadata) (total index : Nat) :
    (putPart m index total).find? "part_index" = some (.nat index) := by
  have coordinates : ((m.putNat "part_index" index).putNat "part_total" total).find? "part_index" =
      some (.nat index) := by
    rw [Metadata.putNat, Metadata.find?_put_ne (by decide)]
    exact SortedMap.find?_insert_self _ _ _
  simp only [putPart]
  split
  · rw [Metadata.putBool, Metadata.find?_put_ne (by decide), coordinates]
  · exact coordinates

theorem find?_putPart_total (m : Metadata) (total index : Nat) :
    (putPart m index total).find? "part_total" = some (.nat total) := by
  have coordinates : ((m.putNat "part_index" index).putNat "part_total" total).find? "part_total" =
      some (.nat total) := SortedMap.find?_insert_self _ _ _
  simp only [putPart]
  split
  · rw [Metadata.putBool, Metadata.find?_put_ne (by decide), coordinates]
  · exact coordinates

theorem find?_putPart_overflow (m : Metadata) (total index : Nat) :
    (putPart m index total).find? "overflow" =
      if 1 < total then some (.bool true) else m.find? "overflow" := by
  simp only [putPart]
  split
  · exact SortedMap.find?_insert_self _ _ _
  · rw [Metadata.putNat, Metadata.putNat, Metadata.find?_put_ne (by decide),
      Metadata.find?_put_ne (by decide)]

/-- Only the marks of a cut line come after the coordinates of a part. -/
theorem find?_marked_of_putPart {m : Metadata} {truncated : Bool}
    (other : key ∉ ["overflow_is_truncated", "overflow_reason"]) :
    (markedMetadata m total index truncated).find? key = (putPart m index total).find? key := by
  simp only [List.mem_cons, not_or] at other
  unfold markedMetadata
  split
  · rw [Metadata.putStr, Metadata.putBool, Metadata.find?_put_ne other.2.1,
      Metadata.find?_put_ne other.1]
  · rfl

theorem find?_marked {m : Metadata} {truncated : Bool} (other : key ∉ markKeys) :
    (markedMetadata m total index truncated).find? key = m.find? key := by
  have cut : ∀ key ∈ ["overflow_is_truncated", "overflow_reason"], key ∈ markKeys := by decide
  rw [find?_marked_of_putPart fun mem => other (cut key mem), find?_putPart other]

theorem find?_partChunk (other : key ∉ partKeys) :
    (partChunk c lines total index p).metadata.find? key = c.metadata.find? key := by
  have marks : ∀ key ∈ markKeys, key ∈ partKeys := by decide
  have lines : ∀ key ∈ ["start_line", "end_line"], key ∈ partKeys := by decide
  rw [partChunk_metadata, find?_marked fun mem => other (marks key mem),
    find?_placed fun mem => other (lines key mem)]

theorem fits_partChunk (small : c.metadata.Fits) :
    (partChunk c lines total index p).metadata.Fits := by
  have placed : (placedMetadata c lines total p).Fits := by
    unfold placedMetadata
    split
    · split
      · exact Metadata.fits_putLines small _ _ _
      · exact small
    · exact small
  have part : (putPart (placedMetadata c lines total p) index total).Fits := by
    have coordinates := Metadata.fits_putNat (Metadata.fits_putNat placed "part_index" index)
      "part_total" total
    simp only [putPart]
    split
    · exact Metadata.fits_putBool coordinates _ _
    · exact coordinates
  rw [partChunk_metadata, markedMetadata]
  split
  · exact Metadata.fits_putStr (Metadata.fits_putBool part _ _) _ _
  · exact part

theorem part_total_partChunk (c : Chunk) (lines : Option LineIndex) (total index : Nat)
    (p : SplitPart) : (partChunk c lines total index p).metadata.int? "part_total" =
      some (min (total : Int) MetaValue.intMax) := by
  rw [Metadata.int?, partChunk_metadata, find?_marked_of_putPart (by decide), find?_putPart_total]
  rfl

/-- A chunk that holds a text of its own length. -/
structure Spans (c : Chunk) (cs : List Char) : Prop where
  text : c.text.toList = cs
  some : cs ≠ []
  length : c.endOffset = c.startOffset + byteLength cs

/-- Parts that hold given pieces of the text of a chunk in order. -/
structure PartsOf (lines : Option LineIndex) (c : Chunk) (pieces : List (List Char))
    (parts : List Chunk) : Prop where
  texts : parts.map (·.text) = pieces.map String.ofList
  spans : parts.map (fun p => (p.startOffset, p.endOffset)) = ranges c.startOffset pieces
  numbered : parts.map (·.partIndex) = List.range pieces.length
  each : ∀ p ∈ parts, ∃ index part, p = partChunk c lines pieces.length index part

/-- Splitting cuts the text of a chunk into pieces and makes a part of each. -/
theorem chunk_partsOf (count : Counter) (budget : Nat) (lines : Option LineIndex) {cs : List Char}
    (holds : Spans c cs) : ∃ pieces, PartsOf lines c pieces (chunk count budget lines c) ∧
      pieces.flatten = cs ∧ ∀ p ∈ pieces, p ≠ [] := by
  obtain ⟨pieces, laid, joined, some⟩ := covers_byTokens count budget holds.some
  have length : (byTokens count budget cs).length = pieces.length := by
    simpa using congrArg List.length laid.texts
  refine ⟨pieces, ⟨?_, ?_, ?_, fun p mem => ?_⟩, joined, some⟩
  · rw [← laid.texts, chunk, holds.text]
    exact List.ext_getElem (by simp) fun i _ _ => by simp [partChunk]
  · -- The ends of a part lie inside the chunk, so none of them is moved.
    rw [← Nat.add_zero c.startOffset, ranges_add, ← laid.spans, chunk, holds.text, List.map_map]
    refine List.ext_getElem (by simp) fun i here there => ?_
    simp only [List.length_map, List.length_mapIdx] at here there
    have mem : ((byTokens count budget cs)[i].start, (byTokens count budget cs)[i].stop) ∈
        ranges 0 pieces := laid.spans ▸ List.mem_map.2 ⟨_, List.getElem_mem here, rfl⟩
    have inside := ranges_le mem
    rw [joined] at inside
    simp only [List.getElem_map, List.getElem_mapIdx, Function.comp, partChunk, holds.length,
      Prod.mk.injEq]
    omega
  · rw [← length, chunk, holds.text]
    exact List.ext_getElem (by simp) fun i _ _ => by simp [partChunk]
  · rw [chunk, holds.text, length] at mem
    obtain ⟨i, _, rfl⟩ := List.mem_mapIdx.1 mem
    exact ⟨i, _, rfl⟩

/-!
### The span of a rewritten text

The span of a chunk whose text is not the slice of that span: blanks may be collapsed in it, an indent
taken away, or one of several selectors chosen. The parts begin where the chunk does, but the end of the
last one is counted in the rewritten text. It is the end of the chunk only if that text is long enough,
and a text that was made shorter leaves the end of its construct outside.
-/

/-- The first part begins where the chunk begins, and the last part ends where it ends. -/
structure KeepsSpan (c : Chunk) (parts : List Chunk) : Prop where
  first : parts.head?.map (·.startOffset) = some c.startOffset
  last : parts.getLast?.map (·.endOffset) = some c.endOffset

/-- The parts of a chunk reach from its start to where its text would end, but not out of its span. -/
theorem ends_chunk (count : Counter) (budget : Nat) (lines : Option LineIndex) (some : c.text ≠ "") :
    (chunk count budget lines c).head?.map (·.startOffset) =
        .some (min c.startOffset c.endOffset) ∧
      (chunk count budget lines c).getLast?.map (·.endOffset) =
        .some (min (c.startOffset + byteLength c.text.toList) c.endOffset) := by
  have text : c.text.toList ≠ [] := by simpa using some
  obtain ⟨pieces, laid, joined, -⟩ := covers_byTokens count budget text
  have pieces_some : pieces ≠ [] := by
    rintro rfl
    exact text joined.symm
  have start := head?_ranges 0 pieces_some
  have stop := getLast?_ranges 0 pieces_some
  rw [← laid.spans, List.head?_map, Option.map_map] at start
  rw [← laid.spans, List.getLast?_map, Option.map_map, joined, Nat.zero_add] at stop
  obtain ⟨p, first, begins⟩ := Option.map_eq_some_iff.1 start
  obtain ⟨q, last, ends⟩ := Option.map_eq_some_iff.1 stop
  simp only [Function.comp] at begins ends
  simp only [chunk, List.head?_mapIdx, List.getLast?_mapIdx, first, last, Option.map_some, partChunk,
    begins, ends, Nat.add_zero, and_self]

/-- A chunk without text has one part, unless the empty text is over the budget. -/
theorem chunk_of_no_text (count : Counter) (budget : Nat) (lines : Option LineIndex) (none : c.text = "") :
    chunk count budget lines c =
      if count [] ≤ max budget 1 then [partChunk c lines 1 0 (part count 0 [] false)] else [] := by
  have parts : byTokens count budget [] =
      if count [] ≤ max budget 1 then [part count 0 [] false] else [] := by
    simp only [byTokens]
    split <;> rfl
  simp only [chunk, none, String.toList_empty, parts]
  split <;> rfl

/-- Parts keep the span of their chunk exactly if its text is at least as long as the span. A chunk
without text also needs a budget for the empty text, since it has no parts otherwise. -/
theorem keepsSpan_iff (count : Counter) (budget : Nat) (lines : Option LineIndex)
    (ordered : c.startOffset ≤ c.endOffset) :
    KeepsSpan c (chunk count budget lines c) ↔
      c.endOffset ≤ c.startOffset + byteLength c.text.toList ∧
        (c.text = "" → count [] ≤ max budget 1) := by
  by_cases text : c.text = ""
  · rw [chunk_of_no_text count budget lines text]
    have length : byteLength c.text.toList = 0 := by rw [text]; rfl
    constructor
    · rintro ⟨first, last⟩
      split at first
      · rename_i fits
        rw [if_pos fits] at last
        have stop : min (c.startOffset + 0) c.endOffset = c.endOffset := Option.some.inj last
        exact ⟨by omega, fun _ => fits⟩
      · cases first
    · rintro ⟨long, fits⟩
      rw [if_pos (fits text)]
      have same : c.startOffset = c.endOffset := by omega
      refine ⟨congrArg some ?_, congrArg some ?_⟩
      · show min (c.startOffset + 0) c.endOffset = c.startOffset
        omega
      · show min (c.startOffset + 0) c.endOffset = c.endOffset
        omega
  · obtain ⟨start, stop⟩ := ends_chunk count budget lines text
    constructor
    · rintro ⟨-, last⟩
      have reached := Option.some.inj (stop.symm.trans last)
      exact ⟨by omega, fun none => absurd none text⟩
    · rintro ⟨long, -⟩
      exact ⟨start.trans (congrArg some (by omega)), stop.trans (congrArg some (by omega))⟩

/-- The chunk of a text on a page, its blanks collapsed. -/
def collapsed (id : String) (page : List Char) (start stop : Nat) : Chunk :=
  { Chunk.ofSlice id page start stop with text := String.ofList (collapse (slice page start stop)) }

/-- A tab becomes one space, which leaves the text as long as it was. -/
def tabbed : Chunk := collapsed "html:text:3:10" "<p>one\ttwo</p>".toList 3 10

theorem tabbed_keepsSpan : tabbed.startOffset ≤ tabbed.endOffset ∧ tabbed.text = "one two" ∧
    KeepsSpan tabbed (chunk Tokens.count 2000 none tabbed) :=
  ⟨by decide, by decide +kernel, (keepsSpan_iff _ _ _ (by decide)).2 (by decide +kernel)⟩

/-- A line end and the indent behind it become one space. -/
def wrapped : Chunk := collapsed "html:text:3:12" "<p>one\n  two</p>".toList 3 12

/-- A text within the budget, in one part, that ends two bytes before its construct does. -/
theorem wrapped_ends_early : wrapped.text = "one two" ∧
    wrapped.startOffset + byteLength wrapped.text.toList ≤ wrapped.endOffset ∧
    (chunk Tokens.count 2000 none wrapped).map (fun p => (p.startOffset, p.endOffset)) = [(3, 10)] ∧
    ¬ KeepsSpan wrapped (chunk Tokens.count 2000 none wrapped) :=
  ⟨by decide +kernel, by decide +kernel, by decide +kernel, fun keeps =>
    absurd keeps.last (by decide +kernel)⟩

end SourceSlices.Split
