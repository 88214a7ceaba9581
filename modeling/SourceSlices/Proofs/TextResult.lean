import SourceSlices.Plain.Blocks
import SourceSlices.Proofs.ByteRanges
import SourceSlices.Proofs.ChunkGroups
import SourceSlices.Proofs.SplitChunks

/-!
What the handler of plain text makes of a text: the parts of its blocks. Each block is a chunk of its
own, complete, without symbols and without delegates.
-/

/-!
### Blocks

The blocks of a text tile it, whichever way they are found. A block is closed only at the end of a
line, so the characters that it holds are known at every step.
-/
namespace SourceSlices.Plain

open Text

variable {start : Nat} {held : List Char} {lines : List (List Char)}

/-- Ranges of pieces that join to a text. -/
def Cuts (start : Nat) (cs : List Char) (found : List (Nat × Nat)) : Prop :=
  ∃ pieces, found = ranges start pieces ∧ pieces.flatten = cs ∧ ∀ p ∈ pieces, p ≠ []

theorem cuts_one (start : Nat) (some : held ≠ []) :
    Cuts start held [(start, start + byteLength held)] :=
  ⟨[held], rfl, by simp, by simpa using some⟩

theorem cuts_cons {cs : List Char} {found : List (Nat × Nat)} (some : held ≠ [])
    (more : Cuts (start + byteLength held) cs found) :
    Cuts start (held ++ cs) ((start, start + byteLength held) :: found) := by
  obtain ⟨pieces, rfl, rfl, others⟩ := more
  exact ⟨held :: pieces, rfl, rfl, List.forall_mem_cons.2 ⟨some, others⟩⟩

theorem cuts_closeBlock (start : Nat) (held : List Char) :
    Cuts start held (closeBlock start (start + byteLength held)) := by
  cases held with
  | nil => exact ⟨[], by simp [closeBlock, byteLength, ranges], rfl, by simp⟩
  | cons c held =>
    have long := byteLength_pos (List.cons_ne_nil c held)
    have open' : start < start + byteLength (c :: held) := by omega
    simp only [closeBlock, open', if_true]
    exact cuts_one start (List.cons_ne_nil c held)

/-- A blank line can only have followed a block that holds something. -/
theorem cuts_paragraphsFrom {hasContent afterBlank : Bool} (whole : ∀ line ∈ lines, line ≠ [])
    (begun : afterBlank = true → held ≠ []) :
    Cuts start (held ++ lines.flatten)
      (paragraphsFrom start (start + byteLength held) hasContent afterBlank lines) := by
  induction lines generalizing start held hasContent afterBlank with
  | nil => simpa [paragraphsFrom] using cuts_closeBlock start held
  | cons line rest ih =>
    obtain ⟨own, others⟩ := List.forall_mem_cons.1 whole
    have longer : held ++ line ≠ [] := List.append_ne_nil_of_right_ne_nil _ own
    have kept (content blank : Bool) : Cuts start (held ++ (line :: rest).flatten)
        (paragraphsFrom start (start + byteLength held + byteLength line) content blank rest) := by
      rw [List.flatten_cons, ← List.append_assoc, Nat.add_assoc, ← byteLength_append]
      exact ih others fun _ => longer
    simp only [paragraphsFrom]
    split
    · exact kept hasContent hasContent
    · split
      · rename_i blank
        exact cuts_cons (begun blank) (ih others fun _ => own)
      · exact kept true false

theorem cuts_indentsFrom {seenIndented : Bool} :
    Cuts start (held ++ lines.flatten)
      (indentsFrom start (start + byteLength held) seenIndented lines) := by
  induction lines generalizing start held seenIndented with
  | nil => simpa [indentsFrom] using cuts_closeBlock start held
  | cons line rest ih =>
    have kept (seen : Bool) : Cuts start (held ++ (line :: rest).flatten)
        (indentsFrom start (start + byteLength held + byteLength line) seen rest) := by
      rw [List.flatten_cons, ← List.append_assoc, Nat.add_assoc, ← byteLength_append]
      exact ih
    simp only [indentsFrom]
    split
    · exact kept seenIndented
    · split
      · rename_i margin
        simp only [Bool.and_eq_true, decide_eq_true_eq] at margin
        have some : held ≠ [] := by
          rintro rfl
          exact absurd margin.2 (Nat.lt_irrefl _)
        exact cuts_cons some ih
      · exact kept (seenIndented || isIndented line)

/-- The blocks of a text join to it. -/
theorem cuts_blocks (count : Counter) (budget : Nat) {text : List Char} (some : text ≠ []) :
    Cuts 0 text (blocks count budget text).2 := by
  have paragraphs : Cuts 0 text (paragraphBlocks text) := by
    have whole : ∀ line ∈ linesInclusive text, line ≠ [] := fun _ mem => linesInclusive_ne_nil mem
    have found : Cuts 0 ([] ++ (linesInclusive text).flatten) (paragraphBlocks text) :=
      cuts_paragraphsFrom whole (by simp)
    rwa [List.nil_append, flatten_linesInclusive] at found
  have indents : Cuts 0 text (indentBlocks text) := by
    have found : Cuts 0 ([] ++ (linesInclusive text).flatten) (indentBlocks text) := cuts_indentsFrom
    rwa [List.nil_append, flatten_linesInclusive] at found
  simp only [blocks]
  split
  · split
    · have one := cuts_one 0 some
      rwa [Nat.zero_add] at one
    · exact indents
  · exact paragraphs

end SourceSlices.Plain

/-! ### Parts of blocks -/

namespace SourceSlices

/-- A part that belongs to no symbol and to no delegate, with metadata that can be read back. -/
structure Chunk.Unrelated (p : Chunk) : Prop where
  symbol : p.parentSymbolId = none
  delegate : p.delegate = none
  handler : p.metadata.find? "handler" = none
  parentSymbol : p.metadata.find? "delegate_parent_symbol" = none
  parentChunk : p.metadata.find? "delegate_parent_chunk" = none
  fits : p.metadata.Fits

namespace Plain

open Text

variable {count : Counter} {budget : Nat} {text : List Char} {s : Strategy} {b : Nat × Nat}

def blockId (s : Strategy) (b : Nat × Nat) : String :=
  "text:" ++ s.label ++ ":" ++ toString b.1 ++ ":" ++ toString b.2

/-- A block before it is split. -/
def blockChunk (text : List Char) (lines : LineIndex) (s : Strategy) (b : Nat × Nat) : Chunk :=
  { Chunk.ofSlice (blockId s b) text b.1 b.2 with
    metadata := ((Metadata.empty.putStr "kind" s.kind).putStr "strategy" s.label).putLines lines
      b.1 b.2 }

def blockParts (count : Counter) (budget : Nat) (text : List Char) (b : Nat × Nat) : List Chunk :=
  Split.chunk count budget (some (LineIndex.ofText text))
    (blockChunk text (LineIndex.ofText text) (blocks count budget text).1 b)

theorem join_chunks (found : List Output) :
    (Output.join found).chunks = found.flatMap (·.chunks) ∧
      (Output.join found).symbols = found.flatMap (·.symbols) := by
  induction found with
  | nil => exact ⟨rfl, rfl⟩
  | cons o rest ih => exact ⟨congrArg (o.chunks ++ ·) ih.1, congrArg (o.symbols ++ ·) ih.2⟩

theorem output_chunks (count : Counter) (budget : Nat) (filled : isAllBlank text = false) :
    (output count budget text).chunks =
        (blocks count budget text).2.flatMap (blockParts count budget text) ∧
      (output count budget text).symbols = [] := by
  simp only [output, filled, Bool.false_eq_true, if_false]
  obtain ⟨chunks, symbols⟩ := join_chunks ((blocks count budget text).2.map
    (blockOutput count budget text (LineIndex.ofText text) (blocks count budget text).1))
  rw [chunks, symbols, List.flatMap_map, List.flatMap_map]
  exact ⟨rfl, List.flatMap_eq_nil_iff.2 fun b _ => rfl⟩

theorem blockId_toList (s : Strategy) (b : Nat × Nat) : (blockId s b).toList =
    "text:".toList ++ s.label.toList ++ ":".toList ++
      (Nat.toDigits 10 b.1 ++ ':' :: Nat.toDigits 10 b.2) := by
  have number (n : Nat) : (toString n).toList = Nat.toDigits 10 n := Nat.toList_repr
  simp only [blockId, String.toList_append, List.append_assoc, number]
  rfl

/-- No digit is a colon, so the first number of an id ends at the last colon. -/
theorem takeWhile_digits (n : Nat) (rest : List Char) :
    (Nat.toDigits 10 n ++ ':' :: rest).takeWhile Char.isDigit = Nat.toDigits 10 n := by
  rw [List.takeWhile_append_of_pos fun c mem =>
    Nat.isDigit_of_mem_toDigits (by decide) (by decide) mem]
  simp [List.takeWhile, Char.isDigit]

/-- Blocks that begin at different places have different ids. -/
theorem start_of_blockId {b' : Nat × Nat} (same : blockId s b = blockId s b') : b.1 = b'.1 := by
  have texts := congrArg String.toList same
  rw [blockId_toList, blockId_toList] at texts
  have numbers := congrArg (List.takeWhile Char.isDigit) (List.append_cancel_left texts)
  rw [takeWhile_digits, takeWhile_digits] at numbers
  exact Json.toDigits_injective numbers

theorem find?_blockChunk {lines : LineIndex} {key : String}
    (other : key ∉ ["kind", "strategy", "start_line", "end_line"]) :
    (blockChunk text lines s b).metadata.find? key = none := by
  simp only [List.mem_cons, not_or] at other
  rw [blockChunk, Metadata.find?_putLines_ne other.2.2.1 other.2.2.2.1, Metadata.putStr,
    Metadata.putStr, Metadata.find?_put_ne other.2.1, Metadata.find?_put_ne other.1]
  rfl

theorem spans_block (held : text ≠ []) (mem : b ∈ (blocks count budget text).2) (lines : LineIndex)
    (s : Strategy) : Split.Spans (blockChunk text lines s b) (slice text b.1 b.2) := by
  obtain ⟨pieces, same, joined, own⟩ := cuts_blocks count budget held
  rw [same] at mem
  obtain ⟨piece, length⟩ := slice_range [] mem
  rw [List.nil_append, joined] at piece length
  exact ⟨String.toList_ofList, own _ piece, length⟩

theorem block_le (held : text ≠ []) (mem : b ∈ (blocks count budget text).2) :
    b.2 ≤ byteLength text := by
  obtain ⟨pieces, same, joined, -⟩ := cuts_blocks count budget held
  rw [same] at mem
  have inside := ranges_le mem
  rw [joined] at inside
  omega

theorem blockParts_spec (held : text ≠ []) (mem : b ∈ (blocks count budget text).2) :
    ∃ pieces, Split.PartsOf (some (LineIndex.ofText text))
        (blockChunk text (LineIndex.ofText text) (blocks count budget text).1 b) pieces
        (blockParts count budget text b) ∧
      pieces.flatten = slice text b.1 b.2 ∧ pieces ≠ [] ∧ b.1 + byteLength pieces.flatten = b.2 ∧
        pieces.length ≤ byteLength text := by
  have holds := spans_block held mem (LineIndex.ofText text) (blocks count budget text).1
  obtain ⟨pieces, parts, joined, own⟩ := Split.chunk_partsOf count budget _ holds
  have length : b.2 = b.1 + byteLength (slice text b.1 b.2) := holds.length
  refine ⟨pieces, parts, joined, ?_, ?_, ?_⟩
  · rintro rfl
    exact holds.some joined.symm
  · rw [joined, ← length]
  · have fewer := length_le_byteLength_flatten own
    have bound := block_le held mem
    rw [joined] at fewer
    omega

theorem unrelated_blockParts (held : text ≠ []) (mem : b ∈ (blocks count budget text).2) {p : Chunk}
    (part : p ∈ blockParts count budget text b) :
    p.Unrelated ∧ p.chunkId = blockId (blocks count budget text).1 b := by
  obtain ⟨pieces, parts, -⟩ := blockParts_spec held mem
  obtain ⟨index, own, rfl⟩ := parts.each p part
  refine ⟨⟨rfl, rfl, ?_, ?_, ?_, ?_⟩, rfl⟩
  · rw [Split.find?_partChunk (by decide), find?_blockChunk (by decide)]
  · rw [Split.find?_partChunk (by decide), find?_blockChunk (by decide)]
  · rw [Split.find?_partChunk (by decide), find?_blockChunk (by decide)]
  · exact Split.fits_partChunk (Metadata.fits_putLines
      (Metadata.fits_putStr (Metadata.fits_putStr Metadata.fits_empty _ _) _ _) _ _ _)

theorem family_blocks (count : Counter) (budget : Nat) (held : text ≠ [])
    (fits : (byteLength text : Int) ≤ MetaValue.intMax) :
    ChunkGroup.Family (blocks count budget text).2 (blockId (blocks count budget text).1)
      (blockParts count budget text) where
  apart := by
    obtain ⟨pieces, same, -, own⟩ := cuts_blocks count budget held
    have ascending := ascending_of_tiles (tiles_ranges 0 own)
    rw [← same] at ascending
    exact ascending.imp fun less equal => absurd (start_of_blockId equal) (Nat.ne_of_lt less)
  own b mem p part := (unrelated_blockParts held mem part).2
  some b mem := by
    obtain ⟨pieces, parts, -, filled, -⟩ := blockParts_spec held mem
    intro none
    have texts := parts.texts
    rw [none, List.map_nil] at texts
    exact filled (List.map_eq_nil_iff.1 texts.symm)
  complete b mem := by
    obtain ⟨pieces, parts, -, -, -, few⟩ := blockParts_spec held mem
    have length : (blockParts count budget text b).length = pieces.length := by
      simpa using congrArg List.length parts.texts
    refine ⟨length ▸ parts.numbered, fun p part t recorded => ?_⟩
    obtain ⟨index, own, rfl⟩ := parts.each p part
    rw [Split.part_total_partChunk, Int.min_eq_left (by omega)] at recorded
    rw [← Option.some.inj recorded, length]

end Plain

end SourceSlices
