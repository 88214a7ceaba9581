import SourceSlices.Proofs.ChunkGroups
import SourceSlices.Proofs.LosslessSplit
import SourceSlices.Proofs.SplitChunks

/-!
The parts of a chunk that holds a slice of a text. Every part holds the slice of its own span, the spans
tile that of the chunk, and if there are several parts each has its own lines. Whatever its text, the
parts of a chunk are complete.
-/
namespace SourceSlices

namespace Text

/-! ### Characters before an offset -/

theorem takeBytes_zero (cs : List Char) : takeBytes 0 cs = [] := by
  cases cs <;> rfl

theorem takeBytes_nil (n : Nat) : takeBytes n [] = [] := by
  cases n <;> rfl

theorem takeBytes_cons {n : Nat} (some : 0 < n) (c : Char) (cs : List Char) :
    takeBytes n (c :: cs) = c :: takeBytes (n - c.utf8Size) cs := by
  cases n with
  | zero => omega
  | succ n => rfl

theorem length_takeBytes_le (n : Nat) (cs : List Char) : (takeBytes n cs).length ≤ n := by
  induction cs generalizing n with
  | nil => simp [takeBytes_nil]
  | cons c cs ih =>
    rcases Nat.eq_zero_or_pos n with rfl | some
    · rw [takeBytes_zero]
      exact Nat.le_refl _
    · have size := c.utf8Size_pos
      have rest := ih (n - c.utf8Size)
      rw [takeBytes_cons some, List.length_cons]
      omega

theorem takeBytes_mono {m n : Nat} (le : m ≤ n) (cs : List Char) :
    takeBytes m cs <+: takeBytes n cs := by
  induction cs generalizing m n with
  | nil => simp [takeBytes_nil]
  | cons c cs ih =>
    rcases Nat.eq_zero_or_pos m with rfl | some
    · rw [takeBytes_zero]
      exact List.nil_prefix
    · rw [takeBytes_cons some, takeBytes_cons (by omega)]
      apply List.cons_prefix_cons.2
      exact ⟨rfl, ih (by omega)⟩

/-- The characters before an offset behind a text are that text and some of those after it. -/
theorem takeBytes_add (pre rest : List Char) (n : Nat) :
    takeBytes (byteLength pre + n) (pre ++ rest) = pre ++ takeBytes n rest := by
  induction pre with
  | nil => simp [byteLength]
  | cons c pre ih =>
    have size := c.utf8Size_pos
    have after : byteLength (c :: pre) + n - c.utf8Size = byteLength pre + n := by
      rw [byteLength_cons]
      omega
    rw [List.cons_append, takeBytes_cons (by rw [byteLength_cons]; omega), after, ih, List.cons_append]

theorem takeBytes_of_le {n : Nat} {part : List Char} (inside : n ≤ byteLength part)
    (post : List Char) : takeBytes n (part ++ post) = takeBytes n part := by
  induction part generalizing n with
  | nil =>
    have none : n = 0 := by simpa [byteLength] using inside
    rw [none, takeBytes_zero, takeBytes_zero]
  | cons c part ih =>
    rcases Nat.eq_zero_or_pos n with rfl | some
    · rw [takeBytes_zero, takeBytes_zero]
    · rw [byteLength_cons] at inside
      rw [List.cons_append, takeBytes_cons some, takeBytes_cons some, ih (by omega)]

end Text

open Text

/-! ### Lines -/

namespace LineIndex

theorem foldl_feeds (start offset k : Nat) (cs : List Char) :
    (feedsFrom start cs).foldl (fun n feed => if feed < offset then n + 1 else n) k =
      k + (takeBytes (offset - start) cs).count '\n' := by
  induction cs generalizing start k with
  | nil => simp [feedsFrom, takeBytes_nil]
  | cons c cs ih =>
    have size := c.utf8Size_pos
    rcases Nat.eq_zero_or_pos (offset - start) with none | some
    · have later : offset - (start + c.utf8Size) = 0 := by omega
      have nothing := ih (start + c.utf8Size) k
      rw [later, takeBytes_zero] at nothing
      rw [none, takeBytes_zero, feedsFrom]
      split
      · rw [List.foldl_cons, if_neg (by omega), nothing]
      · exact nothing
    · have rest : offset - start - c.utf8Size = offset - (start + c.utf8Size) := by omega
      rw [takeBytes_cons some, rest, feedsFrom]
      split
      · rename_i feed
        rw [List.foldl_cons, if_pos (by omega), ih, feed, List.count_cons_self]
        omega
      · rename_i other
        rw [ih, List.count_cons_of_ne other]

theorem line_ofText (cs : List Char) (n : Nat) :
    (ofText cs).line n = (takeBytes n cs).count '\n' + 1 := by
  have feeds := foldl_feeds 0 n 0 cs
  rw [line, ofText, List.foldl_toArray, feeds, Nat.sub_zero, Nat.zero_add]

theorem line_le (cs : List Char) (n : Nat) : (ofText cs).line n ≤ n + 1 := by
  have fewer : (takeBytes n cs).count '\n' ≤ (takeBytes n cs).length := List.count_le_length
  have := length_takeBytes_le n cs
  rw [line_ofText]
  omega

theorem line_mono (cs : List Char) {m n : Nat} (le : m ≤ n) :
    (ofText cs).line m ≤ (ofText cs).line n := by
  have fewer := (takeBytes_mono le cs).sublist.count_le '\n'
  rw [line_ofText, line_ofText]
  omega

theorem span_of_lt (i : LineIndex) {start stop : Nat} (some : start < stop) :
    i.span start stop = (i.line start, i.line (stop - 1)) := by
  rw [span, if_pos some]

end LineIndex

/-! ### Chunks that hold a slice -/

theorem Text.IsBoundary.le {cs : List Char} {n : Nat} (boundary : IsBoundary cs n) :
    n ≤ byteLength cs := by
  obtain ⟨pre, ⟨post, rfl⟩, rfl⟩ := boundary
  rw [byteLength_append]
  omega

/-- A chunk that holds the slice of a text between its offsets. -/
structure Chunk.Exact (view : List Char) (c : Chunk) : Prop where
  start : IsBoundary view c.startOffset
  stop : IsBoundary view c.endOffset
  ordered : c.startOffset ≤ c.endOffset
  text : c.text = sliceText view c.startOffset c.endOffset

/-- A chunk that holds a slice stands between what is before its span and what is behind it. -/
theorem Chunk.Exact.around {view : List Char} {c : Chunk} (exact : c.Exact view) :
    ∃ pre post, view = pre ++ (c.text.toList ++ post) ∧ c.startOffset = byteLength pre ∧
      c.endOffset = c.startOffset + byteLength c.text.toList := by
  obtain ⟨pre, before, start⟩ := exact.start
  obtain ⟨whole, upTo, stop⟩ := exact.stop
  have ordered := exact.ordered
  -- Both are beginnings of the text, and the longer one goes on from the shorter one.
  have inner : pre <+: whole := by
    rcases List.prefix_or_prefix_of_prefix before upTo with inner | ⟨more, rfl⟩
    · exact inner
    · have nothing : more = [] := by
        by_contra some
        have := byteLength_pos some
        rw [byteLength_append] at start
        omega
      exact ⟨[], by rw [nothing, List.append_nil, List.append_nil]⟩
  obtain ⟨piece, rfl⟩ := inner
  obtain ⟨post, rfl⟩ := upTo
  have held : c.text.toList = piece := by
    rw [exact.text, sliceText, String.toList_ofList, ← start, ← stop, byteLength_append,
      List.append_assoc, slice_piece]
  refine ⟨pre, post, ?_, start.symm, ?_⟩
  · rw [held, List.append_assoc]
  · rw [held, ← start, ← stop, byteLength_append]

namespace Split

variable {count : Counter} {budget : Nat} {lines : Option LineIndex} {c : Chunk} {view : List Char}

/-! ### All parts of a chunk -/

theorem byTokens_length_le (noText : count [] = 0) (budget : Nat) (cs : List Char) :
    (byTokens count budget cs).length ≤ max 1 (byteLength cs) := by
  by_cases none : cs = []
  · subst none
    simp [byTokens, noText]
  · obtain ⟨pieces, laid, joined, some⟩ := covers_byTokens count budget none
    have length : (byTokens count budget cs).length = pieces.length := by
      simpa using congrArg List.length laid.texts
    have few := length_le_byteLength_flatten some
    rw [joined] at few
    omega

theorem counted_chunk (noText : count [] = 0) (budget : Nat) (lines : Option LineIndex)
    (fits : (byteLength c.text.toList : Int) ≤ MetaValue.intMax) :
    ((chunk count budget lines c).length : Int) ≤ MetaValue.intMax := by
  have few := byTokens_length_le noText budget c.text.toList
  have large : (1 : Int) ≤ MetaValue.intMax := by decide
  rw [chunk, List.length_mapIdx]
  omega

theorem mem_chunk {p : Chunk} (mem : p ∈ chunk count budget lines c) :
    ∃ index part, index < (chunk count budget lines c).length ∧
      p = partChunk c lines (chunk count budget lines c).length index part := by
  obtain ⟨index, bound, rfl⟩ := List.mem_mapIdx.1 mem
  rw [chunk, List.length_mapIdx]
  exact ⟨index, _, bound, rfl⟩

theorem complete_chunk (noText : count [] = 0) (budget : Nat) (lines : Option LineIndex) {c : Chunk}
    (fits : (byteLength c.text.toList : Int) ≤ MetaValue.intMax) :
    ChunkGroup.Complete ⟨c.chunkId, chunk count budget lines c⟩ := by
  constructor
  · apply List.ext_getElem
    · simp
    · intro i _ _
      simp [chunk, partChunk]
  · intro p mem t recorded
    have counted := counted_chunk noText budget lines fits
    obtain ⟨index, part, -, same⟩ := mem_chunk mem
    rw [same, part_total_partChunk, Int.min_eq_left counted] at recorded
    exact (Option.some.inj recorded).symm

theorem chunk_eq_nil_iff : chunk count budget lines c = [] ↔ byTokens count budget c.text.toList = [] := by
  rw [chunk, List.mapIdx_eq_nil_iff]

theorem chunk_ne_nil (noText : count [] = 0) (budget : Nat) (lines : Option LineIndex) (c : Chunk) :
    chunk count budget lines c ≠ [] :=
  mt chunk_eq_nil_iff.1 (byTokens_ne_nil noText budget c.text.toList)

theorem own_chunk {p : Chunk} (mem : p ∈ chunk count budget lines c) : p.chunkId = c.chunkId := by
  obtain ⟨index, part, -, same⟩ := mem_chunk mem
  rw [same]
  rfl

/-- The parts of a chunk make one group. -/
theorem ofChunks_chunk (noText : count [] = 0) (budget : Nat) (lines : Option LineIndex) {c : Chunk}
    (fits : (byteLength c.text.toList : Int) ≤ MetaValue.intMax) :
    ChunkGroup.ofChunks (chunk count budget lines c) =
      .ok [⟨c.chunkId, chunk count budget lines c⟩] := by
  have whole := complete_chunk noText budget lines fits
  have all : ChunkGroup.all (chunk count budget lines c ++ []) =
      [⟨c.chunkId, chunk count budget lines c⟩] :=
    ChunkGroup.all_append (chunk_ne_nil noText budget lines c) (fun p mem => own_chunk mem)
      (fun p mem => nomatch mem) whole
  rw [List.append_nil] at all
  apply ChunkGroup.ofChunks_ok_iff.2
  rw [all]
  refine ⟨rfl, ?_⟩
  intro g mem
  rcases List.mem_cons.1 mem with rfl | mem
  · exact whole
  · cases mem

/-! ### Parts of a chunk that holds a slice -/

theorem exact_of_ranges (pre : List Char) {pieces : List (List Char)} (post : List Char)
    {parts : List Chunk} (texts : parts.map (·.text) = pieces.map String.ofList)
    (spans : parts.map (fun p => (p.startOffset, p.endOffset)) = ranges (byteLength pre) pieces)
    {p : Chunk} (mem : p ∈ parts) : p.Exact (pre ++ (pieces.flatten ++ post)) := by
  have view : pre ++ (pieces.flatten ++ post) = pre ++ (pieces ++ [post]).flatten := by simp
  have span : (p.startOffset, p.endOffset) ∈ ranges (byteLength pre) pieces :=
    spans ▸ List.mem_map.2 ⟨p, mem, rfl⟩
  have inside : (p.startOffset, p.endOffset) ∈ ranges (byteLength pre) (pieces ++ [post]) := by
    rw [ranges_append]
    exact List.mem_append_left _ span
  have slices := slices_within pre pieces post
  have own : parts.map (·.text) = parts.map fun p =>
      sliceText (pre ++ (pieces.flatten ++ post)) p.startOffset p.endOffset := by
    rw [← spans, List.map_map] at slices
    have joined := congrArg (List.map String.ofList) slices
    rw [List.map_map] at joined
    exact texts.trans joined.symm
  obtain ⟨start, stop⟩ := boundaries_ranges pre inside
  rw [← view] at start stop
  exact ⟨start, stop, (ranges_le span).2.1, List.map_inj_left.1 own p mem⟩

/-- The parts of a chunk that holds a slice of a text. -/
structure ExactParts (view : List Char) (c : Chunk) (parts : List Chunk) : Prop where
  some : parts ≠ []
  chunkId : ∀ p ∈ parts, p.chunkId = c.chunkId
  owner : ∀ p ∈ parts, p.parentSymbolId = c.parentSymbolId
  delegate : ∀ p ∈ parts, p.delegate = c.delegate
  kept : ∀ p ∈ parts, ∀ key, key ∉ partKeys → p.metadata.find? key = c.metadata.find? key
  numbered : parts.map (·.partIndex) = List.range parts.length
  index : ∀ p ∈ parts, p.metadata.find? "part_index" = .some (.int p.partIndex)
  total : ∀ p ∈ parts, p.metadata.find? "part_total" = .some (.int parts.length)
  overflow : ∀ p ∈ parts,
    p.metadata.find? "overflow" = if 1 < parts.length then .some (.bool true) else none
  -- Only a chunk without text has an empty part, and that is its only one.
  tiled : Tiles c.startOffset c.endOffset (parts.map fun p => (p.startOffset, p.endOffset)) ∨
    c.startOffset = c.endOffset ∧
      parts.map (fun p => (p.startOffset, p.endOffset)) = [(c.startOffset, c.endOffset)]
  exact : ∀ p ∈ parts, p.Exact view
  startLine : 1 < parts.length → ∀ p ∈ parts, p.metadata.find? "start_line" =
    .some (.int (1 + (takeBytes p.startOffset view).count '\n' : Nat))
  endLine : 1 < parts.length → ∀ p ∈ parts, p.metadata.find? "end_line" =
    .some (.int (1 + (takeBytes (p.endOffset - 1) view).count '\n' : Nat))

theorem chunk_of_empty (noText : count [] = 0) (budget : Nat) (lines : Option LineIndex)
    (empty : c.text.toList = []) :
    chunk count budget lines c = [partChunk c lines 1 0 (part count 0 [] false)] := by
  have one : byTokens count budget [] = [part count 0 [] false] := by simp [byTokens, noText]
  rw [chunk, empty, one]
  rfl

theorem joined_chunk (noText : count [] = 0) (budget : Nat) (lines : Option LineIndex) (c : Chunk) :
    (chunk count budget lines c).flatMap (·.text.toList) = c.text.toList := by
  by_cases empty : c.text.toList = []
  · rw [chunk_of_empty noText budget lines empty, empty]
    simp [partChunk, part]
  · obtain ⟨pieces, laid, joined, -⟩ := covers_byTokens count budget empty
    have texts : (chunk count budget lines c).map (·.text) = pieces.map String.ofList := by
      rw [← laid.texts]
      exact List.ext_getElem (by simp [chunk]) fun i _ _ => by simp [chunk, partChunk]
    have apart : (chunk count budget lines c).map (·.text.toList) = pieces := by
      have lists := congrArg (List.map String.toList) texts
      simpa [Function.comp_def] using lists
    rw [List.flatMap_def, apart, joined]

/-- The parts of a chunk that holds a slice tile its span, and each holds the slice of its own. -/
theorem tiled_chunk (exact : c.Exact view) (noText : count [] = 0) (budget : Nat)
    (lines : Option LineIndex) :
    (Tiles c.startOffset c.endOffset
        ((chunk count budget lines c).map fun p => (p.startOffset, p.endOffset)) ∨
      c.startOffset = c.endOffset ∧
        (chunk count budget lines c).map (fun p => (p.startOffset, p.endOffset)) =
          [(c.startOffset, c.endOffset)]) ∧
      ∀ p ∈ chunk count budget lines c, p.Exact view := by
  obtain ⟨pre, post, around, start, stop⟩ := exact.around
  -- A chunk without text keeps one part, which has no bytes to tile.
  by_cases empty : c.text.toList = []
  · rw [empty] at stop
    have same : c.endOffset = c.startOffset := stop
    rw [chunk_of_empty noText budget lines empty]
    have text : c.text = "" := String.toList_eq_nil_iff.1 empty
    constructor
    · refine Or.inr ⟨same.symm, ?_⟩
      simp [partChunk, part, byteLength, same]
    · intro p mem
      obtain rfl := List.mem_singleton.1 mem
      have own := exact.text
      constructor
      · simpa [partChunk, part, same] using exact.start
      · simpa [partChunk, part, byteLength, same] using exact.start
      · simp [partChunk, part, byteLength, same]
      · rw [text, same] at own
        simpa [partChunk, part, byteLength, same] using own
  · obtain ⟨pieces, parts, joined, some⟩ := chunk_partsOf count budget lines ⟨rfl, empty, stop⟩
    constructor
    · have tiles := tiles_ranges c.startOffset some
      rw [joined, ← stop, ← parts.spans] at tiles
      exact Or.inl tiles
    · intro p mem
      have spans := parts.spans
      rw [start] at spans
      have held := exact_of_ranges pre post parts.texts spans mem
      rwa [joined, ← around] at held

/-- Of several parts none is empty. -/
theorem filled_of_several {parts : List Chunk} {start stop : Nat} (several : 1 < parts.length)
    (tiled : Tiles start stop (parts.map fun p => (p.startOffset, p.endOffset)) ∨
      start = stop ∧ parts.map (fun p => (p.startOffset, p.endOffset)) = [(start, stop)])
    {p : Chunk} (mem : p ∈ parts) : p.startOffset < p.endOffset := by
  rcases tiled with tiled | ⟨-, one⟩
  · exact lt_of_tiles tiled (List.mem_map.2 ⟨p, mem, rfl⟩)
  · have length := congrArg List.length one
    rw [List.length_map, List.length_singleton] at length
    omega

theorem nat_of_le {n : Nat} (fits : (n : Int) ≤ MetaValue.intMax) : MetaValue.nat n = .int n := by
  rw [MetaValue.nat, Int.min_eq_left fits]

theorem marks_chunk (noText : count [] = 0) (fresh : c.metadata.find? "overflow" = none)
    (fits : (byteLength c.text.toList : Int) ≤ MetaValue.intMax) {p : Chunk}
    (mem : p ∈ chunk count budget lines c) :
    p.metadata.find? "part_index" = some (.int p.partIndex) ∧
      p.metadata.find? "part_total" = some (.int (chunk count budget lines c).length) ∧
      p.metadata.find? "overflow" =
        if 1 < (chunk count budget lines c).length then some (.bool true) else none := by
  have counted := counted_chunk noText budget lines fits
  obtain ⟨index, part, bound, same⟩ := mem_chunk mem
  have number : p.partIndex = index := by rw [same]; rfl
  rw [number, same, partChunk_metadata, find?_marked_of_putPart (by decide),
    find?_marked_of_putPart (by decide), find?_marked_of_putPart (by decide), find?_putPart_index,
    find?_putPart_total, find?_putPart_overflow, find?_placed (by decide), fresh,
    nat_of_le counted, nat_of_le (by omega)]
  exact ⟨rfl, rfl, rfl⟩

/-- Each of several parts has the lines of its own span. -/
theorem lines_chunk {lines : LineIndex} (several : 1 < (chunk count budget (some lines) c).length)
    {p : Chunk} (mem : p ∈ chunk count budget (some lines) c) (filled : p.startOffset < p.endOffset) :
    p.metadata.find? "start_line" = some (.nat (lines.line p.startOffset)) ∧
      p.metadata.find? "end_line" = some (.nat (lines.line (p.endOffset - 1))) := by
  have last : (lines.span p.startOffset p.endOffset).2 = lines.line (p.endOffset - 1) :=
    congrArg Prod.snd (lines.span_of_lt filled)
  obtain ⟨index, part, -, same⟩ := mem_chunk mem
  have own : p.metadata = markedMetadata (c.metadata.putLines lines p.startOffset p.endOffset)
      (chunk count budget (some lines) c).length index part.truncated := by
    rw [same, partChunk_metadata, placedMetadata, if_pos several]
    rfl
  rw [own, find?_marked (by decide), find?_marked (by decide), ← last]
  constructor
  · change ((c.metadata.put "start_line" _).put "end_line" _).find? "start_line" = _
    rw [Metadata.find?_put_ne (by decide)]
    exact SortedMap.find?_insert_self _ _ _
  · exact SortedMap.find?_insert_self _ _ _

/-- Splitting a chunk that holds the slice of its span gives parts that tile the span, hold the slices of
theirs and differ from the chunk only in what tells them apart. -/
theorem exact_chunk_splits (exact : c.Exact view) (fresh : c.metadata.find? "overflow" = none)
    (noText : count [] = 0) (fits : (byteLength view : Int) ≤ MetaValue.intMax) (budget : Nat) :
    ExactParts view c (chunk count budget (some (LineIndex.ofText view)) c) ∧
      ChunkGroup.ofChunks (chunk count budget (some (LineIndex.ofText view)) c) =
        .ok [⟨c.chunkId, chunk count budget (some (LineIndex.ofText view)) c⟩] := by
  have small : (byteLength c.text.toList : Int) ≤ MetaValue.intMax := by
    obtain ⟨pre, post, around, -⟩ := exact.around
    rw [around, byteLength_append, byteLength_append] at fits
    omega
  obtain ⟨tiled, held⟩ := tiled_chunk exact noText budget (some (LineIndex.ofText view))
  refine ⟨?_, ofChunks_chunk noText budget _ small⟩
  constructor
  case some => exact chunk_ne_nil noText budget _ c
  case chunkId => exact fun p mem => own_chunk mem
  case owner =>
    intro p mem
    obtain ⟨index, part, -, same⟩ := mem_chunk mem
    rw [same]
    rfl
  case delegate =>
    intro p mem
    obtain ⟨index, part, -, same⟩ := mem_chunk mem
    rw [same]
    rfl
  case kept =>
    intro p mem key other
    obtain ⟨index, part, -, same⟩ := mem_chunk mem
    rw [same, find?_partChunk other]
  case numbered => exact (complete_chunk noText budget _ small).numbered
  case index => exact fun p mem => (marks_chunk noText fresh small mem).1
  case total => exact fun p mem => (marks_chunk noText fresh small mem).2.1
  case overflow => exact fun p mem => (marks_chunk noText fresh small mem).2.2
  case tiled => exact tiled
  case exact => exact held
  case startLine =>
    intro several p mem
    have filled := filled_of_several several tiled mem
    have inside := (held p mem).stop.le
    have line := LineIndex.line_le view p.startOffset
    rw [(lines_chunk several mem filled).1, nat_of_le (by omega), LineIndex.line_ofText, Nat.add_comm]
  case endLine =>
    intro several p mem
    have filled := filled_of_several several tiled mem
    have inside := (held p mem).stop.le
    have line := LineIndex.line_le view (p.endOffset - 1)
    rw [(lines_chunk several mem filled).2, nat_of_le (by omega), LineIndex.line_ofText, Nat.add_comm]

/-- The body of a section: one line is over a budget of two tokens, the next one is not. -/
def sectionText : List Char := "# A\none two three\nfour\n".toList

def sectionBody : Chunk := .ofSlice "body" sectionText 4 23

theorem section_body_splits : sectionBody.Exact sectionText ∧
    sectionBody.metadata.find? "overflow" = none ∧ Tokens.count [] = 0 ∧
    (byteLength sectionText : Int) ≤ MetaValue.intMax ∧
    (chunk Tokens.count 2 (some (LineIndex.ofText sectionText)) sectionBody).map (·.text) =
      ["one two ", "three\n", "four\n"] ∧
    ExactParts sectionText sectionBody
      (chunk Tokens.count 2 (some (LineIndex.ofText sectionText)) sectionBody) ∧
    ChunkGroup.ofChunks (chunk Tokens.count 2 (some (LineIndex.ofText sectionText)) sectionBody) =
      .ok [⟨"body", chunk Tokens.count 2 (some (LineIndex.ofText sectionText)) sectionBody⟩] := by
  have exact : sectionBody.Exact sectionText :=
    ⟨⟨"# A\n".toList, by decide, rfl⟩, ⟨sectionText, List.prefix_rfl, rfl⟩, by decide, rfl⟩
  have small : (byteLength sectionText : Int) ≤ MetaValue.intMax := by decide
  exact ⟨exact, rfl, rfl, small, by decide +kernel, exact_chunk_splits exact rfl rfl small 2⟩

end Split

end SourceSlices
