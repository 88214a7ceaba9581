import SourceSlices.Grammars
import SourceSlices.Proofs.FlatForest
import SourceSlices.Proofs.Readback
import SourceSlices.Proofs.TextResult

/-!
A text that is read, staged and put together again is the text that it was. Its blocks come back in
the order of their places, each a tree of its own, and their spans tile the text.
-/
namespace SourceSlices

open Text

theorem join_ofList (pieces : List (List Char)) :
    String.join (pieces.map String.ofList) = String.ofList pieces.flatten := by
  induction pieces with
  | nil => rfl
  | cons piece rest ih =>
    rw [List.map_cons, String.join_cons, ih, List.flatten_cons, String.ofList_append]

namespace Staging

variable {q : StageRequest} {fileId : Int} {ids : SymbolIds} {p : Chunk} {content : SliceContent}

theorem plain_of_unrelated (free : p.Unrelated) : Plain q p where
  symbol := free.symbol
  delegated := by
    rw [Metadata.str?, free.parentSymbol]
    rfl
  version := by
    have own : chunkHandler q p = q.handlerName := by
      rw [chunkHandler, free.delegate, Metadata.str?, free.handler]
      rfl
    simp only [versionOf, own, if_true]
    split
    · exact ⟨_, rfl⟩
    · exact ⟨_, rfl⟩

theorem top_of_unrelated (free : p.Unrelated) (done : sliceContent q fileId ids p = .ok content)
    {r : Slice} (same : r.content = content) : r.Top where
  symbol := by
    have none : p.metadata.str? "delegate_parent_symbol" = none := by
      rw [Metadata.str?, free.parentSymbol]
      rfl
    simp only [sliceContent, bind_ok_iff, none] at done
    obtain ⟨version, -, symbolId, -, parentId, without, done⟩ := done
    cases done
    cases without
    rw [same]
  recorded := by
    obtain ⟨-, -, -, -, -, -, json⟩ := sliceContent_columns done
    exact ⟨p.metadata, by rw [same, json, WholeChunk.metadataOf_written free.fits], free.parentChunk⟩

def spanColumn (q : StageRequest) (fileId : Int) (ids : SymbolIds) :
    Column q fileId ids (String × Option Int × Option Int) where
  ofRow c := (c.text, c.startByte, c.endByte)
  ofPart p := (p.text, some (count p.startOffset), some (count p.endOffset))
  agree _ _ done := by
    obtain ⟨-, text, -, -, start, stop, -⟩ := sliceContent_columns done
    rw [text, start, stop]

/-- What a chunk has of the texts and the ends of its parts. -/
def extent (columns : List (String × Option Int × Option Int)) : String × Option Int × Option Int :=
  (String.join (columns.map (·.1)), least? (columns.filterMap (·.2.1)),
    greatest? (columns.filterMap (·.2.2)))

theorem extent_made {c : WholeChunk} (made : c.MadeOf c.parts) :
    (c.text, c.startByte, c.endByte) =
      extent (c.parts.map fun r => (spanColumn q fileId ids).ofRow r.content) := by
  rw [made.text, made.startByte, made.endByte, extent]
  simp only [List.map_map, List.filterMap_map, spanColumn, Function.comp_def]

end Staging

namespace Plain

variable {count : Counter} {budget : Nat} {text : List Char} {b : Nat × Nat}

/-- The parts of a block have together the text and the ends of the block. -/
theorem extent_block {q : StageRequest} {fileId : Int} {ids : Staging.SymbolIds} (held : text ≠ [])
    (fits : (byteLength text : Int) ≤ MetaValue.intMax) (mem : b ∈ (blocks count budget text).2) :
    Staging.extent ((blockParts count budget text b).map (Staging.spanColumn q fileId ids).ofPart) =
      (String.ofList (slice text b.1 b.2), some (b.1 : Int), some (b.2 : Int)) := by
  obtain ⟨pieces, parts, joined, filled, stop, -⟩ := blockParts_spec held mem
  have bound := block_le held mem
  have spans : (blockParts count budget text b).map (fun p => (p.startOffset, p.endOffset)) =
      ranges b.1 pieces := parts.spans
  -- Offsets within a text that fits are recorded as they are.
  have uncapped : (blockParts count budget text b).map (Staging.spanColumn q fileId ids).ofPart =
      (blockParts count budget text b).map fun p =>
        (p.text, some (p.startOffset : Int), some (p.endOffset : Int)) := by
    refine List.map_congr_left fun p part => ?_
    have inside := ranges_le (spans ▸ List.mem_map.2 ⟨p, part, rfl⟩ :
      (p.startOffset, p.endOffset) ∈ ranges b.1 pieces)
    simp only at inside
    have first := Staging.count_of_le (n := p.startOffset) (by omega)
    have last := Staging.count_of_le (n := p.endOffset) (by omega)
    simp only [Staging.spanColumn, first, last]
  have starts : (blockParts count budget text b).map (fun p => (p.startOffset : Int)) =
      (ranges b.1 pieces).map fun e => (e.1 : Int) := by
    rw [← spans, List.map_map]
    rfl
  have stops : (blockParts count budget text b).map (fun p => (p.endOffset : Int)) =
      (ranges b.1 pieces).map fun e => (e.2 : Int) := by
    rw [← spans, List.map_map]
    rfl
  have several (f : Chunk → Int) : (blockParts count budget text b).filterMap (fun p => some (f p)) =
      (blockParts count budget text b).map f := congrFun List.filterMap_eq_map _
  rw [uncapped, Staging.extent]
  simp only [List.map_map, List.filterMap_map, Function.comp_def, several, starts, stops, parts.texts]
  rw [join_ofList, joined, least?_ranges _ filled, greatest?_ranges _ filled, stop]

theorem countable_blocks (held : text ≠ []) (fits : (byteLength text : Int) ≤ MetaValue.intMax)
    (id : String) : ((ChunkGroup.partsOf ((blocks count budget text).2.flatMap
      (blockParts count budget text)) id).length : Int) ≤ MetaValue.intMax := by
  have family := family_blocks count budget held fits
  by_cases there : id ∈ ChunkGroup.idsOf ((blocks count budget text).2.flatMap
      (blockParts count budget text))
  · obtain ⟨b, mem, rfl⟩ := List.mem_map.1 ((ChunkGroup.idsOf_family family).subset there)
    obtain ⟨pieces, parts, -, -, -, few⟩ := blockParts_spec held mem
    have length := congrArg List.length parts.texts
    rw [List.length_map, List.length_map] at length
    rw [ChunkGroup.partsOf_family family mem]
    omega
  · have none : ChunkGroup.partsOf ((blocks count budget text).2.flatMap
        (blockParts count budget text)) id = [] := by
      refine List.eq_nil_iff_forall_not_mem.2 fun p part => there ?_
      exact ChunkGroup.mem_idsOf.2 ⟨p, ChunkGroup.mem_partsOf.1 part⟩
    rw [none]
    decide

/-- What a block should be put together to. -/
def blockExtent (text : List Char) (b : Nat × Nat) : String × Option Int × Option Int :=
  (String.ofList (slice text b.1 b.2), some (b.1 : Int), some (b.2 : Int))

/-- Chunks that have the extents of the blocks stand, once they are sorted, in the order of the
blocks. -/
theorem sorted_extents {fileId : Int} {chunks : List WholeChunk} {found : List (Nat × Nat)}
    (ascending : found.Pairwise fun a b => a.1 < b.1) (file : ∀ c ∈ chunks, c.fileId = fileId)
    (sorted : chunks.Pairwise fun a b => a.before b = true)
    (perm : (chunks.map fun c => (c.text, c.startByte, c.endByte)).Perm (found.map (blockExtent text))) :
    chunks.map (fun c => (c.text, c.startByte, c.endByte)) = found.map (blockExtent text) := by
  have place (c : WholeChunk) (mem : c ∈ chunks) : c.startByte = some c.position := by
    obtain ⟨b, -, same⟩ := List.mem_map.1 (perm.subset (List.mem_map_of_mem mem))
    have start : c.startByte = some (b.1 : Int) := (congrArg (·.2.1) same).symm
    rw [WholeChunk.position, start]
    rfl
  have ascending' : (chunks.map fun c => (c.text, c.startByte, c.endByte)).Pairwise
      fun x y => x.2.1.getD 0 ≤ y.2.1.getD 0 := by
    refine List.pairwise_map.2 (sorted.imp_of_mem fun {a b} ha hb before => ?_)
    simp only [place a ha, place b hb, Option.getD_some]
    rcases WholeChunk.before_iff.1 before with less | ⟨-, less | ⟨same, -⟩⟩
    · rw [file a ha, file b hb] at less
      exact absurd less (Int.lt_irrefl _)
    · exact Int.le_of_lt less
    · exact Int.le_of_eq same
  have blocks_ascending : (found.map (blockExtent text)).Pairwise
      fun x y => x.2.1.getD 0 ≤ y.2.1.getD 0 :=
    List.pairwise_map.2 (ascending.imp fun less => Int.le_of_lt (Int.ofNat_lt.2 less))
  have apart : (found.map (·.1)).Nodup :=
    List.pairwise_map.2 (ascending.imp fun less => Nat.ne_of_lt less)
  refine List.Perm.eq_of_pairwise (fun x y hx hy xy yx => ?_) ascending' blocks_ascending perm
  obtain ⟨a, ha, rfl⟩ := List.mem_map.1 (perm.subset hx)
  obtain ⟨b, hb, rfl⟩ := List.mem_map.1 hy
  simp only [blockExtent, Option.getD_some] at xy yx
  rw [List.inj_on_of_nodup_map apart ha hb (by omega)]

section Result

variable {q : StageRequest} {fileId : Int} {ids : Staging.SymbolIds} {rows : List Slice}

theorem top_of_text (held : text ≠ [])
    (made : q.result.chunks = (blocks count budget text).2.flatMap (blockParts count budget text))
    (all : Staging.Rows q fileId ids (rows.map (·.content))) : ∀ r ∈ rows, r.Top := by
  intro r mem
  have there : Except.ok r.content ∈ q.result.inOrder.map (Staging.sliceContent q fileId ids) :=
    (show _ = _ from all) ▸ List.mem_map_of_mem (List.mem_map_of_mem mem)
  obtain ⟨p, part, done⟩ := List.mem_map.1 there
  rw [Staging.mem_inOrder, made] at part
  obtain ⟨b, block, inside⟩ := List.mem_flatMap.1 part
  exact Staging.top_of_unrelated (unrelated_blockParts held block inside).1 done rfl

/-- The rows of a text are put together to its blocks, in order. -/
theorem recompose_text (held : text ≠ []) (fits : (byteLength text : Int) ≤ MetaValue.intMax)
    (made : q.result.chunks = (blocks count budget text).2.flatMap (blockParts count budget text))
    (file : ∀ r ∈ rows, r.content.fileId = fileId)
    (ordered : (rows.map (·.content)).Pairwise SliceContent.Before)
    (all : Staging.Rows q fileId ids (rows.map (·.content))) :
    ∃ chunks, Recomposition.recompose rows = .ok (Recomposition.flat chunks) ∧
      chunks.map (fun c => (c.text, c.startByte, c.endByte)) =
        (blocks count budget text).2.map (blockExtent text) := by
  have family := family_blocks count budget held fits
  have complete : ∀ g ∈ ChunkGroup.all q.result.chunks, g.Complete := fun g mem =>
    ChunkGroup.complete_family family (made ▸ mem)
  obtain ⟨chunks, done, sorted⟩ :=
    Recomposition.recompose_top file ordered (top_of_text held made all)
  obtain ⟨-, whole⟩ := Recomposition.recompose_file file ordered done
  rw [Recomposition.forest_flat] at whole
  have ascending : (blocks count budget text).2.Pairwise fun a b => a.1 < b.1 := by
    obtain ⟨pieces, same, -, own⟩ := cuts_blocks count budget held
    exact same ▸ ascending_of_tiles (tiles_ranges 0 own)
  refine ⟨chunks, done, sorted_extents ascending (fun c mem => (whole c mem).1) sorted ?_⟩
  -- Both sides are the extents of all chunks, once read from the rows and once from the parts.
  have columns := (Staging.forest_column (Staging.spanColumn q fileId ids) complete file ordered all
    done).map fun e => Staging.extent e.2
  rw [Recomposition.forest_flat, List.map_map, List.map_map] at columns
  have extents : chunks.map (fun c => (c.text, c.startByte, c.endByte)) = chunks.map fun c =>
      Staging.extent (c.parts.map fun r => (Staging.spanColumn q fileId ids).ofRow r.content) :=
    List.map_congr_left fun c mem => Staging.extent_made (whole c mem).2
  have parts := ((ChunkGroup.idsOf_family family).map fun id => Staging.extent
    ((ChunkGroup.partsOf q.result.chunks id).map (Staging.spanColumn q fileId ids).ofPart))
  rw [← made, List.map_map] at parts
  have blocks_extents : (blocks count budget text).2.map (fun b => Staging.extent
      ((ChunkGroup.partsOf q.result.chunks (blockId (blocks count budget text).1 b)).map
        (Staging.spanColumn q fileId ids).ofPart)) =
      (blocks count budget text).2.map (blockExtent text) := by
    refine List.map_congr_left fun b mem => ?_
    rw [made, ChunkGroup.partsOf_family family mem, extent_block held fits mem, blockExtent]
  rw [extents]
  exact (columns.trans parts).trans (List.Perm.of_eq blocks_extents)

end Result

theorem read_text {r : Reading} {path : String} {source : LoadedSource}
    (loaded : r.load path "text" = .ok source) (filled : isAllBlank source.text = false) :
    (read r path).symbols = [] ∧
      (read r path).chunks = (blocks r.count (r.maxTokens "text") source.text).2.flatMap
        (blockParts r.count (r.maxTokens "text") source.text) := by
  obtain ⟨chunks, symbols⟩ := output_chunks r.count (r.maxTokens "text") filled
  simp only [read, loaded, Output.toResult]
  exact ⟨symbols, chunks⟩

/-- A text is staged under a batch that is new to its file, and the batch then shows its rows. -/
theorem stage_text {s : Store} {q : StageRequest} (sound : s.Sound) (held : text ≠ [])
    (fits : (byteLength text : Int) ≤ MetaValue.intMax) (symbols : q.result.symbols = [])
    (made : q.result.chunks = (blocks count budget text).2.flatMap (blockParts count budget text))
    (known : s.hasBatch q.batchId = true) (fresh : s.Fresh q.batchId (Staging.repoPath q))
    (now : Instant) :
    ∃ t o ids, Staging.stage s now q = .ok (t, o) ∧ t.Sound ∧
      Staging.Rows q o.fileId ids ((t.fileSlices q.batchId o.fileId).map (·.content)) := by
  have family := family_blocks count budget held fits
  have complete : ∀ g ∈ ChunkGroup.all q.result.chunks, g.Complete := fun g mem =>
    ChunkGroup.complete_family family (made ▸ mem)
  have plain : ∀ p ∈ q.result.chunks, Staging.Plain q p := by
    intro p mem
    obtain ⟨b, block, inside⟩ := List.mem_flatMap.1 (made ▸ mem)
    exact Staging.plain_of_unrelated (unrelated_blockParts held block inside).1
  have countable : Staging.Countable q.result := fun id => made ▸ countable_blocks held fits id
  obtain ⟨t, o, done⟩ := Staging.stage_succeeds now known symbols complete plain
  have sound_t := Staging.sound_stage sound done
  exact ⟨t, o, _, done, sound_t, Staging.shows_of_unseen sound_t countable
    (Staging.unseen_of_fresh fresh (Staging.stage_number sound done))
    (Staging.stage_effect sound countable done)⟩

/-- Reading a text, staging it under a batch that is new to its file, and putting it together again
gives trees without children that hold the text from its start to its end. -/
theorem text_recomposes_losslessly {s : Store} (sound : s.Sound) {r : Reading} {path : String}
    {source : LoadedSource} (loaded : r.load path "text" = .ok source)
    (filled : isAllBlank source.text = false)
    (fits : (byteLength source.text : Int) ≤ MetaValue.intMax) {q : StageRequest}
    (result : q.result = read r path) (known : s.hasBatch q.batchId = true)
    (fresh : s.Fresh q.batchId (Staging.repoPath q)) (now : Instant) :
    ∃ t o trees, Staging.stage s now q = .ok (t, o) ∧
      Recomposition.ofFile t q.batchId o.fileId = .ok trees ∧
      (∀ tree ∈ trees, tree.children = []) ∧
      String.join (trees.map (·.chunk.text)) = String.ofList source.text ∧
      ∃ spans, Tiles 0 (byteLength source.text) spans ∧
        trees.map (fun tree => (tree.chunk.startByte, tree.chunk.endByte)) =
          spans.map fun b => (some (b.1 : Int), some (b.2 : Int)) := by
  obtain ⟨symbols, made⟩ := read_text loaded filled
  rw [← result] at symbols made
  have held : source.text ≠ [] := by
    intro none
    rw [none] at filled
    cases filled
  obtain ⟨t, o, ids, done, sound_t, all⟩ := stage_text sound held fits symbols made known fresh now
  obtain ⟨chunks, recomposed, extents⟩ := recompose_text held fits made
    (fun r mem => ((Store.mem_fileSlices sound_t).1 mem).2) (Store.fileSlices_ordered sound_t _ _) all
  obtain ⟨pieces, same, joined, own⟩ := cuts_blocks r.count (r.maxTokens "text") held
  have tiles := tiles_ranges 0 own
  rw [joined, Nat.zero_add, ← same] at tiles
  refine ⟨t, o, Recomposition.flat chunks, done, recomposed, ?_, ?_, _, tiles, ?_⟩
  · intro tree mem
    obtain ⟨c, -, rfl⟩ := List.mem_map.1 mem
    rfl
  · have slices := slices_ranges [] pieces
    rw [List.nil_append, joined] at slices
    have texts : (Recomposition.flat chunks).map (·.chunk.text) = pieces.map String.ofList := by
      have firsts := congrArg (List.map (·.1)) extents
      simp only [List.map_map, Function.comp_def, blockExtent, same] at firsts
      rw [← slices, List.map_map, Recomposition.flat, List.map_map]
      exact firsts
    rw [texts, join_ofList, joined]
  · have spans := congrArg (List.map (·.2)) extents
    simpa only [Recomposition.flat, List.map_map, Function.comp_def, blockExtent, ChunkTree.chunk]
      using spans

/-- A file of two paragraphs, read with a budget of one token. -/
def twoParagraphs : Reading where
  root := "."
  config := {}
  count := Tokens.count
  autoBudget := 1
  registry := ⟨[], ∅, ∅⟩
  readers := grammars
  disk _ := .ok [111, 110, 101, 10, 10, 116, 119, 111, 10]

def twoParagraphsRequest : StageRequest where
  batchId := "b1"
  handlerName := "text"
  handlerVersion := "1.0.0"
  versions := SortedMap.empty
  result := read twoParagraphs "notes.txt"

theorem two_paragraphs_recompose : ∃ source, twoParagraphs.load "notes.txt" "text" = .ok source ∧
    source.text = ['o', 'n', 'e', '\n', '\n', 't', 'w', 'o', '\n'] ∧
    ∃ t o trees, Staging.stage (Ledger.after [.ensureBatch { id := "b1", generatedAt := .epoch }]).store
        .epoch twoParagraphsRequest = .ok (t, o) ∧
      Recomposition.ofFile t "b1" o.fileId = .ok trees ∧ (∀ tree ∈ trees, tree.children = []) ∧
      String.join (trees.map (·.chunk.text)) = String.ofList source.text ∧
      ∃ spans, Tiles 0 (byteLength source.text) spans ∧
        trees.map (fun tree => (tree.chunk.startByte, tree.chunk.endByte)) =
          spans.map fun b => (some (b.1 : Int), some (b.2 : Int)) := by
  obtain ⟨source, loaded, text⟩ : ∃ source, twoParagraphs.load "notes.txt" "text" = .ok source ∧
      source.text = ['o', 'n', 'e', '\n', '\n', 't', 'w', 'o', '\n'] :=
    ⟨_, rfl, String.toList_ofList⟩
  exact ⟨source, loaded, text, text_recomposes_losslessly
    (Ledger.sound_after [.ensureBatch { id := "b1", generatedAt := .epoch }]) loaded
    (by rw [text]; decide) (by rw [text]; decide) rfl rfl (fun fileId known => by cases known) .epoch⟩

end Plain

end SourceSlices
