import SourceSlices.Chunk
import SourceSlices.Tokens

/-!
Splitting by a token budget. Text is cut at line ends; a line that alone exceeds the budget is cut
between characters. Nothing is dropped, so the parts always join to the whole text.
-/
namespace SourceSlices

/-- A contiguous piece of a text; offsets count bytes from the start of that text. -/
structure SplitPart where
  start : Nat
  stop : Nat
  text : String
  tokenCount : Nat
  truncated : Bool
  deriving DecidableEq

namespace Split

def truncationReason : String := "line exceeds token budget"

def part (count : Counter) (start : Nat) (cs : List Char) (truncated : Bool) : SplitPart :=
  ⟨start, start + Text.byteLength cs, String.ofList cs, count cs, truncated⟩

/-- Searches the lengths from `lo` to `hi` for a prefix within the budget, by halving; `best` is the
last length that was found to fit. The search ends when the range is empty. -/
def searchCut (count : Counter) (budget : Nat) (line : List Char) (lo hi best : Nat) : Nat :=
  if _h : lo ≤ hi then
    let mid := lo + (hi - lo) / 2
    if count (line.take (mid + 1)) ≤ budget then
      searchCut count budget line (mid + 1) hi mid
    else if hm : mid = 0 then best
    else searchCut count budget line lo (mid - 1) best
  else best
termination_by hi + 1 - lo
decreasing_by all_goals omega

/-- Number of characters of the next cut of a line, at least one. -/
def cutLength (count : Counter) (budget : Nat) (line : List Char) : Nat :=
  searchCut count budget line 0 (line.length - 1) 0 + 1

/-- Cuts one line between characters. -/
def cutLine (count : Counter) (budget : Nat) (start : Nat) (line : List Char) : List SplitPart :=
  if _h : line = [] then []
  else
    let n := cutLength count budget line
    let piece := line.take n
    part count start piece true ::
      cutLine count budget (start + Text.byteLength piece) (line.drop n)
termination_by line.length
decreasing_by
  have : 0 < line.length := List.length_pos_iff.2 _h
  simp only [List.length_drop, cutLength]
  omega

/-- Closes the part that is being collected, if it holds anything. -/
def close (count : Counter) (start : Nat) (open' : List Char) : List SplitPart :=
  if open'.isEmpty then [] else [part count start open' false]

/-- Collects lines into parts; `open'` are the characters of the part that begins at `start`. -/
def packLines (count : Counter) (budget : Nat) :
    Nat → List Char → List (List Char) → List SplitPart
  | start, open', [] => close count start open'
  | start, open', line :: rest =>
    let here := start + Text.byteLength open'
    if budget < count line then
      close count start open' ++ cutLine count budget here line ++
        packLines count budget (here + Text.byteLength line) [] rest
    else if !open'.isEmpty && budget < count (open' ++ line) then
      part count start open' false :: packLines count budget here line rest
    else packLines count budget start (open' ++ line) rest

/-- Parts of a text that stay within the budget where lines allow it. -/
def byTokens (count : Counter) (budget : Nat) (cs : List Char) : List SplitPart :=
  let budget := max budget 1
  if count cs ≤ budget then [part count 0 cs false]
  else packLines count budget 0 [] (Text.linesInclusive cs)

/-- Coordinates of one part among all parts of its chunk. -/
def putPart (m : Metadata) (index total : Nat) : Metadata :=
  let m := (m.putNat "part_index" index).putNat "part_total" total
  if 1 < total then m.putBool "overflow" true else m

def warning (name : String) (parts : Nat) : String :=
  name ++ " split into " ++ toString parts ++ " chunks due to token cap"

/-- One part of a chunk, with its own span and metadata. -/
def partChunk (chunk : Chunk) (lines : Option LineIndex) (total : Nat) (index : Nat)
    (p : SplitPart) : Chunk :=
  let start := min (chunk.startOffset + p.start) chunk.endOffset
  let stop := min (chunk.startOffset + p.stop) chunk.endOffset
  let m := match lines with
    | some lines => if 1 < total then chunk.metadata.putLines lines start stop else chunk.metadata
    | none => chunk.metadata
  let m := putPart m index total
  let m := if p.truncated then
      (m.putBool "overflow_is_truncated" true).putStr "overflow_reason" truncationReason
    else m
  { chunk with
    text := p.text, tokenCount := p.tokenCount, startOffset := start, endOffset := stop,
    partIndex := index, metadata := m }

/-- Splits a chunk into parts under its id. With a line index each part of several gets its own
lines; the text of the chunk must then be the slice of its span. -/
def chunk (count : Counter) (budget : Nat) (lines : Option LineIndex) (c : Chunk) : List Chunk :=
  let parts := byTokens count budget c.text.toList
  parts.mapIdx fun i p => partChunk c lines parts.length i p

end Split

end SourceSlices
