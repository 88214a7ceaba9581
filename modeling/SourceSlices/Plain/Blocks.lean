import SourceSlices.Reading

/-!
Plain text: blocks between blank lines, or blocks that begin at the margin after indented lines, or
the whole text. Blocks tile the text.
-/
namespace SourceSlices.Plain

/-- How a text is cut. -/
inductive Strategy where
  | paragraph
  | indent
  | fallback
  deriving DecidableEq

def Strategy.label : Strategy → String
  | .paragraph => "paragraph"
  | .indent => "indent"
  | .fallback => "fallback"

def Strategy.kind : Strategy → String
  | .paragraph => "paragraph"
  | .indent => "indent_block"
  | .fallback => "fallback"

/-- Closes the last block at the end of the text. -/
def closeBlock (start stop : Nat) : List (Nat × Nat) := if start < stop then [(start, stop)] else []

/-- Blocks from a given line on: `start` is where the current block begins and `offset` the line;
the flags tell whether the block has content, and whether a blank line has followed it. -/
def paragraphsFrom (start offset : Nat) (hasContent afterBlank : Bool) :
    List (List Char) → List (Nat × Nat)
  | [] => closeBlock start offset
  | line :: rest =>
    let next := offset + Text.byteLength line
    if Text.isAllBlank line then paragraphsFrom start next hasContent hasContent rest
    else if afterBlank then (start, offset) :: paragraphsFrom offset next true false rest
    else paragraphsFrom start next true false rest

/-- Blocks separated by blank lines, which stay with the block before them. -/
def paragraphBlocks (text : List Char) : List (Nat × Nat) :=
  paragraphsFrom 0 0 false false (Text.linesInclusive text)

def isIndented : List Char → Bool
  | ' ' :: _ => true
  | '\t' :: _ => true
  | _ => false

def indentsFrom (start offset : Nat) (seenIndented : Bool) : List (List Char) → List (Nat × Nat)
  | [] => closeBlock start offset
  | line :: rest =>
    let next := offset + Text.byteLength line
    if Text.isAllBlank line then indentsFrom start next seenIndented rest
    else if !isIndented line && seenIndented && start < offset then
      (start, offset) :: indentsFrom offset next false rest
    else indentsFrom start next (seenIndented || isIndented line) rest

/-- Blocks that begin with a line at the margin after indented ones. -/
def indentBlocks (text : List Char) : List (Nat × Nat) :=
  indentsFrom 0 0 false (Text.linesInclusive text)

/-- The strategy for a text and its blocks. -/
def blocks (count : Counter) (budget : Nat) (text : List Char) : Strategy × List (Nat × Nat) :=
  let paragraphs := paragraphBlocks text
  if paragraphs.length = 1 ∧ budget < count text then
    let indents := indentBlocks text
    if indents.length ≤ 1 then (.fallback, [(0, Text.byteLength text)]) else (.indent, indents)
  else (.paragraph, paragraphs)

def blockOutput (count : Counter) (budget : Nat) (text : List Char) (lines : LineIndex)
    (s : Strategy) (b : Nat × Nat) : Output :=
  let id := "text:" ++ s.label ++ ":" ++ toString b.1 ++ ":" ++ toString b.2
  let m := (Metadata.empty.putStr "kind" s.kind).putStr "strategy" s.label
  Output.ofChunk count budget (some lines) id
    { Chunk.ofSlice id text b.1 b.2 with metadata := m.putLines lines b.1 b.2 }

def output (count : Counter) (budget : Nat) (text : List Char) : Output :=
  if Text.isAllBlank text then {}
  else
    let (strategy, found) := blocks count budget text
    .join (found.map (blockOutput count budget text (LineIndex.ofText text) strategy))

def read (r : Reading) (path : String) : HandlerResult :=
  match r.load path "text" with
  | .error e => r.unreadable path "text" e
  | .ok source => (output r.count (r.maxTokens "text") source.text).toResult source

end SourceSlices.Plain
