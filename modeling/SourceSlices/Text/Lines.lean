import SourceSlices.Text.Class

/-!
Cutting text: by bytes, at line ends, at blanks. Offsets count UTF-8 bytes; characters stay whole. The
lines of offsets are counted from one.
-/
namespace SourceSlices.Text

/-- Number of UTF-8 bytes. -/
def byteLength (cs : List Char) : Nat := cs.foldr (fun c n => c.utf8Size + n) 0

/-- The characters that begin at byte `n` or later. -/
def dropBytes : Nat → List Char → List Char
  | 0, cs => cs
  | _ + 1, [] => []
  | n + 1, c :: cs => dropBytes (n + 1 - c.utf8Size) cs

/-- The characters that begin before byte `n`. -/
def takeBytes : Nat → List Char → List Char
  | 0, _ => []
  | _ + 1, [] => []
  | n + 1, c :: cs => c :: takeBytes (n + 1 - c.utf8Size) cs

/-- The characters that begin in the byte range `start ≤ · < stop`. -/
def slice (cs : List Char) (start stop : Nat) : List Char :=
  takeBytes (stop - start) (dropBytes start cs)

/-- Lines with their line feed; the last one may lack it. No line is empty. -/
def linesInclusive : List Char → List (List Char)
  | [] => []
  | c :: cs =>
    if c = '\n' then [c] :: linesInclusive cs
    else match linesInclusive cs with
      | [] => [[c]]
      | line :: rest => (c :: line) :: rest

/-- Removes one line feed, and one carriage return before it, from the end. -/
def chompLine (line : List Char) : List Char :=
  match line.reverse with
  | '\n' :: '\r' :: rest => rest.reverse
  | '\n' :: rest => rest.reverse
  | _ => line

/-- Lines without their ends. -/
def lines (cs : List Char) : List (List Char) := (linesInclusive cs).map chompLine

/-- Pieces between separators; always one more than there are separators. -/
def splitOn (sep : Char) : List Char → List (List Char)
  | [] => [[]]
  | c :: cs =>
    if c = sep then [] :: splitOn sep cs
    else match splitOn sep cs with
      | [] => [[c]]
      | piece :: rest => (c :: piece) :: rest

/-- Joins pieces with a separator. -/
def join (sep : List Char) : List (List Char) → List Char
  | [] => []
  | [piece] => piece
  | piece :: rest => piece ++ sep ++ join sep rest

def trimStartWhere (p : Char → Bool) (cs : List Char) : List Char := cs.dropWhile p

def trimEndWhere (p : Char → Bool) (cs : List Char) : List Char :=
  (cs.reverse.dropWhile p).reverse

def trimWhere (p : Char → Bool) (cs : List Char) : List Char :=
  trimEndWhere p (trimStartWhere p cs)

def trimStart (cs : List Char) : List Char := trimStartWhere isBlank cs
def trimEnd (cs : List Char) : List Char := trimEndWhere isBlank cs
def trim (cs : List Char) : List Char := trimWhere isBlank cs

/-- No character other than blanks. -/
def isAllBlank (cs : List Char) : Bool := cs.all isBlank

/-- Maximal runs of characters that are not blank. -/
def words (cs : List Char) : List (List Char) :=
  go cs []
where
  go : List Char → List Char → List (List Char)
    | [], word => if word.isEmpty then [] else [word.reverse]
    | c :: rest, word =>
      if isBlank c then
        if word.isEmpty then go rest [] else word.reverse :: go rest []
      else go rest (c :: word)

/-- Every run of blanks becomes one space; none is left at the ends. -/
def collapse (cs : List Char) : List Char := join [' '] (words cs)

/-- Carriage returns, alone or before a line feed, become line feeds. -/
def unifyLineEnds : List Char → List Char
  | [] => []
  | '\r' :: '\n' :: cs => '\n' :: unifyLineEnds cs
  | c :: cs => (if c = '\r' then '\n' else c) :: unifyLineEnds cs

/-- The rest after a given beginning. -/
def dropPrefix? : List Char → List Char → Option (List Char)
  | cs, [] => some cs
  | [], _ :: _ => none
  | c :: cs, p :: ps => if c = p then dropPrefix? cs ps else none

/-- What stands before a given end. -/
def dropSuffix? (cs ending : List Char) : Option (List Char) :=
  (dropPrefix? cs.reverse ending.reverse).map List.reverse

/-- ASCII capitals become small letters; all else stays. -/
def asciiLower (cs : List Char) : List Char := cs.map Char.toLower

def lowerString (s : String) : String := String.ofList (asciiLower s.toList)

/-- First and last position of `pat` are not needed: only whether it occurs. -/
def contains (cs pat : List Char) : Bool :=
  match cs with
  | [] => pat.isEmpty
  | c :: rest => (dropPrefix? (c :: rest) pat).isSome || contains rest pat

/-- Replaces every occurrence of one character by another. -/
def replaceChar (old new : Char) (cs : List Char) : List Char :=
  cs.map fun c => if c = old then new else c

end SourceSlices.Text

namespace SourceSlices

/-- Ascending byte offsets of the line feeds of one text. -/
structure LineIndex where
  feeds : Array Nat

namespace LineIndex

/-- Offsets of line feeds in a text that starts at byte `at`. -/
def feedsFrom (start : Nat) : List Char → List Nat
  | [] => []
  | c :: cs =>
    if c = '\n' then start :: feedsFrom (start + c.utf8Size) cs
    else feedsFrom (start + c.utf8Size) cs

def ofText (cs : List Char) : LineIndex := ⟨(feedsFrom 0 cs).toArray⟩

/-- Line that holds the byte at `offset`: one more than the line feeds before it. -/
def line (i : LineIndex) (offset : Nat) : Nat :=
  i.feeds.foldl (fun n feed => if feed < offset then n + 1 else n) 0 + 1

/-- First and last line touched by the bytes from `start` to before `stop`. -/
def span (i : LineIndex) (start stop : Nat) : Nat × Nat :=
  (i.line start, i.line (if start < stop then stop - 1 else start))

end LineIndex

end SourceSlices
