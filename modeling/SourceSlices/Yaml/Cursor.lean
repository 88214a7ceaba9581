import SourceSlices.Text.Lines

/-!
A place in a YAML text, with its line and column.
-/
namespace SourceSlices.Yaml

def isBreak (c : Char) : Bool :=
  c = '\n' || c = '\r' || c.toNat = 0x85 || c.toNat = 0x2028 || c.toNat = 0x2029

def isSpaceOrTab (c : Char) : Bool := c = ' ' || c = '\t'

/-- Blank, line end or end of the text. -/
def isGap : Option Char → Bool
  | none => true
  | some c => isSpaceOrTab c || isBreak c

/-- Letters of names of anchors, handles and directives. -/
def isWordChar (c : Char) : Bool := c.isAlphanum || c = '_' || c = '-'

/-- Characters that may stand in a text at all. -/
def isAllowed (c : Char) : Bool :=
  let n := c.toNat
  n = 9 || n = 10 || n = 13 || (0x20 ≤ n && n ≤ 0x7e) || n = 0x85 || (0xa0 ≤ n && n ≤ 0xfffd) ||
    0x10000 ≤ n

structure Cursor where
  rest : List Char
  index : Nat := 0
  line : Nat := 0
  column : Nat := 0

namespace Cursor

def peek? (c : Cursor) : Option Char := c.rest.head?

def at? (c : Cursor) (n : Nat) : Option Char := c.rest[n]?

def fuel (c : Cursor) : Nat := c.rest.length + 1

/-- Moves over characters of the same line. -/
def advance (c : Cursor) (n : Nat) : Cursor :=
  { c with rest := c.rest.drop n, index := c.index + n, column := c.column + n }

def span (c : Cursor) (p : Char → Bool) : List Char × Cursor :=
  let taken := c.rest.takeWhile p
  (taken, c.advance taken.length)

def skipWhile (c : Cursor) (p : Char → Bool) : Cursor := (c.span p).2

/-- What a line end reads as. -/
def lineEnd (c : Cursor) : List Char :=
  match c.rest with
  | [] => []
  | b :: _ => if b.toNat = 0x2028 || b.toNat = 0x2029 then [b] else ['\n']

/-- Moves over a line end. -/
def nextLine (c : Cursor) : Cursor :=
  match c.rest with
  | [] => c
  | '\r' :: '\n' :: rest => ⟨rest, c.index + 2, c.line + 1, 0⟩
  | _ :: rest => ⟨rest, c.index + 1, c.line + 1, 0⟩

def atBreak (c : Cursor) : Bool := c.peek?.any isBreak

/-- Moves to the end of the line. -/
def skipLine (c : Cursor) : Cursor := c.skipWhile (!isBreak ·)

/-- Whether a line begins here with three such marks and nothing attached to them. -/
def atMarker (c : Cursor) (mark : Char) : Bool :=
  c.column = 0 && c.rest.take 3 == [mark, mark, mark] && isGap (c.at? 3)

/-- Whether a document begins or ends here. -/
def atDocumentMark (c : Cursor) : Bool := c.atMarker '-' || c.atMarker '.'

end Cursor

end SourceSlices.Yaml
