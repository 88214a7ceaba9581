import SourceSlices.Syntax.Lexer

/-!
The tokens of Python that depend on what stands around them: line ends, indents and their ends, and
the parts of string literals.
-/
namespace SourceSlices.Python

open Syntax

/-- The literal that a scanner is in. -/
structure Quote where
  sign : Char
  triple : Bool := false
  raw : Bool := false
  format : Bool := false
  bytes : Bool := false
  deriving DecidableEq

/-- Open indents and literals, innermost first. -/
structure Layout where
  indents : List Nat := []
  quotes : List Quote := []
  inFormat : Bool := false
  deriving DecidableEq

/-- The tokens, by their places in the grammar's list. -/
inductive LayoutToken where
  | newline
  | indent
  | dedent
  | stringStart
  | stringContent
  | escapedBrace
  | stringEnd
  | comment
  | closeBracket
  | closeParen
  | closeBrace
  | except'
  deriving DecidableEq

def LayoutToken.place : LayoutToken → Nat
  | .newline => 0
  | .indent => 1
  | .dedent => 2
  | .stringStart => 3
  | .stringContent => 4
  | .escapedBrace => 5
  | .stringEnd => 6
  | .comment => 7
  | .closeBracket => 8
  | .closeParen => 9
  | .closeBrace => 10
  | .except' => 11

/-- The character at a position; NUL where the text ends. -/
def charAt (text : Array Char) (i : Nat) : Char := text.getD i '\x00'

def hit (token : LayoutToken) (start stop : Nat) (state : Layout) : Hit Layout :=
  ⟨token.place, start, stop, some state⟩

namespace Layout

def leaveString (s : Layout) : Layout := { s with quotes := s.quotes.drop 1, inFormat := false }

/-- What a look for the content of a literal comes to. -/
inductive Content where
  | found (h : Hit Layout)
  | missed
  | ran (stop : Nat)

/-- Past a backslash in a raw literal, with a quote, a backslash or a line end after it. -/
def pastRaw (text : Array Char) (q : Quote) (i : Nat) : Nat :=
  let j := if charAt text i = q.sign || charAt text i = '\\' then i + 1 else i
  if charAt text j = '\r' then if charAt text (j + 1) = '\n' then j + 2 else j + 1
  else if charAt text j = '\n' then j + 1 else j

/-- The content of a literal up to its end, an escape or a brace; or the end itself. -/
def content (s : Layout) (q : Quote) (text : Array Char) (pos : Nat) : Nat → Nat → Bool → Content
  | 0, i, _ => .ran i
  | fuel + 1, i, some' =>
    let c := charAt text i
    let here : Content := if some' then .found (hit .stringContent pos i s) else .missed
    if c = '\x00' then .ran i
    else if q.format && (c = '\x7b' || c = '\x7d') then here
    else if c = '\\' then
      if q.raw then content s q text pos fuel (pastRaw text q (i + 1)) some'
      else if q.bytes && ['N', 'u', 'U'].contains (charAt text (i + 1)) then
        content s q text pos fuel (if i + 2 < text.size then i + 3 else i + 2) true
      else here
    else if c = q.sign then
      if q.triple then
        if charAt text (i + 1) = q.sign then
          if charAt text (i + 2) = q.sign then
            if some' then here else .found (hit .stringEnd pos (i + 3) s.leaveString)
          else .found (hit .stringContent pos (i + 2) s)
        else .found (hit .stringContent pos (i + 1) s)
      else if some' then here
      else .found (hit .stringEnd pos (i + 1) s.leaveString)
    else if c = '\n' && some' && !q.triple then .missed
    else content s q text pos fuel (i + 1) true

/-- Blanks, comment lines and joined lines before a token. -/
structure Gap where
  stop : Nat
  lineEnded : Bool := false
  indent : Nat := 0
  firstComment : Option Nat := none

def skipLine (text : Array Char) : Nat → Nat → Nat
  | 0, i => i
  | fuel + 1, i =>
    match text[i]? with
    | some c => if c = '\n' || c = '\x00' then i else skipLine text fuel (i + 1)
    | none => i

/-- Measures the gap; none when a comment follows code or a backslash joins nothing. -/
def gap? (comments : Bool) (text : Array Char) : Nat → Gap → Option Gap
  | 0, g => some g
  | fuel + 1, g =>
    let i := g.stop
    match text[i]? with
    | none => some { g with indent := 0, lineEnded := true }
    | some c =>
      if c = '\n' then gap? comments text fuel { g with stop := i + 1, lineEnded := true, indent := 0 }
      else if c = ' ' then gap? comments text fuel { g with stop := i + 1, indent := g.indent + 1 }
      else if c = '\r' || c = '\x0c' then
        gap? comments text fuel { g with stop := i + 1, indent := 0 }
      else if c = '\t' then gap? comments text fuel { g with stop := i + 1, indent := g.indent + 8 }
      else if c = '#' && comments then
        if !g.lineEnded then none
        else
          let stop := min (skipLine text text.size i + 1) text.size
          gap? comments text fuel
            ⟨stop, g.lineEnded, 0, some (g.firstComment.getD g.indent)⟩
      else if c = '\\' then
        let j := if charAt text (i + 1) = '\r' then i + 2 else i + 1
        if charAt text j = '\n' || text.size ≤ j then
          gap? comments text fuel { g with stop := min (j + 1) text.size }
        else none
      else some g

/-- A literal's beginning: its letters and its quote. -/
def stringStart? (s : Layout) (text : Array Char) (start : Nat) : Option (Hit Layout) :=
  let rec go : Nat → Nat → Quote → Option (Hit Layout)
    | 0, _, _ => none
    | fuel + 1, i, q =>
      let c := charAt text i
      if ['f', 'F', 't', 'T'].contains c then go fuel (i + 1) { q with format := true }
      else if c = 'r' || c = 'R' then go fuel (i + 1) { q with raw := true }
      else if c = 'b' || c = 'B' then go fuel (i + 1) { q with bytes := true }
      else if c = 'u' || c = 'U' then go fuel (i + 1) q
      else if c = '\x60' || c = '\'' || c = '"' then
        let triple := c ≠ '\x60' && charAt text (i + 1) = c && charAt text (i + 2) = c
        let q := { q with sign := c, triple }
        some (hit .stringStart start (if triple then i + 3 else i + 1)
          { s with quotes := q :: s.quotes, inFormat := q.format })
      else none
  go (text.size + 1) start ⟨'\x00', false, false, false, false⟩

/-- Indents, their ends and line ends, or the beginning of a literal. -/
def line (s : Layout) (valid : LayoutToken → Bool) (recovering : Bool) (text : Array Char)
    (pos mark : Nat) : Option (Hit Layout) :=
  let comments := valid .indent || valid .dedent || valid .newline || valid .except'
  match gap? comments text (text.size + 1) ⟨mark, false, 0, none⟩ with
  | none => none
  | some g =>
    let current := s.indents.headD 0
    let c := charAt text g.stop
    let quoted := c = '"' || c = '\'' || c = '\x60'
    let bracketed := valid .closeBrace || valid .closeParen || valid .closeBracket
    if g.lineEnded && valid .indent && g.indent > current then
      some (hit .indent pos mark { s with indents := g.indent :: s.indents })
    else if g.lineEnded &&
        (valid .dedent || (!valid .newline && !(valid .stringStart && quoted) && !bracketed)) &&
        g.indent < current && !s.inFormat && g.firstComment.all (· < current) then
      some (hit .dedent pos mark { s with indents := s.indents.drop 1 })
    else if g.lineEnded && valid .newline && !recovering then some (hit .newline pos mark s)
    else if g.firstComment.isNone && valid .stringStart then s.stringStart? text g.stop
    else none

/-- A brace that is written twice in a format literal. -/
def escapedBrace? (s : Layout) (text : Array Char) (pos : Nat) : Option (Hit Layout) :=
  if charAt text (pos + 1) = charAt text pos then some (hit .escapedBrace pos (pos + 2) s) else none

def scan (memory : Option Layout) (has : Nat → Bool) (text : Array Char) (pos : Nat) :
    Option (Hit Layout) :=
  let s := memory.getD {}
  let valid (t : LayoutToken) : Bool := has t.place
  let recovering := valid .stringContent && valid .indent
  let c := charAt text pos
  match s.quotes with
  | [] => s.line valid recovering text pos pos
  | q :: _ =>
    if recovering then s.line valid recovering text pos pos
    else if valid .escapedBrace && q.format && (c = '\x7b' || c = '\x7d') then
      s.escapedBrace? text pos
    else if valid .stringContent then
      match content s q text pos (text.size + 1) pos false with
      | .found h => some h
      | .missed => none
      | .ran stop => s.line valid recovering text pos stop
    else s.line valid recovering text pos pos

end Layout

def scanner : Scanner Layout := ⟨Layout.scan⟩

end SourceSlices.Python
