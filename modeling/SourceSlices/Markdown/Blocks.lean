import SourceSlices.Markdown.Entity
import SourceSlices.Markdown.Link

/-!
The blocks of a document: containers (quotes and list items) are tracked line by line; headings and
code are kept, and the labels that link definitions define.
-/
namespace SourceSlices.Markdown

/-- An open container; what belongs to a list item is indented by its width. -/
inductive Container where
  | quote
  | item (width : Nat)
  deriving DecidableEq

/-- Blocks that matter, with positions in the text. -/
inductive Block where
  | heading (level start stop : Nat) (content : List Char)
  /-- Fenced code with the ranges of its text. -/
  | fenced (info : List Char) (start stop : Nat) (text : List (Nat × Nat))
  | indented (start stop : Nat) (text : List (Nat × Nat))

structure BlockState where
  /-- Open containers, outermost first. -/
  containers : List Container := []
  /-- Whether the last list item has nothing yet. -/
  emptyItem : Bool := false
  blankBefore : Bool := false
  blocks : List Block := []
  labels : List (List Char) := []

/-- Passes the markers and indents of open containers; how many of them a line continues. -/
def passContainers (t : Chars) : List Container → Cursor → Nat × Cursor
  | [], c => (0, c)
  | .quote :: rest, c =>
    match (c.spaces t 3).1.quoteMarker? t with
    | some next =>
      let (n, c) := passContainers t rest next
      (n + 1, c)
    | none => (0, c)
  | .item width :: rest, c =>
    let (next, missing) := c.spaces t width
    if missing = 0 || next.atEol t then
      let (n, c) := passContainers t rest next
      (n + 1, c)
    else (0, c)

namespace BlockState

def emit (s : BlockState) (b : Block) : BlockState := { s with blocks := s.blocks ++ [b] }

/-- Where the text of a line begins, and whether the line is in all open containers. -/
def enter (s : BlockState) (t : Chars) (i : Nat) : Bool × Cursor :=
  let (n, c) := passContainers t s.containers (.ofPos i)
  (n = s.containers.length, c)

/-- A list item can begin with at most one blank line: after two it is closed. -/
def settleItem (s : BlockState) : BlockState :=
  let containers :=
    match s.emptyItem && s.blankBefore, s.containers.getLast? with
    | true, some (.item _) => s.containers.dropLast
    | _, _ => s.containers
  { s with containers, emptyItem := false, blankBefore := false }

/-- Notes a blank line; an item that has nothing yet can hold no more. -/
def blank (s : BlockState) : BlockState :=
  match s.containers.getLast? with
  | none => s
  | some .quote => s
  | some (.item _) =>
    { s with
      blankBefore := true
      containers := if s.emptyItem then s.containers.dropLast ++ [.item 0] else s.containers }

/-! ### Code -/

/-- The ranges of one line of code; a carriage return is left out. -/
def codeLine (t : Chars) (start stop : Nat) : List (Nat × Nat) :=
  let pieces := if stop ≥ 2 && t[stop - 2]? = some '\r' then [(start, stop - 2), (stop - 1, stop)]
    else [(start, stop)]
  pieces.filter fun p => p.1 < p.2

def fencedFrom (s : BlockState) (t : Chars) (indent : Nat) (sign : Char) (length : Nat) :
    Nat → Nat → List (Nat × Nat) → Nat × Nat × List (Nat × Nat)
  | 0, i, text => (i, i, text)
  | fuel + 1, i, text =>
    let (inside, c) := s.enter t i
    if !inside then (i, i, text)
    else
      let c := (c.spaces t indent).1
      let (fence, missing) := c.spaces t (4 - indent)
      let close := if missing = 0 then none else closingFence? t sign length fence.pos
      match close with
      | some stop => (stop, (t.blankLine? stop).getD stop, text)
      | none =>
        let next := t.nextLine c.pos
        fencedFrom s t indent sign length fuel next (text ++ codeLine t c.pos next)

/-- Fenced code whose fence is at `start`; the position after it. -/
def fencedCode (s : BlockState) (t : Chars) (start indent : Nat) (sign : Char) (length : Nat) :
    BlockState × Nat :=
  let infoStart := t.skip isSpace (start + length)
  let next := t.nextLine infoStart
  let infoStop := t.skipBack isAsciiBlank infoStart next
  let info := t.slice infoStart infoStop
  let (stop, after, text) := s.fencedFrom t indent sign length (t.size + 1) next []
  (s.emit (.fenced (unescape info.length info) start stop text), after)

/-- Lines of indented code; `kept` are those up to the last one that is not blank. -/
def indentedFrom (s : BlockState) (t : Chars) :
    Nat → Nat → List (Nat × Nat) → List (Nat × Nat) → Nat × List (Nat × Nat)
  | 0, i, _, kept => (i, kept)
  | fuel + 1, i, text, kept =>
    let next := t.nextLine i
    let text := text ++ codeLine t i next
    let kept := if (t.blankLine? i).isSome then kept else text
    let (inside, c) := s.enter t next
    let (c, missing) := c.spaces t 4
    if !inside || next ≥ t.size || !(missing = 0 || c.atEol t) then (next, kept)
    else indentedFrom s t fuel c.pos text kept

def indentedCode (s : BlockState) (t : Chars) (start : Nat) : BlockState × Nat :=
  let (next, text) := s.indentedFrom t (t.size + 1) start [] []
  let stop := ((text.getLast?).map (·.2)).getD start
  let blankBefore := next > t.nextLine stop
  ({ s.emit (.indented start stop text) with blankBefore }, next)

/-! ### HTML -/

/-- An HTML block that ends with the line in which its end stands. -/
def htmlUntil (s : BlockState) (t : Chars) (ending : List Char) : Nat → Nat → Nat
  | 0, i => i
  | fuel + 1, i =>
    let next := t.nextLine i
    let (inside, c) := s.enter t next
    if !inside || t.contains ending i next || c.pos ≥ t.size then next
    else htmlUntil s t ending fuel c.pos

/-- An HTML block that ends before a blank line. -/
def htmlToBlank (s : BlockState) (t : Chars) : Nat → Nat → Nat
  | 0, i => i
  | fuel + 1, i =>
    let next := t.nextLine i
    let (inside, c) := s.enter t next
    if !inside || c.atEol t then next
    else if c.pos ≥ t.size || (t.blankLine? c.pos).isSome then c.pos
    else htmlToBlank s t fuel c.pos

/-! ### Headings and paragraphs -/

/-- The end of a heading's text before its closing number signs. -/
def contentStop (t : Chars) (start stop : Nat) : Nat :=
  let limit := t.skipBack (fun c => c = '\n' || c = '\r' || c = ' ') start stop
  let closer := t.skipBack (· = '#') start limit
  if closer ≤ start then start
  else
    let before := t.skipBack (· = ' ') start closer
    if before < closer then before else limit

def signHeading (s : BlockState) (t : Chars) (start level : Nat) : BlockState × Nat :=
  let content := t.skip isSpace (start + level)
  let stop := t.lineStop content
  let next := (t.eol? stop).getD stop
  (s.emit (.heading level start next (t.slice content (contentStop t content stop))), next)

/-- The text of a paragraph's lines. -/
def joinLines (lines : List (List Char)) : List Char := Text.join ['\n'] lines

/-- Lines of a paragraph up to what ends it; an underline makes it a heading. -/
def paragraphFrom (s : BlockState) (t : Chars) (start : Nat) :
    Nat → Nat → List (List Char) → BlockState × Nat
  | 0, i, _ => (s, i)
  | fuel + 1, i, lines =>
    let stop := t.lineStop i
    let lines := lines ++ [t.slice i stop]
    let next := (t.eol? stop).getD stop
    let (inside, c) := s.enter t next
    let (indented, missing) := c.spaces t 4
    let heading := if inside && missing > 0 then underline? t indented.pos else none
    match heading with
    | some (level, after) => (s.emit (.heading level start after (joinLines lines)), after)
    | none =>
      if (missing > 0 && interrupts t inside indented.pos) || (c.allSpaces t).atEol t then (s, next)
      else paragraphFrom s t start fuel (c.allSpaces t).pos lines

def paragraph (s : BlockState) (t : Chars) (start : Nat) : BlockState × Nat :=
  s.paragraphFrom t start (t.size + 1) start []

/-! ### Link definitions -/

/-- Position in the next line from which a definition goes on, unless the line ends it. -/
def continueLine? (s : BlockState) (t : Chars) (i : Nat) : Option Nat :=
  let (inside, c) := s.enter t i
  let (next, missing) := c.spaces t 4
  if missing > 0 && (interrupts t inside next.pos || (inside && (underline? t next.pos).isSome)) then
    none
  else some next.pos

/-- Blanks with at most one line end, and how many line ends were passed. -/
def gap? (s : BlockState) (t : Chars) (i : Nat) : Option (Nat × Nat) :=
  let i := t.skip isSpace i
  if t.is isEol i then
    ((t.eol? i).bind (s.continueLine? t)).bind fun next =>
      let next := t.skip isSpace next
      if (t.eol? next).isSome then none else some (next, 1)
  else if i ≥ t.size then none
  else some (i, 0)

/-- What follows the destination of a definition: a title, or nothing more in the line. -/
def definitionEnd? (s : BlockState) (t : Chars) (i : Nat) : Option Nat :=
  match s.gap? t i with
  | none => if (t.blankLine? i).isSome then some i else none
  | some (next, newLines) =>
    if next = i && newLines = 0 then none
    else
      let title := (title? t (s.continueLine? t) next).filter fun stop => (t.blankLine? stop).isSome
      match title with
      | some stop => some stop
      | none => if newLines > 0 then some i else none

/-- A link definition at `i`: its label and the position after it. -/
def definition? (s : BlockState) (t : Chars) (i : Nat) : Option (List Char × Nat) :=
  (label? t (s.continueLine? t) i).bind fun (label, stop) =>
    if t[stop]? ≠ some ':' then none
    else
      (s.gap? t (stop + 1)).bind fun (start, _) =>
        (destination? t 1 start).bind fun stop =>
          if stop = start then none
          else (s.definitionEnd? t stop).map fun stop => (label, stop)

/-- Passes over definitions; where a paragraph goes on after them, or where the next block is. -/
def definitions (s : BlockState) (t : Chars) : Nat → Nat → BlockState × (Nat ⊕ Nat)
  | 0, i => (s, .inl i)
  | fuel + 1, i =>
    match s.definition? t i with
    | none => (s, .inl i)
    | some (label, stop) =>
      let s := { s with labels := label :: s.labels }
      match t.blankLine? stop with
      | none => (s, .inr stop)
      | some next =>
        let (inside, c) := s.enter t next
        let (indented, missing) := c.spaces t 4
        if missing > 0 && interrupts t inside indented.pos then (s, .inr next)
        else definitions s t fuel (indented.allSpaces t).pos

/-! ### The loop -/

/-- Opens the containers that begin in a line. A list item with nothing else in the line ends it. -/
def openContainers (t : Chars) : Nat → BlockState → Cursor → BlockState × Cursor × Option Nat
  | 0, s, c => (s, c, none)
  | fuel + 1, s, c =>
    let (start, missing) := c.spaces t 4
    if missing = 0 then (s, c, none)
    else
      match listMarker? t start (4 - missing) with
      | some (after, m) =>
        let s := s.settleItem
        let s := { s with containers := s.containers ++ [.item m.indent] }
        match t.blankLine? after.pos with
        | some next => ({ s with emptyItem := true }, after, some next)
        | none => openContainers t fuel s after
      | none =>
        match start.quoteMarker? t with
        | some after =>
          let s := s.settleItem
          openContainers t fuel { s with containers := s.containers ++ [.quote] } after
        | none => (s, c, none)

/-- A block that is not indented as code. -/
def leaf (s : BlockState) (t : Chars) (i indent : Nat) : BlockState × Nat :=
  let tag := t[i]? = some '<'
  match if tag then htmlEnd? t (i + 1) else none with
  | some ending => (s, s.htmlUntil t ending (t.size + 1) i)
  | none =>
    if tag && (isBlockTag t (i + 1) || isTagLine t i) then (s, s.htmlToBlank t (t.size + 1) i)
    else match rule? t i with
      | some next => (s, next)
      | none =>
        match headingLevel? t i with
        | some level => s.signHeading t i level
        | none =>
          match fence? t i with
          | some (sign, length) => s.fencedCode t i indent sign length
          | none =>
            match s.definitions t (t.size + 1) i with
            | (s, .inr next) => (s, next)
            | (s, .inl start) => s.paragraph t start

/-- The block that begins in the line at `i`, and the position after it. -/
def step (s : BlockState) (t : Chars) (i : Nat) : BlockState × Nat :=
  let (n, c) := passContainers t s.containers (.ofPos i)
  let s := { s with containers := s.containers.take n }
  match openContainers t (t.size + 1) s c with
  | (s, _, some next) => (s, next)
  | (s, c, none) =>
    match t.blankLine? c.pos with
    | some next => (s.blank, next)
    | none =>
      let s := s.settleItem
      let (start, missing) := c.spaces t 4
      if missing = 0 then s.indentedCode t start.pos
      else s.leaf t start.pos (4 - missing)

def run (t : Chars) : Nat → BlockState → Nat → BlockState
  | 0, s, _ => s
  | fuel + 1, s, i =>
    if i ≥ t.size then s
    else
      let (s, next) := s.step t i
      run t fuel s next

/-- All blocks of a text. -/
def ofText (t : Chars) : BlockState := run t (2 * t.size + 2) {} 0

end BlockState

end SourceSlices.Markdown
