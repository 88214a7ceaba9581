import SourceSlices.Text.Class

/-!
Scanners for the beginnings of Markdown lines: indents with tabs, markers of lists and quotes, rules,
headings, fences, and the tags that begin HTML blocks.
-/
namespace SourceSlices.Markdown

abbrev Chars := Array Char

def isSpace (c : Char) : Bool := c = ' ' || c = '\t' || c = '\x0b' || c = '\x0c'
def isEol (c : Char) : Bool := c = '\n' || c = '\r'
def isAsciiBlank (c : Char) : Bool := isSpace c || isEol c

namespace Chars

variable (t : Chars)

/-- Whether a character stands at a position and passes a test. -/
def is (p : Char → Bool) (i : Nat) : Bool := t[i]?.any p

/-- First position from `i` on that fails a test. -/
def skip (p : Char → Bool) (i : Nat) : Nat :=
  go (t.size - i) i
where
  go : Nat → Nat → Nat
    | 0, i => i
    | fuel + 1, i => if t.is p i then go fuel (i + 1) else i

/-- First position after the last one before `i` that fails a test, not before `low`. -/
def skipBack (p : Char → Bool) (low : Nat) : Nat → Nat
  | 0 => 0
  | i + 1 => if low ≤ i && t.is p i then skipBack p low i else i + 1

/-- Position after the line end at `i`; also the end of the text is one. -/
def eol? (i : Nat) : Option Nat :=
  match t[i]? with
  | none => some i
  | some '\n' => some (i + 1)
  | some '\r' => some (if t[i + 1]? = some '\n' then i + 2 else i + 1)
  | some _ => none

/-- Position after a line that holds only blanks. -/
def blankLine? (i : Nat) : Option Nat := t.eol? (t.skip isSpace i)

/-- Position after the next line feed. -/
def nextLine (i : Nat) : Nat := min (t.skip (· ≠ '\n') i + 1) t.size

/-- Whether a text stands at a position. -/
def startsWith (s : List Char) (i : Nat) : Bool :=
  match s with
  | [] => true
  | c :: cs => t[i]? = some c && startsWith cs (i + 1)

/-- Whether a text stands somewhere between two positions. -/
def contains (s : List Char) (i stop : Nat) : Bool :=
  (List.range (stop - i)).any fun k => i + k + s.length ≤ stop && t.startsWith s (i + k)

/-- The characters of a range. -/
def slice (i stop : Nat) : List Char := (t.extract i stop).toList

/-- End of the line's text: the next line end. -/
def lineStop (i : Nat) : Nat := t.skip (!isEol ·) i

end Chars

/-- A place in the indent of a line: a tab that was used in part leaves spaces to spare. -/
structure Cursor where
  pos : Nat
  tabStart : Nat
  spare : Nat := 0

namespace Cursor

def ofPos (i : Nat) : Cursor := ⟨i, i, 0⟩

/-- Passes over up to `n` columns of blanks, and says how many are missing. -/
def spaces (t : Chars) (c : Cursor) (n : Nat) : Cursor × Nat :=
  let used := min c.spare n
  go (n - used) { c with spare := c.spare - used } (n - used)
where
  go : Nat → Cursor → Nat → Cursor × Nat
    | 0, c, n => (c, n)
    | fuel + 1, c, n =>
      if n = 0 then (c, 0)
      else match t[c.pos]? with
        | some ' ' => go fuel { c with pos := c.pos + 1 } (n - 1)
        | some '\t' =>
          let width := 4 - (c.pos - c.tabStart) % 4
          let used := min width n
          go fuel ⟨c.pos + 1, c.pos + 1, width - used⟩ (n - used)
        | _ => (c, n)

/-- Passes over all blanks. -/
def allSpaces (t : Chars) (c : Cursor) : Cursor :=
  { c with pos := t.skip (fun c => c = ' ' || c = '\t') c.pos, spare := 0 }

def atEol (t : Chars) (c : Cursor) : Bool := (t[c.pos]?).all isEol

def quoteMarker? (t : Chars) (c : Cursor) : Option Cursor :=
  if t[c.pos]? = some '>' then some (spaces t { c with pos := c.pos + 1 } 1).1 else none

end Cursor

/-! ### Lines -/

/-- Position after a line of three or more equal signs. -/
def rule? (t : Chars) (i : Nat) : Option Nat :=
  match t[i]? with
  | none => none
  | some sign =>
    if sign ≠ '*' && sign ≠ '-' && sign ≠ '_' then none
    else
      let stop := t.skip (fun c => c = sign || c = ' ' || c = '\t') i
      if (t.slice i stop).count sign ≥ 3 then t.eol? stop else none

/-- Level of a heading that begins with number signs. -/
def headingLevel? (t : Chars) (i : Nat) : Option Nat :=
  let stop := t.skip (· = '#') i
  let level := stop - i
  if 1 ≤ level && level ≤ 6 && (t[stop]?).all isAsciiBlank then some level else none

/-- Level of a heading that is underlined, and the position after the line. -/
def underline? (t : Chars) (i : Nat) : Option (Nat × Nat) :=
  match t[i]? with
  | some '=' => (t.blankLine? (t.skip (· = '=') i)).map fun stop => (1, stop)
  | some '-' => (t.blankLine? (t.skip (· = '-') i)).map fun stop => (2, stop)
  | _ => none

/-- Sign and length of a code fence. -/
def fence? (t : Chars) (i : Nat) : Option (Char × Nat) :=
  match t[i]? with
  | none => none
  | some sign =>
    if sign ≠ '\x60' && sign ≠ '~' then none
    else
      let stop := t.skip (· = sign) i
      if stop - i < 3 then none
      else if sign = '\x60' && (t.slice stop (t.nextLine stop)).contains '\x60' then none
      else some (sign, stop - i)

/-- Position after a fence that closes one of a sign and a length; the end of the text closes too. -/
def closingFence? (t : Chars) (sign : Char) (length i : Nat) : Option Nat :=
  if i ≥ t.size then some i
  else
    let stop := t.skip (· = sign) i
    if stop - i < length then none
    else
      let stop := t.skip (· = ' ') stop
      (t.eol? stop).map fun _ => stop

/-- A list marker: its sign, its number, and the width of the indent of what follows. -/
structure ListMarker where
  sign : Char
  index : Nat
  indent : Nat

def finishMarker (t : Chars) (c : Cursor) (m : ListMarker) : Cursor × ListMarker :=
  if (t.blankLine? c.pos).isSome then (c, m)
  else
    let (after, missing) := c.spaces t 4
    if missing = 0 then (c, m) else (after, { m with indent := m.indent + (4 - missing) })

/-- Digits of a number, at most nine. -/
def listNumber (t : Chars) (i : Nat) : Nat × Nat :=
  let stop := min (t.skip Char.isDigit i) (i + 9)
  (stop, (t.slice i stop).foldl (fun n c => n * 10 + (c.toNat - 48)) 0)

/-- A list marker at a cursor that stands after `outer` columns of indent. -/
def listMarker? (t : Chars) (c : Cursor) (outer : Nat) : Option (Cursor × ListMarker) :=
  let after (pos : Nat) (sign : Char) (index : Nat) : Option (Cursor × ListMarker) :=
    let (next, missing) := ({ c with pos } : Cursor).spaces t 1
    if missing = 0 || next.atEol t then
      some (finishMarker t next ⟨sign, index, outer + 1 + (pos - c.pos)⟩)
    else none
  match t[c.pos]? with
  | none => none
  | some sign =>
    if sign = '-' || sign = '+' || sign = '*' then
      if (rule? t c.pos).isSome then none else after (c.pos + 1) sign 0
    else if sign.isDigit then
      let (stop, index) := listNumber t c.pos
      match t[stop]? with
      | some '.' => after (stop + 1) '.' index
      | some ')' => after (stop + 1) ')' index
      | _ => none
    else none

/-- Whether a list item at `i` ends a paragraph: it holds something, and a number is one. -/
def itemInterrupts (t : Chars) (inContainer : Bool) (i : Nat) : Bool :=
  let marker : Option (Nat × Bool) :=
    match t[i]? with
    | none => none
    | some sign =>
      if sign = '-' || sign = '+' || sign = '*' then some (i + 1, true)
      else if sign.isDigit then
        let (stop, index) := listNumber t i
        if t.is (fun c => c = '.' || c = ')') stop then some (stop + 1, index = 1) else none
      else none
  match marker with
  | none => false
  | some (stop, begins) =>
    if !(t.is (fun c => c = ' ' || c = '\t') stop) && (t.eol? stop).isNone then false
    else if !inContainer then true
    else
      let twoBlank := match t.blankLine? stop with
        | some next => (t.blankLine? next).isSome
        | none => false
      begins && !twoBlank

/-! ### HTML -/

def lower (cs : List Char) : List Char := cs.map Char.toLower

/-- What ends an HTML block that begins with the tag or sign after the `<` at `i - 1`. -/
def htmlEnd? (t : Chars) (i : Nat) : Option (List Char) :=
  let word := lower (t.slice i (t.skip Char.isAlpha i))
  let begins (name : String) : Bool :=
    word.take name.length == name.toList &&
      (t[i + name.length]?).all fun c => isAsciiBlank c || c = '>'
  match (["pre", "style", "script", "textarea"].find? begins) with
  | some name => some ("</" ++ name ++ ">").toList
  | none =>
    if t.startsWith "!--".toList i then some "-->".toList
    else if t.startsWith ['?'] i then some "?>".toList
    else if t.startsWith "![CDATA[".toList i then some "]]>".toList
    else if t[i]? = some '!' && t.is Char.isAlpha (i + 1) then some ['>'] else none

/-- Tags that begin an HTML block wherever they stand. -/
def blockTags : List String :=
  ["address", "article", "aside", "base", "basefont", "blockquote", "body", "caption", "center",
    "col", "colgroup", "dd", "details", "dialog", "dir", "div", "dl", "dt", "fieldset",
    "figcaption", "figure", "footer", "form", "frame", "frameset", "h1", "h2", "h3", "h4", "h5",
    "h6", "head", "header", "hr", "html", "iframe", "legend", "li", "link", "main", "menu",
    "menuitem", "nav", "noframes", "ol", "optgroup", "option", "p", "param", "search", "section",
    "summary", "table", "tbody", "td", "tfoot", "th", "thead", "title", "tr", "track", "ul"]

def isBlockTag (t : Chars) (i : Nat) : Bool :=
  let i := if t[i]? = some '/' then i + 1 else i
  let stop := t.skip Char.isAlphanum i
  blockTags.contains (String.ofList (lower (t.slice i stop))) &&
    ((t[stop]?).all fun c => c = ' ' || c = '\t' || isEol c || c = '>') ||
      (blockTags.contains (String.ofList (lower (t.slice i stop))) &&
        t.startsWith ['/', '>'] stop)

def isAttributeStart (c : Char) : Bool := c.isAlpha || c = '_' || c = ':'
def isAttributePart (c : Char) : Bool := isAttributeStart c || c.isDigit || c = '.' || c = '-'

def isUnquoted (c : Char) : Bool :=
  !(isAsciiBlank c || ['"', '\'', '=', '<', '>', '\x60'].contains c)

/-- Position after blanks; line ends count only where they are allowed. -/
def skipBlanks (t : Chars) (lines : Bool) (i : Nat) : Nat :=
  t.skip (if lines then isAsciiBlank else isSpace) i

def attributeValue? (t : Chars) (lines : Bool) (i : Nat) : Option Nat :=
  match t[i]? with
  | none => none
  | some q =>
    if q = '"' || q = '\'' then
      let stop := t.skip (fun c => c ≠ q && (lines || !isEol c)) (i + 1)
      if t[stop]? = some q then some (stop + 1) else none
    else
      let stop := t.skip isUnquoted i
      if stop = i then none else some stop

def attribute? (t : Chars) (lines : Bool) (i : Nat) : Option Nat :=
  if t.is isAttributeStart i then
    let stop := t.skip isAttributePart i
    let sign := skipBlanks t lines stop
    if t[sign]? = some '=' then attributeValue? t lines (skipBlanks t lines (sign + 1))
    else some stop
  else none

/-- Attributes, each after a blank, up to the end of a tag. -/
def attributes? (t : Chars) (lines : Bool) : Nat → Nat → Option Nat
  | 0, _ => none
  | fuel + 1, i =>
    let next := skipBlanks t lines i
    match t[next]? with
    | none => none
    | some c =>
      if c = '/' || c = '>' then some next
      else if next = i then none
      else (attribute? t lines next).bind fun stop => attributes? t lines fuel stop

/-- Position after an opening or closing tag whose `<` is at `i`. -/
def tag? (t : Chars) (lines : Bool) (i : Nat) : Option Nat :=
  let closing := t[i + 1]? = some '/'
  let start := if closing then i + 2 else i + 1
  if !t.is Char.isAlpha start then none
  else
    let stop := t.skip (fun c => c.isAlphanum || c = '-') start
    let inside := if closing then some stop else attributes? t lines (t.size + 1) stop
    inside.bind fun stop =>
      let stop := skipBlanks t lines stop
      let stop := if !closing && t[stop]? = some '/' then stop + 1 else stop
      if t[stop]? = some '>' then some (stop + 1) else none

/-- Whether a line is a single tag of any name. -/
def isTagLine (t : Chars) (i : Nat) : Bool :=
  ((tag? t false i).bind fun stop => t.blankLine? stop).isSome

/-- Whether a line at `i` ends the paragraph before it. -/
def interrupts (t : Chars) (inContainer : Bool) (i : Nat) : Bool :=
  (t.eol? i).isSome || (rule? t i).isSome || (headingLevel? t i).isSome || (fence? t i).isSome ||
    t[i]? = some '>' || itemInterrupts t inContainer i ||
    (t[i]? = some '<' && ((htmlEnd? t (i + 1)).isSome || isBlockTag t (i + 1)))

end SourceSlices.Markdown
