import SourceSlices.Decimal.Numeral
import SourceSlices.Yaml.Cursor

/-!
The three written forms of scalars: plain words, quoted text and indented blocks.
-/
namespace SourceSlices.Yaml

/-- Blanks and line ends between two words. -/
structure Gap where
  spaces : List Char := []
  first : List Char := []
  more : List Char := []
  broken : Bool := false

/-- What stands for the gap: a single line end is a space, further ones stay. -/
def Gap.text (g : Gap) : List Char :=
  if !g.broken then g.spaces
  else if g.first = ['\n'] then (if g.more.isEmpty then [' '] else g.more)
  else g.first ++ g.more

/-- Collects a gap. On a fresh line no tab may stand before `tabFrom`. -/
def gap (tabFrom : Nat) : Nat → Cursor → Gap → Option (Gap × Cursor)
  | 0, c, g => some (g, c)
  | fuel + 1, c, g =>
    match c.peek? with
    | none => some (g, c)
    | some ch =>
      if isSpaceOrTab ch then
        if g.broken then
          if ch = '\t' && c.column < tabFrom then none else gap tabFrom fuel (c.advance 1) g
        else gap tabFrom fuel (c.advance 1) { g with spaces := g.spaces ++ [ch] }
      else if isBreak ch then
        gap tabFrom fuel c.nextLine
          (if g.broken then { g with more := g.more ++ c.lineEnd }
          else { g with spaces := [], first := c.lineEnd, broken := true })
      else some (g, c)

def flowMarks : List Char := [',', '[', ']', '\x7b', '\x7d']

def plainWord (flow : Bool) : List Char → Option (List Char)
  | [] => some []
  | c :: rest =>
    if isGap (some c) then some []
    else if flow && c = ':' && rest.head?.any fun d => d = '?' || flowMarks.contains d then none
    else if (c = ':' && isGap rest.head?) || (flow && flowMarks.contains c) then some []
    else (plainWord flow rest).map (c :: ·)

/-- Words of a plain scalar; tells whether a line end follows the last one. -/
def plainWords (flow : Bool) (indent : Nat) :
    Nat → Cursor → Gap → List Char → Option (List Char × Bool × Cursor)
  | 0, _, _, _ => none
  | fuel + 1, c, g, acc =>
    if c.atDocumentMark || c.peek? = some '#' then some (acc, g.broken, c)
    else do
      let word ← plainWord flow c.rest
      let c := c.advance word.length
      if word.isEmpty then some (acc, g.broken, c)
      else
        let acc := acc ++ g.text ++ word
        if c.rest.isEmpty || !isGap c.peek? then some (acc, false, c)
        else do
          let (g, c) ← gap indent c.fuel c {}
          if !flow && c.column < indent then some (acc, g.broken, c)
          else plainWords flow indent fuel c g acc

def plain (flow : Bool) (indent : Nat) (c : Cursor) : Option (List Char × Bool × Cursor) :=
  plainWords flow indent c.fuel c {} []

/-- Escapes of one letter. -/
def simpleEscape? (c : Char) : Option Char :=
  let n : Option Nat :=
    match c with
    | '0' => some 0 | 'a' => some 7 | 'b' => some 8 | 't' => some 9 | '\t' => some 9
    | 'n' => some 10 | 'v' => some 11 | 'f' => some 12 | 'r' => some 13 | 'e' => some 27
    | ' ' => some 32 | '"' => some 34 | '/' => some 47 | '\\' => some 92 | 'N' => some 0x85
    | '_' => some 0xa0 | 'L' => some 0x2028 | 'P' => some 0x2029
    | _ => none
  n.map Char.ofNat

/-- Number of hexadecimal digits behind a letter. -/
def numberEscape? : Char → Option Nat
  | 'x' => some 2
  | 'u' => some 4
  | 'U' => some 8
  | _ => none

/-- The escape behind a backslash, and its length. -/
def escape? : List Char → Option (Char × Nat)
  | [] => none
  | c :: rest =>
    match simpleEscape? c, numberEscape? c with
    | some ch, _ => some (ch, 1)
    | none, some n => do
      let digits := rest.take n
      let value ← Decimal.whole? 16 digits
      if digits.length = n && value.isValidChar then some (Char.ofNat value, n + 1) else none
    | none, none => none

/-- Characters up to the quote or the next gap, and whether an escaped line end stopped them. -/
def quotedWord (quote : Char) : Nat → Cursor → List Char → Option (List Char × Bool × Cursor)
  | 0, _, _ => none
  | fuel + 1, c, acc =>
    match c.rest with
    | [] => some (acc, false, c)
    | ch :: rest =>
      if isGap (some ch) then some (acc, false, c)
      else if ch = quote then
        if quote = '\'' && rest.head? = some '\'' then quotedWord quote fuel (c.advance 2) (acc ++ ['\''])
        else some (acc, false, c)
      else if quote = '"' && ch = '\\' then
        if rest.head?.any isBreak then some (acc, true, (c.advance 1).nextLine)
        else do
          let (value, n) ← escape? rest
          quotedWord quote fuel (c.advance (n + 1)) (acc ++ [value])
      else quotedWord quote fuel (c.advance 1) (acc ++ [ch])

/-- The text behind an opening quote up to and with the closing one. -/
def quotedText (quote : Char) : Nat → Cursor → List Char → Option (List Char × Cursor)
  | 0, _, _ => none
  | fuel + 1, c, acc =>
    if c.atDocumentMark || c.rest.isEmpty then none
    else do
      let (word, escaped, c) ← quotedWord quote c.fuel c []
      if !escaped && c.peek? = some quote then some (acc ++ word, c.advance 1)
      else do
        let (g, c) ← gap 0 c.fuel c { broken := escaped }
        quotedText quote fuel c (acc ++ word ++ g.text)

def quotedScalar (quote : Char) (c : Cursor) : Option (List Char × Cursor) :=
  quotedText quote (c.fuel + 1) (c.advance 1) []

/-- What happens to the line ends behind a block. -/
inductive Chomping where
  | strip
  | clip
  | keep
  deriving DecidableEq

def Chomping.ofChar? : Char → Option Chomping
  | '+' => some .keep
  | '-' => some .strip
  | _ => none

/-- Explicit indentation and chomping behind the mark of a block, in either order. -/
def blockHeader (c : Cursor) : Option (Nat × Chomping × Cursor) :=
  let digit (c : Cursor) : Option Nat := c.peek?.bind fun d => if d.isDigit then Decimal.digitValue d else none
  let chomping (c : Cursor) : Option Chomping := c.peek?.bind Chomping.ofChar?
  match chomping c with
  | some k =>
    let c := c.advance 1
    match digit c with
    | some 0 => none
    | some n => some (n, k, c.advance 1)
    | none => some (0, k, c)
  | none =>
    match digit c with
    | some 0 => none
    | some n =>
      let c := c.advance 1
      match chomping c with
      | some k => some (n, k, c.advance 1)
      | none => some (n, .clip, c)
    | none => some (0, .clip, c)

/-- Empty lines before the next line of a block; `indent` is zero while it is not known. -/
def blockBreaks (indent : Nat) :
    Nat → Cursor → Nat → List Char → Option (List Char × Nat × Cursor)
  | 0, _, _, _ => none
  | fuel + 1, c, widest, breaks =>
    let spaces := (c.rest.takeWhile (· = ' ')).length
    let c := c.advance (if indent = 0 then spaces else min spaces (indent - c.column))
    let widest := max widest c.column
    if (indent = 0 || c.column < indent) && c.peek? = some '\t' then none
    else if c.atBreak then blockBreaks indent fuel c.nextLine widest (breaks ++ c.lineEnd)
    else some (breaks, widest, c)

/-- State between two lines of a block. -/
structure BlockLine where
  acc : List Char := []
  /-- Line end behind the last line. -/
  leading : List Char := []
  /-- Empty lines behind that. -/
  trailing : List Char := []
  wasBlank : Bool := false

def blockLines (folded : Bool) (indent : Nat) : Nat → Cursor → BlockLine → Option (BlockLine × Cursor)
  | 0, _, _ => none
  | fuel + 1, c, l =>
    if c.column ≠ indent || c.rest.isEmpty then some (l, c)
    else
      let blank := c.peek?.any isSpaceOrTab
      let joint :=
        if folded && l.leading = ['\n'] && !l.wasBlank && !blank then
          if l.trailing.isEmpty then [' '] else []
        else l.leading
      let (text, c) := c.span (!isBreak ·)
      let leading := c.lineEnd
      do
        let (breaks, _, c) ← blockBreaks indent c.fuel c.nextLine 0 []
        blockLines folded indent fuel c
          ⟨l.acc ++ joint ++ l.trailing ++ text, leading, breaks, blank⟩

/-- A block scalar inside a collection with the given indentation, -1 for none. -/
def blockScalar (folded : Bool) (parent : Int) (c : Cursor) : Option (List Char × Cursor) := do
  let (increment, chomping, c) ← blockHeader (c.advance 1)
  let c := c.skipWhile isSpaceOrTab
  let c := if c.peek? = some '#' then c.skipLine else c
  if !c.rest.isEmpty && !c.atBreak then none
  else
    let c := c.nextLine
    let given := if increment = 0 then 0 else if 0 ≤ parent then parent.toNat + increment else increment
    let (breaks, widest, c) ← blockBreaks given c.fuel c 0 []
    let indent := if given = 0 then max (max widest (parent + 1).toNat) 1 else given
    let (l, c) ← blockLines folded indent c.fuel c { trailing := breaks }
    let body := if chomping = .strip then l.acc else l.acc ++ l.leading
    some (if chomping = .keep then body ++ l.trailing else body, c)

end SourceSlices.Yaml
