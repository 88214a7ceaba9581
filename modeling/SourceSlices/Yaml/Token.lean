import SourceSlices.Yaml.Scalar

/-!
Tokens of a YAML text. Indentation becomes explicit start and end tokens, and a key that is only
seen to be one at its colon gets its token put in front of it.
-/
namespace SourceSlices.Yaml

inductive Token where
  | streamEnd
  | versionDirective (major minor : Nat)
  | tagDirective (handle expansion : List Char)
  | documentStart
  | documentEnd
  | blockSequenceStart
  | blockMappingStart
  | blockEnd
  | flowSequenceStart
  | flowSequenceEnd
  | flowMappingStart
  | flowMappingEnd
  | blockEntry
  | flowEntry
  | key
  | value
  | reference (name : List Char)
  | anchor (name : List Char)
  | tag (handle suffix : List Char)
  | scalar (text : List Char) (plain : Bool)
  deriving DecidableEq

/-- A place where a key may have begun. -/
structure Candidate where
  /-- Nothing else may begin at this column. -/
  required : Bool
  /-- Number of tokens before it. -/
  token : Nat
  index : Nat
  line : Nat
  column : Nat

structure Lexer where
  cursor : Cursor
  tokens : Array Token := #[]
  /-- Column of the innermost block collection, -1 outside of all. -/
  indent : Int := -1
  indents : List Int := []
  keyAllowed : Bool := true
  candidate : Option Candidate := none
  /-- Candidates of the surrounding flow collections. -/
  outer : List (Option Candidate) := []

namespace Lexer

def inFlow (l : Lexer) : Bool := !l.outer.isEmpty

def emit (l : Lexer) (t : Token) : Lexer := { l with tokens := l.tokens.push t }

/-- Emits a token of so many characters. -/
def take (l : Lexer) (t : Token) (n : Nat) : Lexer :=
  { l.emit t with cursor := l.cursor.advance n }

/-- A longest key, in characters. -/
def keyReach : Nat := 1024

/-- Gives up a candidate that is too far away. -/
def expire (c : Cursor) : Option Candidate → Option (Option Candidate)
  | none => some none
  | some k =>
    if k.line < c.line || k.index + keyReach < c.index then
      if k.required then none else some none
    else some (some k)

def expireAll (l : Lexer) : Option Lexer := do
  let candidate ← expire l.cursor l.candidate
  let outer ← l.outer.mapM (expire l.cursor)
  some { l with candidate, outer }

/-- Gives up the candidate; one that is required has to become a key. -/
def drop (l : Lexer) : Option Lexer :=
  match l.candidate with
  | none => some l
  | some k => if k.required then none else some { l with candidate := none }

/-- Notes that a key may begin here. -/
def note (l : Lexer) : Option Lexer :=
  if l.keyAllowed then do
    let c := l.cursor
    let l ← l.drop
    let k : Candidate :=
      ⟨!l.inFlow && l.indent = c.column, l.tokens.size, c.index, c.line, c.column⟩
    some { l with candidate := some k }
  else some l

/-- Opens a block collection at a column further right, with its token at a position. -/
def openBlock (l : Lexer) (column position : Nat) (t : Token) : Lexer :=
  if l.inFlow || (column : Int) ≤ l.indent then l
  else
    { l with
      indents := l.indent :: l.indents
      indent := column
      tokens := l.tokens.insertIdxIfInBounds position t }

/-- Closes the block collections to the right of a column. -/
def closeTo (l : Lexer) (column : Int) : Lexer :=
  if l.inFlow then l
  else
    let ended := (l.indent :: l.indents).takeWhile (column < ·)
    match (l.indent :: l.indents).drop ended.length with
    | indent :: indents =>
      { l with
        indent, indents
        tokens := l.tokens ++ (ended.map fun _ => Token.blockEnd).toArray }
    | [] => l

/-- Blanks, comments and line ends before the next token. -/
def skipGap : Nat → Lexer → Lexer
  | 0, l => l
  | fuel + 1, l =>
    let c := if l.cursor.column = 0 && l.cursor.peek? = some '\uFEFF' then l.cursor.advance 1 else l.cursor
    let tabs := l.inFlow || !l.keyAllowed
    let c := c.skipWhile fun ch => ch = ' ' || (tabs && ch = '\t')
    let c := if c.peek? = some '#' then c.skipLine else c
    if c.atBreak then
      skipGap fuel { l with cursor := c.nextLine, keyAllowed := l.keyAllowed || !l.inFlow }
    else { l with cursor := c }

/-- Ends all block collections, as a mark between documents does. -/
def reset (l : Lexer) : Option Lexer := do
  let l ← (l.closeTo (-1)).drop
  some { l with keyAllowed := false }

def streamEnd (l : Lexer) : Option Lexer := do
  let l ← l.reset
  some (l.emit .streamEnd)

def isUriChar (verbatim : Bool) (c : Char) : Bool :=
  isWordChar c || ";/?:@&=+$.%!~*'()".toList.contains c || (verbatim && ",[]".toList.contains c)

/-- Bytes written as `%XX`. -/
def uriBytes : List Char → Option (List UInt8)
  | [] => some []
  | '%' :: a :: b :: rest => do
    let n ← Decimal.whole? 16 [a, b]
    let more ← uriBytes rest
    some (UInt8.ofNat n :: more)
  | '%' :: _ => none
  | c :: rest => (uriBytes rest).map ((String.singleton c).toUTF8.toList ++ ·)

/-- Characters of a tag, with its escapes read. -/
def uri (verbatim : Bool) (c : Cursor) : Option (List Char × Cursor) := do
  let (raw, c) := c.span (isUriChar verbatim)
  let bytes ← uriBytes raw
  let text ← String.fromUTF8? ⟨bytes.toArray⟩
  some (text.toList, c)

/-- A handle: an exclamation mark, letters, and mostly another exclamation mark. -/
def handle (c : Cursor) : Option (List Char × Cursor) :=
  if c.peek? = some '!' then
    let (name, c) := (c.advance 1).span isWordChar
    if c.peek? = some '!' then some ('!' :: (name ++ ['!']), c.advance 1)
    else some ('!' :: name, c)
  else none

def isNamedHandle (h : List Char) : Bool := 1 < h.length && h.getLast? = some '!'

def tag (c : Cursor) : Option (Token × Cursor) :=
  if c.at? 1 = some '<' then do
    let (suffix, c) ← uri true (c.advance 2)
    if suffix.isEmpty || c.peek? ≠ some '>' then none
    else some (.tag [] suffix, c.advance 1)
  else do
    let (h, c) ← handle c
    let (rest, c) ← uri false c
    if isNamedHandle h then
      if rest.isEmpty then none else some (.tag h rest, c)
    else
      let suffix := h.drop 1 ++ rest
      some (if suffix.isEmpty then .tag [] ['!'] else .tag ['!'] suffix, c)

def lexTag (l : Lexer) : Option Lexer := do
  let l ← l.note
  let (t, c) ← tag l.cursor
  if isGap c.peek? || (l.inFlow && c.peek? = some ',') then
    some { l.emit t with cursor := c, keyAllowed := false }
  else none

/-- An anchor or an alias. -/
def lexName (l : Lexer) (make : List Char → Token) : Option Lexer := do
  let l ← l.note
  let (name, c) := (l.cursor.advance 1).span isWordChar
  let ends := match c.peek? with
    | none => true
    | some ch => isGap (some ch) || ['?', ':', ',', ']', '\x7d', '%', '@', '\x60'].contains ch
  if name.isEmpty || !ends then none
  else some { l.emit (make name) with cursor := c, keyAllowed := false }

def versionNumber (c : Cursor) : Option (Nat × Cursor) := do
  let (digits, c) := c.span Char.isDigit
  if 9 < digits.length then none
  else
    let n ← Decimal.whole? 10 digits
    some (n, c)

def directive (c : Cursor) : Option (Token × Cursor) := do
  let (name, c) := (c.advance 1).span isWordChar
  if !isGap c.peek? then none
  else if name = "YAML".toList then
    let (major, c) ← versionNumber (c.skipWhile isSpaceOrTab)
    if c.peek? ≠ some '.' then none
    else
      let (minor, c) ← versionNumber (c.advance 1)
      some (.versionDirective major minor, c)
  else if name = "TAG".toList then
    let (h, c) ← handle (c.skipWhile isSpaceOrTab)
    if (h ≠ ['!'] && !isNamedHandle h) || !c.peek?.any isSpaceOrTab then none
    else
      let (expansion, c) ← uri true (c.skipWhile isSpaceOrTab)
      if expansion.isEmpty || !isGap c.peek? then none
      else some (.tagDirective h expansion, c)
  else none

def lexDirective (l : Lexer) : Option Lexer := do
  let l ← l.reset
  let (t, c) ← directive l.cursor
  let c := c.skipWhile isSpaceOrTab
  let c := if c.peek? = some '#' then c.skipLine else c
  if !c.rest.isEmpty && !c.atBreak then none
  else some { l.emit t with cursor := c.nextLine }

def lexDocumentMark (l : Lexer) (t : Token) : Option Lexer := do
  let l ← l.reset
  some (l.take t 3)

def openFlow (l : Lexer) (t : Token) : Option Lexer := do
  let l ← l.note
  some { l.take t 1 with outer := l.candidate :: l.outer, candidate := none, keyAllowed := true }

def closeFlow (l : Lexer) (t : Token) : Option Lexer := do
  let l ← l.drop
  let l := match l.outer with
    | candidate :: outer => { l with candidate, outer }
    | [] => l
  some { l.take t 1 with keyAllowed := false }

def lexFlowEntry (l : Lexer) : Option Lexer := do
  let l ← l.drop
  some { l.take .flowEntry 1 with keyAllowed := true }

/-- Opens a block collection at the cursor; only where a key might begin. -/
def openHere (l : Lexer) (t : Token) : Option Lexer :=
  if l.inFlow then some l
  else if l.keyAllowed then some (l.openBlock l.cursor.column l.tokens.size t)
  else none

def lexBlockEntry (l : Lexer) : Option Lexer := do
  let l ← (← l.openHere .blockSequenceStart).drop
  some { l.take .blockEntry 1 with keyAllowed := true }

def lexKey (l : Lexer) : Option Lexer := do
  let l ← (← l.openHere .blockMappingStart).drop
  some { l.take .key 1 with keyAllowed := !l.inFlow }

def lexValue (l : Lexer) : Option Lexer :=
  match l.candidate with
  | some k =>
    let l := { l with tokens := l.tokens.insertIdxIfInBounds k.token .key }
    let l := l.openBlock k.column k.token .blockMappingStart
    some { l.take .value 1 with candidate := none, keyAllowed := false }
  | none => do
    let l ← l.openHere .blockMappingStart
    some { l.take .value 1 with keyAllowed := !l.inFlow }

def lexBlockScalar (l : Lexer) (folded : Bool) : Option Lexer := do
  let l ← l.drop
  let (text, c) ← blockScalar folded l.indent l.cursor
  some { l.emit (.scalar text false) with cursor := c, keyAllowed := true }

def lexQuoted (l : Lexer) (quote : Char) : Option Lexer := do
  let l ← l.note
  let (text, c) ← quotedScalar quote l.cursor
  some { l.emit (.scalar text false) with cursor := c, keyAllowed := false }

def lexPlain (l : Lexer) : Option Lexer := do
  let l ← l.note
  let (text, fresh, c) ← plain l.inFlow (l.indent + 1).toNat l.cursor
  some { l.emit (.scalar text true) with cursor := c, keyAllowed := fresh }

/-- Marks that cannot begin a plain scalar, unless some of them are followed by text. -/
def indicators : List Char :=
  ['-', '?', ':', ',', '[', ']', '\x7b', '\x7d', '#', '&', '*', '!', '|', '>', '\'', '"', '%', '@',
    '\x60']

def mayBePlain (flow : Bool) (c : Char) (next : Option Char) : Bool :=
  if c = '-' then !next.any isSpaceOrTab
  else if c = '?' || c = ':' then !flow && !isGap next
  else !isGap (some c) && !indicators.contains c

/-- The token at the cursor. -/
def lexAt (l : Lexer) (c : Char) : Option Lexer :=
  let next := l.cursor.at? 1
  let flow := l.inFlow
  if l.cursor.column = 0 && c = '%' then l.lexDirective
  else if l.cursor.atMarker '-' then l.lexDocumentMark .documentStart
  else if l.cursor.atMarker '.' then l.lexDocumentMark .documentEnd
  else if c = '[' then l.openFlow .flowSequenceStart
  else if c = '\x7b' then l.openFlow .flowMappingStart
  else if c = ']' then l.closeFlow .flowSequenceEnd
  else if c = '\x7d' then l.closeFlow .flowMappingEnd
  else if c = ',' then l.lexFlowEntry
  else if c = '-' && isGap next then l.lexBlockEntry
  else if c = '?' && (flow || isGap next) then l.lexKey
  else if c = ':' && (flow || isGap next) then l.lexValue
  else if c = '*' then l.lexName .reference
  else if c = '&' then l.lexName .anchor
  else if c = '!' then l.lexTag
  else if c = '|' && !flow then l.lexBlockScalar false
  else if c = '>' && !flow then l.lexBlockScalar true
  else if c = '\'' || c = '"' then l.lexQuoted c
  else if mayBePlain flow c next then l.lexPlain
  else none

def run : Nat → Lexer → Option Lexer
  | 0, _ => none
  | fuel + 1, l => do
    let l ← (l.skipGap l.cursor.fuel).expireAll
    let l := l.closeTo l.cursor.column
    match l.cursor.rest with
    | [] => l.streamEnd
    | c :: _ => do
      let l ← l.lexAt c
      run fuel l

end Lexer

/-- The tokens of a text. -/
def tokens? (text : List Char) : Option (List Token) :=
  if text.all isAllowed then
    (Lexer.run (text.length + 2) { cursor := { rest := text } }).map (·.tokens.toList)
  else none

end SourceSlices.Yaml
