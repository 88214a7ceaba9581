import SourceSlices.Syntax.Lexer

/-!
Tokens of scripts, and the tokens that their grammar leaves to a scanner: line ends that end a
statement, text of templates and of markup, the question mark of a condition.
-/
namespace SourceSlices.Script

open Syntax

/-! ### Patterns -/

def chars (s : CharSet) : Pattern := .set s
def pair (a b : Char) : Pattern := .set (CharSet.of (String.ofList [a, b]))

/-- Blanks of Unicode that scripts know. -/
def wideBlanks : CharSet := ⟨[(0xa0, 0xa0), (0x1680, 0x1680), (0x2000, 0x200b), (0x2028, 0x2029),
  (0x202f, 0x202f), (0x205f, 0x2060), (0x3000, 0x3000), (0xfeff, 0xfeff)], false, []⟩

def blanks : CharSet := CharSet.space ++ wideBlanks

/-- Characters that no name contains. -/
def nameEnds : CharSet :=
  blanks ++ ⟨[(0, 0x1f)], false, []⟩ ++ CharSet.of ":;`\"'@#.,|^&<=>+-*/\\%?!~()[]\x7b\x7d"

def unicodeEscape : Pattern :=
  .seq [.text "\\u", .alt [.seq (List.replicate 4 (chars CharSet.hex)),
    .seq [.text "\x7b", .some (chars CharSet.hex), .text "\x7d"]]]

def nameStart : Pattern := .alt [chars (nameEnds ++ CharSet.digit).without, unicodeEscape]
def namePart : Pattern := .alt [chars nameEnds.without, unicodeEscape]
def namePattern : Pattern := .seq [nameStart, .many namePart]

/-- Digits with single underscores between them. -/
def digitsOf (s : CharSet) : Pattern :=
  .seq [chars s, .many (.seq [.opt (.text "_"), chars s])]

def decimalDigits : Pattern := digitsOf CharSet.digit
def hexLiteral : Pattern := .seq [.text "0", pair 'x' 'X', digitsOf CharSet.hex]
def binaryLiteral : Pattern := .seq [.text "0", pair 'b' 'B', digitsOf (CharSet.of "01")]
def octalLiteral : Pattern := .seq [.text "0", pair 'o' 'O', digitsOf (CharSet.range '0' '7')]
def exponentPart : Pattern := .seq [pair 'e' 'E', .opt (pair '-' '+'), decimalDigits]
def decimalInteger : Pattern :=
  .alt [.text "0", .seq [.opt (.text "0"), chars (CharSet.range '1' '9'),
    .opt (.seq [.opt (.text "_"), decimalDigits])]]

def numberPattern : Pattern :=
  .alt [hexLiteral, binaryLiteral, octalLiteral,
    .seq [decimalInteger, .text ".", .opt decimalDigits, .opt exponentPart],
    .seq [.text ".", decimalDigits, .opt exponentPart],
    .seq [decimalInteger, exponentPart], decimalDigits,
    .seq [.alt [hexLiteral, binaryLiteral, octalLiteral, decimalDigits], .text "n"]]

def commentPattern : Pattern :=
  .alt [.seq [.text "//", .many (chars (CharSet.except "\r\n\u2028\u2029"))],
    .seq [.text "/*", .many (chars (CharSet.except "*")), .some (.text "*"),
      .many (.seq [chars (CharSet.except "/*"), .many (chars (CharSet.except "*")),
        .some (.text "*")]), .text "/"]]

def octalDigit : Pattern := chars (CharSet.range '0' '7')

def escapePattern : Pattern :=
  .seq [.text "\\", .alt [
    chars (CharSet.of "xu" ++ CharSet.range '0' '7').without,
    .seq [octalDigit, .opt octalDigit, .opt octalDigit],
    .seq [.text "x", chars CharSet.hex, chars CharSet.hex],
    .seq (.text "u" :: List.replicate 4 (chars CharSet.hex)),
    .seq [.text "u\x7b", .some (chars CharSet.hex), .text "\x7d"],
    .seq [chars (CharSet.of "\r?"), chars (CharSet.of "\n\u2028\u2029")]]]

def anyButLineEnd : Pattern := chars (CharSet.except "\n")

def regexPattern : Pattern :=
  .some (.alt [
    .seq [.text "[",
      .many (.alt [.seq [.text "\\", anyButLineEnd], chars (CharSet.except "]\n\\")]), .text "]"],
    .seq [.text "\\", anyButLineEnd], chars (CharSet.except "/\\[\n")])

def nameLike : CharSet := CharSet.letter ++ CharSet.of "_$"

def markupNamePattern : Pattern :=
  .seq [chars nameLike, .many (chars (nameLike ++ CharSet.digit)), .text "-",
    .many (chars (nameLike ++ CharSet.digit ++ CharSet.of "-"))]

def entityPattern : Pattern :=
  let upTo (n : Nat) (s : CharSet) : Pattern :=
    .seq (chars s :: List.replicate (n - 1) (.opt (chars s)))
  .seq [.text "&",
    .alt [.seq [.text "#", .alt [.seq [pair 'x' 'X', upTo 6 CharSet.hex], upTo 5 CharSet.digit]],
      upTo 30 CharSet.letter], .text ";"]

/-- Text of an attribute value up to an entity or the closing quote. -/
def attributeText (quote : String) : Pattern :=
  .some (.alt [chars (CharSet.except (quote ++ "&")),
    .seq [.text "&", chars (CharSet.letter ++ CharSet.of "#").without]])

/-! ### The scanner -/

/-- Places of the scanner's tokens in the grammar's list. -/
inductive Lexeme where
  | semicolon
  | templateText
  | conditionMark
  | markupComment
  | logicalOr
  | escape
  | regex
  | markupText
  | signatureEnd
  deriving DecidableEq

def Lexeme.place : Lexeme → Nat
  | .semicolon => 0
  | .templateText => 1
  | .conditionMark => 2
  | .markupComment => 3
  | .logicalOr => 4
  | .escape => 5
  | .regex => 6
  | .markupText => 7
  | .signatureEnd => 8

def isBlank (c : Char) : Bool := CharSet.space.has c
def isLineEnd (c : Char) : Bool := c = '\n' || c = '\u2028' || c = '\u2029'

/-- The character at a position; NUL where the text ends. -/
def charAt (text : Array Char) (i : Nat) : Char := text.getD i '\x00'

/-- First position from which a test fails. -/
def skipWhile (test : Char → Bool) (text : Array Char) : Nat → Nat → Nat
  | 0, i => i
  | fuel + 1, i =>
    match text[i]? with
    | some c => if test c then skipWhile test text fuel (i + 1) else i
    | none => i

def skipBlanks (text : Array Char) (i : Nat) : Nat := skipWhile isBlank text text.size i

/-- End of a template's text: at a quote, a substitution or an escape. -/
def templateText? (text : Array Char) (pos : Nat) : Option Nat :=
  let rec go : Nat → Nat → Option Nat
    | 0, _ => none
    | fuel + 1, i =>
      let c := charAt text i
      if c = '\x00' then none
      else if c = '\x60' || c = '\\' || (c = '$' && charAt text (i + 1) = '\x7b') then
        if i > pos then some i else none
      else go fuel (i + 1)
  go (text.size + 1) pos

/-- Text between tags; blanks that begin with a line end are none. -/
def markupText? (text : Array Char) (pos : Nat) : Option Nat :=
  let rec go : Nat → Nat → Bool → Bool → Option Nat
    | 0, _, _, _ => none
    | fuel + 1, i, atLineEnd, seen =>
      let c := charAt text i
      if ['\x00', '<', '>', '\x7b', '\x7d', '&'].contains c then if seen then some i else none
      else if c = '\n' then go fuel (i + 1) true seen
      else
        let atLineEnd := atLineEnd && isBlank c
        go fuel (i + 1) atLineEnd (seen || !atLineEnd)
  go (text.size + 1) pos false false

/-- A block comment: where it ends, whether a line ends in it, and whether it is closed. -/
structure BlockComment where
  stop : Nat
  broken : Bool
  closed : Bool

/-- The block comment whose inside begins at `i`. -/
def blockComment (text : Array Char) : Nat → Nat → Bool → BlockComment
  | 0, i, broken => ⟨i, broken, false⟩
  | fuel + 1, i, broken =>
    let c := charAt text i
    if c = '\x00' then ⟨i, broken, false⟩
    else if c = '*' && charAt text (i + 1) = '/' then ⟨i + 2, broken, true⟩
    else blockComment text fuel (i + 1) (broken || isLineEnd c)

/-- What blanks and comments amount to: a sign `/` that begins no comment, a comment within the line,
or the start of something else. -/
inductive Gap where
  | refused
  | inline
  | passed
  deriving DecidableEq

structure GapEnd where
  gap : Gap
  stop : Nat
  commented : Bool

/-- Passes over blanks and comments; when only looking, stops after a block comment. -/
def passGap (text : Array Char) (looking : Bool) : Nat → Nat → Bool → Bool → GapEnd
  | 0, i, _, commented => ⟨.passed, i, commented⟩
  | fuel + 1, i, broken, commented =>
    let i := skipBlanks text i
    if charAt text i ≠ '/' then ⟨.passed, i, commented⟩
    else if charAt text (i + 1) = '/' then
      passGap text looking fuel
        (skipWhile (fun c => !isLineEnd c && c ≠ '\x00') text text.size (i + 2)) broken true
    else if charAt text (i + 1) = '*' then
      let b := blockComment text (text.size + 1) (i + 2) broken
      if looking && b.closed && charAt text b.stop ≠ '/' then
        ⟨if b.broken then .passed else .inline, b.stop, true⟩
      else passGap text looking fuel b.stop b.broken (commented || b.closed)
    else ⟨.refused, i + 1, commented⟩

/-- Whether the words `in` and `instanceof` do not stand here, and where looking ended. -/
def notRelation (text : Array Char) (i : Nat) : Bool × Nat :=
  if charAt text (i + 1) ≠ 'n' then (true, i + 1)
  else if !(charAt text (i + 2)).isAlpha then (false, i + 2)
  else if (text.extract (i + 2) (i + 10)).toList = "stanceof".toList then
    ((charAt text (i + 10)).isAlpha, i + 10)
  else (true, i + 2)

/-- The sign `?` of a condition, unless it belongs to `??` or `?.`. -/
def conditionMark? (text : Array Char) (pos : Nat) : Option (Hit Empty) :=
  let i := skipBlanks text pos
  if charAt text i ≠ '?' || charAt text (i + 1) = '?' then none
  else if charAt text (i + 1) = '.' && !(charAt text (i + 2)).isDigit then none
  else some ⟨Lexeme.conditionMark.place, i, i + 1, none⟩

/-- A comment that markup begins or ends with. -/
def markupComment? (text : Array Char) (pos : Nat) : Option (Hit Empty) :=
  let i := skipWhile (fun c => isBlank c || isLineEnd c) text text.size pos
  let opens (s : String) : Bool := (text.extract i (i + s.length)).toList = s.toList
  if opens "<!--" || opens "-->" then
    let stop := skipWhile (fun c => !isLineEnd c && c ≠ '\x00') text text.size i
    some ⟨Lexeme.markupComment.place, i, stop, none⟩
  else none

/-- What a look for the end of a statement found: whether it ends, and where looking stopped. -/
structure Ended where
  ends : Bool
  stop : Nat
  commented : Bool := false

/-- A scanner that differs in how a statement ends and in what a question mark means. -/
def scan (ends : (Lexeme → Bool) → Array Char → Nat → Ended)
    (condition? : Array Char → Nat → Option (Hit Empty)) (has : Nat → Bool) (text : Array Char)
    (pos : Nat) : Option (Hit Empty) :=
  let valid (l : Lexeme) : Bool := has l.place
  if valid .templateText then
    if valid .semicolon then none
    else (templateText? text pos).map fun stop => ⟨Lexeme.templateText.place, pos, stop, none⟩
  else
    match if valid .markupText then markupText? text pos else none with
    | some stop => some ⟨Lexeme.markupText.place, pos, stop, none⟩
    | none =>
      if valid .semicolon || valid .signatureEnd then
        let e := ends valid text pos
        if e.ends then some ⟨Lexeme.semicolon.place, pos, pos, none⟩
        else if !e.commented && valid .conditionMark && charAt text e.stop = '?' then
          condition? text e.stop
        else none
      else if valid .conditionMark then condition? text pos
      else if valid .markupComment && !valid .logicalOr && !valid .escape && !valid .regex then
        markupComment? text pos
      else none

/-- After a line end, whether the next sign begins a new statement. -/
def beginsStatement (refused : List Char) (text : Array Char) (i : Nat) : Ended :=
  let c := charAt text i
  if refused.contains c then ⟨false, i, false⟩
  else if c = '.' then ⟨(charAt text (i + 1)).isDigit, i + 1, false⟩
  else if c = '+' then ⟨charAt text (i + 1) = '+', i + 1, false⟩
  else if c = '-' then ⟨charAt text (i + 1) = '-', i + 1, false⟩
  else if c = '!' then ⟨charAt text (i + 1) ≠ '=', i + 1, false⟩
  else if c = 'i' then
    let (ends, stop) := notRelation text i
    ⟨ends, stop, false⟩
  else ⟨true, i, false⟩

/-- What comes after the first line end of a gap. -/
def endsAfterLine (refused : List Char) (text : Array Char) (i : Nat) (commented : Bool) : Ended :=
  let g := passGap text false text.size i false commented
  match g.gap with
  | .refused => ⟨false, g.stop, g.commented⟩
  | _ => { beginsStatement refused text g.stop with commented := g.commented }

/-- Signs that continue a statement over a line end. -/
def continuing : List Char :=
  ['\x60', ',', ':', ';', '*', '%', '>', '<', '=', '[', '(', '?', '^', '|', '&', '/']

/-- Whether a statement ends here without a semicolon: at a brace, at the end of the text, and after
a line end unless the next sign continues the statement. -/
def statementEnds (valid : Lexeme → Bool) (text : Array Char) (pos : Nat) : Ended :=
  go (text.size + 1) pos false
where
  go : Nat → Nat → Bool → Ended
    | 0, i, commented => ⟨false, i, commented⟩
    | fuel + 1, i, commented =>
      if charAt text i = '\x00' then ⟨true, i, commented⟩
      else
        let g := if charAt text i = '/' then passGap text true text.size i false commented
          else ⟨.inline, i, commented⟩
        let c := charAt text g.stop
        if g.gap = .refused then ⟨false, g.stop, g.commented⟩
        else if (g.gap = .passed && !valid .logicalOr && c ≠ ',' && c ≠ '=') || c = '\x7d' then
          ⟨true, g.stop, g.commented⟩
        else if isLineEnd c then endsAfterLine continuing text (g.stop + 1) g.commented
        else if isBlank c then go fuel (g.stop + 1) g.commented
        else ⟨false, g.stop, g.commented⟩

def scanner : Scanner Empty := ⟨fun _ => scan statementEnds conditionMark?⟩

end SourceSlices.Script
