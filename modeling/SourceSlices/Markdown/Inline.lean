import SourceSlices.Markdown.Blocks
import SourceSlices.Markdown.Event

/-!
The text of a heading without its marks: emphasis, links, code, tags, references of characters and
escapes. Only text and code are kept.
-/
namespace SourceSlices.Markdown

/-- Part of a text under reading: text that is settled, a run of emphasis signs, or a bracket that
may begin a link. -/
inductive Piece where
  | text (cs : List Char)
  | code (cs : List Char)
  | run (sign : Char) (count total : Nat) (opens closes : Bool)
  | bracket (image active : Bool) (pos : Nat)

namespace Inline

/-! ### Emphasis -/

structure Opener where
  piece : Nat
  sign : Char
  total : Nat
  both : Bool

/-- Runs that both open and close match only if their lengths do not add up to a multiple of three,
unless both are multiples. -/
def Opener.matches (o : Opener) (sign : Char) (total : Nat) (both : Bool) : Bool :=
  o.sign = sign &&
    ((!both && !o.both) || (total + o.total) % 3 ≠ 0 || total % 3 = 0)

def takeSigns (pieces : Array Piece) (i n : Nat) : Array Piece :=
  pieces.modify i fun p => match p with
    | .run sign count total opens closes => .run sign (count - n) total opens closes
    | _ => p

def countAt (pieces : Array Piece) (i : Nat) : Nat :=
  match pieces[i]? with
  | some (.run _ count _ _ _) => count
  | _ => 0

/-- Pairs a closing run with open runs, innermost first. -/
def close (pieces : Array Piece) (i : Nat) (sign : Char) (total : Nat) (both : Bool) :
    Nat → List Opener → Array Piece × List Opener
  | 0, openers => (pieces, openers)
  | fuel + 1, openers =>
    match openers.dropWhile fun o => !o.matches sign total both with
    | [] => (pieces, openers)
    | o :: rest =>
      let n := min (countAt pieces i) (countAt pieces o.piece)
      let pieces := takeSigns (takeSigns pieces i n) o.piece n
      let openers := if countAt pieces o.piece = 0 then rest else o :: rest
      if countAt pieces i = 0 then (pieces, openers)
      else close pieces i sign total both fuel openers

/-- Settles the emphasis of the pieces from `i` on. -/
def settleFrom (pieces : Array Piece) : Nat → Nat → List Opener → Array Piece
  | 0, _, _ => pieces
  | fuel + 1, i, openers =>
    match pieces[i]? with
    | none => pieces
    | some (.run sign count total opens closes) =>
      let both := opens && closes
      let (pieces, openers) :=
        if closes then close pieces i sign total both (count + 1) openers else (pieces, openers)
      let openers := if opens && countAt pieces i > 0 then ⟨i, sign, total, both⟩ :: openers
        else openers
      settleFrom pieces fuel (i + 1) openers
    | some _ => settleFrom pieces fuel (i + 1) openers

/-- Settles emphasis from a piece on; what is left of the runs is text. -/
def settle (pieces : Array Piece) (start : Nat) : Array Piece :=
  (settleFrom pieces pieces.size start []).mapIdx fun i p =>
    match p with
    | .run sign count _ _ _ => if start ≤ i then .text (List.replicate count sign) else p
    | _ => p

/-! ### Spans that hold no marks -/

/-- The code span that begins with `n` backticks before `start`. -/
def codeSpan? (t : Chars) (n start : Nat) : Option (List Char × Nat) :=
  (go t.size start).map fun stop => (clean (t.slice start stop), stop + n)
where
  go : Nat → Nat → Option Nat
    | 0, _ => none
    | fuel + 1, i =>
      let i := t.skip (· ≠ '\x60') i
      if i ≥ t.size then none
      else
        let stop := t.skip (· = '\x60') i
        if stop - i = n then some i else go fuel stop
  clean (cs : List Char) : List Char :=
    let cs := cs.map fun c => if isEol c then ' ' else c
    if cs.length > 1 && cs.head? = some ' ' && cs.getLast? = some ' ' && cs.any (· ≠ ' ') then
      (cs.drop 1).dropLast
    else cs

def isSchemePart (c : Char) : Bool := c.isAlphanum || c = '.' || c = '-' || c = '+'

/-- An address in angle brackets: its text, and the position after it. -/
def autolink? (t : Chars) (i : Nat) : Option (List Char × Nat) :=
  let scheme := t.skip isSchemePart (i + 1)
  let uri : Option Nat :=
    if t.is Char.isAlpha (i + 1) && 2 ≤ scheme - (i + 1) && scheme - (i + 1) ≤ 32 &&
        t[scheme]? = some ':' then
      let stop := t.skip (fun c => c.toNat > 0x20 && c ≠ '<' && c ≠ '>') scheme
      if t[stop]? = some '>' then some stop else none
    else none
  let stop? := match uri with
    | some stop => some stop
    | none => mail?
  stop?.map fun stop => (t.slice (i + 1) stop, stop + 1)
where
  labels : Nat → Nat → Option Nat
    | 0, _ => none
    | fuel + 1, start =>
      let stop := t.skip (fun c => c.isAlphanum || c = '-') start
      if stop = start || stop - start > 63 || t[start]? = some '-' || t[stop - 1]? = some '-' then none
      else match t[stop]? with
        | some '.' => labels fuel (stop + 1)
        | some '>' => some stop
        | _ => none
  mail? : Option Nat :=
    let isLocal (c : Char) : Bool :=
      c.isAlphanum || ".!#$%&'*+/=?^_`\x7b|\x7d~-".toList.contains c
    let at' := t.skip isLocal (i + 1)
    if at' > i + 1 && t[at']? = some '@' then labels t.size (at' + 1) else none

/-- First position of a text from `i` on. -/
def find? (t : Chars) (s : List Char) (i : Nat) : Option Nat :=
  ((List.range (t.size + 1 - i)).find? fun k => t.startsWith s (i + k)).map (i + ·)

/-- Position after a tag, comment or instruction whose `<` is at `i`. -/
def html? (t : Chars) (i : Nat) : Option Nat :=
  if t.startsWith "<!--".toList i then
    if t[i + 4]? = some '>' then some (i + 5)
    else if t.startsWith "->".toList (i + 4) then some (i + 6)
    else (find? t "-->".toList (i + 4)).map (· + 3)
  else if t.startsWith "<?".toList i then (find? t "?>".toList (i + 2)).map (· + 2)
  else if t.startsWith "<![CDATA[".toList i then (find? t "]]>".toList (i + 9)).map (· + 3)
  else if t[i + 1]? = some '!' && t.is Char.isAlpha (i + 2) then (find? t ['>'] (i + 2)).map (· + 1)
  else tag? t true i

/-! ### Links -/

/-- Letters of some scripts in small form. -/
def foldChar (c : Char) : List Char :=
  let n := c.toNat
  if n = 0xdf || n = 0x1e9e then ['s', 's']
  else if (0xc0 ≤ n && n ≤ 0xde && n ≠ 0xd7) || (0x391 ≤ n && n ≤ 0x3a9) || (0x410 ≤ n && n ≤ 0x42f)
  then [Char.ofNat (n + 32)]
  else if n = 0x3c2 then [Char.ofNat 0x3c3]
  else if 0x400 ≤ n && n ≤ 0x40f then [Char.ofNat (n + 80)]
  else if 0x100 ≤ n && n ≤ 0x137 && n % 2 = 0 then [Char.ofNat (n + 1)]
  else [c.toLower]

def sameLabel (a b : List Char) : Bool := a.flatMap foldChar == b.flatMap foldChar

def isDefined (labels : List (List Char)) (label : List Char) : Bool := labels.any (sameLabel label)

/-- Destination and title of a link in parentheses that open before `i`. -/
def inlineTail? (t : Chars) (i : Nat) : Option Nat :=
  let start := t.skip isAsciiBlank i
  (destination? t 5 start).bind fun stop =>
    let next := t.skip isAsciiBlank stop
    let stop := match title? t some next with
      | some stop => t.skip isAsciiBlank stop
      | none => next
    if t[stop]? = some ')' then some (stop + 1) else none

/-- Position after the link whose text lies between `start` and the bracket at `i`. -/
def linkEnd? (t : Chars) (labels : List (List Char)) (start i : Nat) : Option Nat :=
  let inline := if t[i + 1]? = some '(' then inlineTail? t (i + 2) else none
  match inline with
  | some stop => some stop
  | none =>
    let own : Option (List Char) :=
      ((label? t some (start - 1)).filter fun (_, stop) => stop = i + 1).map (·.1)
    let shortcut (stop : Nat) : Option Nat :=
      own.bind fun label => if isDefined labels label then some stop else none
    if t.startsWith "[]".toList (i + 1) then shortcut (i + 3)
    else match label? t some (i + 1) with
      | some (label, stop) => if isDefined labels label then some stop else none
      | none => shortcut (i + 1)

/-! ### Reading -/

structure State where
  pieces : Array Piece := #[]
  /-- Places of open brackets, innermost first. -/
  brackets : List Nat := []

def State.text (s : State) (cs : List Char) : State := { s with pieces := s.pieces.push (.text cs) }

/-- Blanks before a line end do not count. -/
def State.lineEnd (s : State) : State :=
  match s.pieces.back? with
  | some (.text cs) => { s with pieces := s.pieces.pop.push (.text (Text.trimEndWhere isSpace cs)) }
  | _ => s

/-- What a bracket is when it begins no link. -/
def bracketText (image : Bool) : List Char := if image then ['!', '['] else ['[']

/-- No link contains another one. -/
def deactivate (pieces : Array Piece) (brackets : List Nat) : Array Piece :=
  brackets.foldl (fun pieces i => pieces.modify i fun p => match p with
    | .bracket false _ pos => .bracket false false pos
    | _ => p) pieces

def closeBracket (t : Chars) (labels : List (List Char)) (s : State) (i : Nat) : State × Nat :=
  match s.brackets with
  | [] => (s.text [']'], i + 1)
  | b :: rest =>
    match s.pieces[b]? with
    | some (.bracket image active pos) =>
      match if active then linkEnd? t labels pos i else none with
      | some stop =>
        let pieces := (settle s.pieces (b + 1)).setIfInBounds b (.text [])
        (⟨if image then pieces else deactivate pieces rest, rest⟩, stop)
      | none =>
        let pieces := s.pieces.setIfInBounds b (.text (bracketText image))
        (({ pieces, brackets := rest } : State).text [']'], i + 1)
    | _ => ({ s with brackets := rest }, i + 1)

def isBlankAt (c : Option Char) : Bool := c.all Text.isBlank
def isSignAt (c : Option Char) : Bool := c.any Text.isPunctuation

/-- A run of emphasis signs from `i` to `stop`. -/
def runAt (t : Chars) (sign : Char) (i stop : Nat) : Piece :=
  let before := if i = 0 then none else t[i - 1]?
  let after := t[stop]?
  let opens := !isBlankAt after &&
    ((sign = '*' && !isSignAt after) || isBlankAt before || isSignAt before)
  let closes := !isBlankAt before &&
    ((sign = '*' && !isSignAt before) || isBlankAt after || isSignAt after)
  .run sign (stop - i) (stop - i) opens closes

def openBracket (s : State) (image : Bool) (pos : Nat) : State :=
  { pieces := s.pieces.push (.bracket image true pos), brackets := s.pieces.size :: s.brackets }

def isPlain (c : Char) : Bool :=
  !(isEol c || ['\\', '&', '\x60', '<', '[', ']', '!', '*', '_'].contains c)

/-- One mark, or the text before the next one. -/
def step (t : Chars) (labels : List (List Char)) (s : State) (i : Nat) (c : Char) : State × Nat :=
  if isPlain c then
    let stop := t.skip isPlain i
    (s.text (t.slice i stop), stop)
  else if isEol c then (s.lineEnd, (t.eol? i).getD (i + 1))
  else if c = '\\' then
    match t[i + 1]? with
    | some d =>
      if Text.isAsciiPunctuation d then (s.text [d], i + 2)
      else if isEol d then (s, i + 1)
      else (s.text [c], i + 1)
    | none => (s.text [c], i + 1)
  else if c = '&' then
    match entity? (t.slice (i + 1) t.size) with
    | some (meant, rest) => (s.text meant, t.size - rest.length)
    | none => (s.text [c], i + 1)
  else if c = '\x60' then
    let start := t.skip (· = '\x60') i
    match codeSpan? t (start - i) start with
    | some (code, stop) => ({ s with pieces := s.pieces.push (.code code) }, stop)
    | none => (s.text (t.slice i start), start)
  else if c = '<' then
    match autolink? t i with
    | some (address, stop) => (s.text address, stop)
    | none =>
      match html? t i with
      | some stop => ({ s with pieces := s.pieces.push (.text []) }, stop)
      | none => (s.text [c], i + 1)
  else if c = '[' then (openBracket s false (i + 1), i + 1)
  else if c = '!' then
    if t[i + 1]? = some '[' then (openBracket s true (i + 2), i + 2) else (s.text [c], i + 1)
  else if c = ']' then closeBracket t labels s i
  else
    let stop := t.skip (· = c) i
    ({ s with pieces := s.pieces.push (runAt t c i stop) }, stop)

def run (t : Chars) (labels : List (List Char)) : Nat → State → Nat → State
  | 0, s, _ => s
  | fuel + 1, s, i =>
    match t[i]? with
    | none => s
    | some c =>
      let (s, next) := step t labels s i c
      run t labels fuel s next

def markOf : Piece → List Mark
  | .text cs => if cs.isEmpty then [] else [.text (String.ofList cs)]
  | .code cs => [.code (String.ofList cs)]
  | .run sign count _ _ _ => [.text (String.ofList (List.replicate count sign))]
  | .bracket image _ _ => [.text (String.ofList (bracketText image))]

/-- Text and code of a heading, given the labels that are defined. -/
def marks (labels : List (List Char)) (content : List Char) : List Mark :=
  let t := content.toArray
  let s := run t labels (t.size + 1) {} 0
  (settle s.pieces 0).toList.flatMap markOf

end Inline

end SourceSlices.Markdown
