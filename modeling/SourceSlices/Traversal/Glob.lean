import SourceSlices.Text.Utf8

/-!
Glob patterns over the bytes of a path: `?`, `*`, `**` between slashes, classes in brackets and
alternatives in braces.
-/
namespace SourceSlices

inductive GlobToken where
  | literal (c : Char)
  | any
  | zeroOrMore
  /-- `**/` at the beginning. -/
  | recursivePrefix
  /-- `/**` at the end. -/
  | recursiveSuffix
  /-- `/**/` in between. -/
  | recursiveMiddle
  | class (negated : Bool) (ranges : List (Char × Char))
  | alternatives (branches : List (List GlobToken))
  deriving Inhabited

structure GlobOptions where
  /-- Whether only `**` and classes may match a slash. -/
  literalSeparator : Bool := false
  /-- Whether a bracket that is not closed stands for itself. -/
  allowUnclosed : Bool := false

/-- Why a pattern cannot be read. -/
inductive GlobFault where
  | unclosedClass
  | invalidRange (lo hi : Char)
  | unopenedAlternatives
  | unclosedAlternatives
  | danglingEscape
  deriving DecidableEq

def GlobFault.message : GlobFault → String
  | .unclosedClass => "unclosed character class; missing ']'"
  | .invalidRange lo hi =>
    "invalid range; '" ++ String.singleton lo ++ "' > '" ++ String.singleton hi ++ "'"
  | .unopenedAlternatives => "unopened alternate group; missing '\x7b'"
  | .unclosedAlternatives => "unclosed alternate group; missing '\x7d'"
  | .danglingEscape => "dangling '\\'"

namespace Glob

/-! ### Reading -/

/-- A class behind its opening bracket: its ranges, latest first, and what follows it. -/
def classRanges : List Char → Bool → Bool → List (Char × Char) →
    Except GlobFault (List (Char × Char) × List Char)
  | [], _, _, _ => .error .unclosedClass
  | c :: rest, first, inRange, ranges =>
    if c = ']' && !first then .ok (if inRange then ('-', '-') :: ranges else ranges, rest)
    else if c = '-' && !first && !inRange then classRanges rest false true ranges
    else
      match inRange, ranges with
      | true, (lo, _) :: more =>
        if c < lo then .error (.invalidRange lo c) else classRanges rest false false ((lo, c) :: more)
      | _, _ => classRanges rest false false ((c, c) :: ranges)

/-- State of reading: finished tokens of each open branch, latest first. -/
structure Reader where
  /-- Innermost branch first. -/
  branches : List (List GlobToken) := [[]]
  /-- Number of branches below each open group. -/
  groups : List Nat := []
  /-- No bracket is taken for a class any more. -/
  plainBrackets : Bool := false

def Reader.push (r : Reader) (t : GlobToken) : Reader :=
  match r.branches with
  | b :: rest => { r with branches := (t :: b) :: rest }
  | [] => { r with branches := [[t]] }

def Reader.open (r : Reader) : Reader :=
  { r with groups := r.branches.length :: r.groups, branches := [] :: r.branches }

/-- Closes a group: its branches become one token. -/
def Reader.close (r : Reader) : Except GlobFault Reader :=
  match r.groups with
  | [] => .error .unopenedAlternatives
  | start :: groups =>
    let n := r.branches.length - start
    let inner := ((r.branches.take n).map List.reverse).reverse
    .ok (({ r with groups, branches := r.branches.drop n }).push (.alternatives inner))

def Reader.comma (r : Reader) : Reader :=
  if r.groups.isEmpty then r.push (.literal ',') else { r with branches := [] :: r.branches }

/-- Two stars: what they stand for depends on what is around them. Gives the number of characters
after them that are used up. -/
def Reader.stars (r : Reader) (before : Option Char) (rest : List Char) : Reader × Nat :=
  let plain := (r.push .zeroOrMore).push .zeroOrMore
  match r.branches with
  | [] => (plain, 0)
  | [] :: _ =>
    match rest with
    | [] => (r.push .recursivePrefix, 0)
    | '/' :: _ => (r.push .recursivePrefix, 1)
    | _ => (plain, 0)
  | (last :: tokens) :: others =>
    let opens := !others.isEmpty && (before = some ',' || before = some '\x7b')
    if before ≠ some '/' && !opens then (plain, 0)
    else
      let join (t : GlobToken) : Reader :=
        let t := match last with
          | .recursivePrefix => .recursivePrefix
          | .recursiveSuffix => .recursiveSuffix
          | _ => t
        { r with branches := (t :: tokens) :: others }
      match rest with
      | [] => (join .recursiveSuffix, 0)
      | '/' :: _ => (join .recursiveMiddle, 1)
      | c :: _ =>
        if !others.isEmpty && (c = ',' || c = '\x7d') then (join .recursiveSuffix, 0) else (plain, 0)

/-- Reads a pattern; the fuel is the number of its characters. -/
def tokens (o : GlobOptions) : Nat → Option Char → List Char → Reader → Except GlobFault Reader
  | 0, _, _, r => .ok r
  | _, _, [], r => .ok r
  | fuel + 1, before, c :: rest, r =>
    if c = '?' then tokens o fuel (some c) rest (r.push .any)
    else if c = '*' then
      match rest with
      | '*' :: more =>
        let (r, n) := r.stars before more
        tokens o fuel (some (if n = 0 then '*' else '/')) (more.drop n) r
      | _ => tokens o fuel (some c) rest (r.push .zeroOrMore)
    else if c = '[' && !r.plainBrackets then
      let negated := rest.head?.any fun d => d = '!' || d = '^'
      match classRanges (if negated then rest.drop 1 else rest) true false [] with
      | .ok (ranges, more) => tokens o fuel (some ']') more (r.push (.class negated ranges.reverse))
      | .error .unclosedClass =>
        if o.allowUnclosed then
          tokens o fuel (some c) rest ({ r with plainBrackets := true }.push (.literal '['))
        else .error .unclosedClass
      | .error e => .error e
    else if c = '\x7b' then tokens o fuel (some c) rest r.open
    else if c = '\x7d' then do
      let r ← r.close
      tokens o fuel (some c) rest r
    else if c = ',' then tokens o fuel (some c) rest r.comma
    else if c = '\\' then
      match rest with
      | [] => .error .danglingEscape
      | d :: more => tokens o fuel (some d) more (r.push (.literal d))
    else tokens o fuel (some c) rest (r.push (.literal c))

def parse (o : GlobOptions) (pattern : String) : Except GlobFault (List GlobToken) := do
  let cs := pattern.toList
  let r ← tokens o cs.length none cs {}
  match r.branches with
  | [b] => .ok b.reverse
  | _ => .error .unclosedAlternatives

/-! ### Matching -/

def slash : UInt8 := 47

/-- All ends of a list of bytes, the list itself among them. -/
def tails : List UInt8 → List (List UInt8)
  | [] => [[]]
  | b :: rest => (b :: rest) :: tails rest

/-- All ends up to the first slash. -/
def tailsInName : List UInt8 → List (List UInt8)
  | [] => [[]]
  | b :: rest => if b = slash then [b :: rest] else (b :: rest) :: tailsInName rest

/-- All ends that follow a slash. -/
def afterSlash : List UInt8 → List (List UInt8)
  | [] => []
  | b :: rest => if b = slash then rest :: afterSlash rest else afterSlash rest

/-- Bytes of a range of characters: those of its ends, and what lies between the last byte of the
first one and the first byte of the last one. -/
def rangeHas (r : Char × Char) (b : UInt8) : Bool :=
  let lo := Text.encodeUtf8 (String.singleton r.1)
  let hi := Text.encodeUtf8 (String.singleton r.2)
  lo.contains b || hi.contains b || ((lo.getLast?.any (· ≤ b)) && (hi.head?.any (b ≤ ·)) && r.1 ≠ r.2)

/-- Keeps one of each list; two ends of the same bytes are equal if they are equally long. -/
def distinct (rests : List (List UInt8)) : List (List UInt8) :=
  (rests.map List.length).eraseDups.filterMap fun n => rests.find? (·.length = n)

mutual

/-- A group without any tokens in it; such branches do not count. -/
def isVoid : GlobToken → Bool
  | .alternatives branches => areVoidBranches branches
  | _ => false

def areVoidBranches : List (List GlobToken) → Bool
  | [] => true
  | b :: rest => areVoid b && areVoidBranches rest

def areVoid : List GlobToken → Bool
  | [] => true
  | t :: rest => isVoid t && areVoid rest

end

mutual

/-- What may be left of the bytes behind a token. -/
def rests (o : GlobOptions) : GlobToken → List UInt8 → List (List UInt8)
  | .literal c, s => ((Text.encodeUtf8 (String.singleton c)).isPrefixOf? s).toList
  | .any, s =>
    match s with
    | [] => []
    | b :: rest => if o.literalSeparator && b = slash then [] else [rest]
  | .zeroOrMore, s => if o.literalSeparator then tailsInName s else tails s
  | .recursivePrefix, s => s :: afterSlash s
  | .recursiveSuffix, s =>
    match s with
    | [] => []
    | b :: rest => if b = slash then tails rest else []
  | .recursiveMiddle, s =>
    match s with
    | [] => []
    | b :: rest => if b = slash then rest :: afterSlash rest else []
  | .class negated ranges, s =>
    match s with
    | [] => []
    | b :: rest => if ranges.any (rangeHas · b) != negated then [rest] else []
  | .alternatives branches, s =>
    if areVoidBranches branches then [s] else branchRests o branches s

def branchRests (o : GlobOptions) : List (List GlobToken) → List UInt8 → List (List UInt8)
  | [], _ => []
  | b :: more, s => (if areVoid b then [] else sequenceRests o b [s]) ++ branchRests o more s

/-- What may be left behind tokens in a row, from any of these starts. -/
def sequenceRests (o : GlobOptions) : List GlobToken → List (List UInt8) → List (List UInt8)
  | [], starts => starts
  | t :: more, starts => sequenceRests o more (distinct (starts.flatMap (rests o t)))

end

/-- Whether a pattern matches all of these bytes. A pattern of two stars matches everything. -/
def isMatch (o : GlobOptions) (pattern : List GlobToken) (path : String) : Bool :=
  match pattern with
  | [.recursivePrefix] => true
  | _ => (sequenceRests o pattern [Text.encodeUtf8 path]).any (·.isEmpty)

end Glob

end SourceSlices
