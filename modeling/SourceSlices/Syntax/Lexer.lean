import SourceSlices.Syntax.Table

/-!
Tokens by longest match. Blanks are passed over first; a token that must follow at once is tried
only where no blank was passed.
-/
namespace SourceSlices.Syntax

/-- A text with byte offsets and line numbers of its positions. -/
structure Source where
  chars : Array Char
  bytes : Array Nat
  rows : Array Nat

namespace Source

def ofChars (cs : List Char) : Source :=
  let (bytes, rows, _, _) := cs.foldl (fun (acc : Array Nat × Array Nat × Nat × Nat) c =>
    let b := acc.2.2.1 + c.utf8Size
    let r := if c = '\n' then acc.2.2.2 + 1 else acc.2.2.2
    (acc.1.push b, acc.2.1.push r, b, r)) (#[0], #[0], 0, 0)
  ⟨cs.toArray, bytes, rows⟩

def size (s : Source) : Nat := s.chars.size
def byteAt (s : Source) (i : Nat) : Nat := s.bytes.getD i 0
def rowAt (s : Source) (i : Nat) : Nat := s.rows.getD i 0

end Source

structure Match where
  token : Nat
  start : Nat
  stop : Nat

/-- How far an attempt got: where its token began, and the first character it could not use. -/
structure Missed where
  start : Nat
  reached : Nat

namespace Table

def rankOf (t : Table) (token : Nat) : Int := (t.terminals.getD token default).token.rank

/-- Literals go before patterns, and tokens without blanks before others. -/
def bias (t : Table) (token : Nat) : Nat :=
  let r := (t.terminals.getD token default).token
  (if r.literal.isSome then 2 else 0) + if r.immediate then 1 else 0

/-- Which of two tokens that match the same text is meant. -/
def prefers (t : Table) (a b : Nat) : Bool :=
  if t.rankOf a ≠ t.rankOf b then t.rankOf a > t.rankOf b
  else if t.bias a ≠ t.bias b then t.bias a > t.bias b
  else a < b

structure LexState where
  at' : Nat
  start : Nat
  skipping : Bool
  alive : List Nat
  best : Option (Nat × Nat) := none

/-- One character further; `none` when nothing can go on. -/
def lexStep (t : Table) (immediate plain : List Nat) (origin : Nat) (s : LexState) (c : Char) :
    Option LexState :=
  let begun := if s.skipping then (if s.at' = origin then immediate ++ plain else plain) else []
  let hits (p : Nat) : Bool := (t.sets.getD p default).has c
  let moved := s.alive.filter hits ++ begun.filter hits
  let blank := s.skipping && t.blanks.has c
  if moved.isEmpty then
    if blank then some { s with at' := s.at' + 1, start := s.at' + 1, alive := [] } else none
  else
    let rank := moved.foldl (fun r p => max r (t.rankOf (t.owner.getD p 0)))
      (t.rankOf (t.owner.getD (moved.headD 0) 0))
    let beaten := match s.best with
      | some (token, stop) => stop = s.at' && rank < t.rankOf token
      | none => false
    if beaten then none
    else
      let done := moved.foldl (fun best p =>
        if t.accepting.getD p false then
          let token := t.owner.getD p 0
          match best with
          | some old => if t.prefers token old then some token else best
          | none => some token
        else best) (none : Option Nat)
      some
        { at' := s.at' + 1
          start := s.start
          skipping := blank
          alive := (moved.flatMap fun p => t.follow.getD p []).eraseDups
          best := match done with
            | some token => some (token, s.at' + 1)
            | none => s.best }

def lexFrom (t : Table) (text : Array Char) (immediate plain : List Nat) (origin : Nat)
    (atEnd : Bool) : Nat → LexState → Except Missed Match
  | fuel, s =>
    let stop : Except Missed Match := match s.best with
      | some (token, stop) => .ok ⟨token, s.start, stop⟩
      | none => .error ⟨s.start, s.at'⟩
    match text[s.at']? with
    | none => if atEnd && s.best.isNone && s.start = s.at' then .ok ⟨endOfFile, s.at', s.at'⟩ else stop
    | some c =>
      match fuel with
      | 0 => stop
      | fuel + 1 =>
        match t.lexStep immediate plain origin s c with
        | some s => lexFrom t text immediate plain origin atEnd fuel s
        | none => stop

/-- The token at a position, among those that are valid there. -/
def lex (t : Table) (valid : Bits) (text : Array Char) (pos : Nat) : Except Missed Match :=
  let valid := match t.word with
    | some w =>
      if valid &&& t.keywordBits = 0 then valid
      else (valid ^^^ (valid &&& t.keywordBits)) ||| Bits.single w
    | none => valid
  let (immediate, plain) := (Bits.members valid).foldl (fun (acc : List Nat × List Nat) n =>
    if (t.terminals.getD n default).token.immediate then (t.starts.getD n [] ++ acc.1, acc.2)
    else (acc.1, t.starts.getD n [] ++ acc.2)) ([], [])
  t.lexFrom text immediate plain pos (valid.has endOfFile) (text.size + 1)
    ⟨pos, pos, true, [], none⟩

end Table

/-- A token found by a scanner, with the scanner's state after it. -/
structure Hit (σ : Type) where
  token : Nat
  start : Nat
  stop : Nat
  state : Option σ := none

/-- A scanner for the tokens that a grammar leaves open. It is told which of them, by their places
in the grammar's list, are valid. -/
structure Scanner (σ : Type) where
  scan : Option σ → (Nat → Bool) → Array Char → Nat → Option (Hit σ)

end SourceSlices.Syntax
