import SourceSlices.Syntax.Lexer

/-!
Tokens that can be taken for one another. Two tokens looked for at the same place are followed
side by side through their patterns, which shows what each can do to the texts of the other.
-/
namespace SourceSlices.Syntax

/-- What a token can do where another one is looked for as well. -/
structure Rivalry where
  /-- Both match the same text, and it is preferred. -/
  preferred : Bool := false
  /-- It ends where blanks could still be passed over. -/
  beforeBlanks : Bool := false
  /-- It ends although the other one could go on. -/
  cutsShort : Bool := false
  /-- It goes on where the other one ends. -/
  goesOn : Bool := false
  /-- It goes on with a character that can begin a token after the other one. -/
  swallows : Bool := false

namespace Rivalry

/-- Whether it can take the place of the other one where that is meant. -/
def clashes (r : Rivalry) : Bool := r.swallows || r.beforeBlanks || r.preferred

def overlaps (r : Rivalry) : Bool := r.beforeBlanks || r.cutsShort || r.preferred || r.goesOn

end Rivalry

/-- For each terminal the others with which it has a kind of rivalry. -/
structure Rivals where
  clashing : Array Bits
  /-- Those that it clashes with or cuts short. -/
  barring : Array Bits
  overlapping : Array Bits
  /-- Those beyond which it can go without being passed over in turn. -/
  outreaching : Array Bits

/-- Swaps the rows and columns of a relation. -/
def Bits.transpose (rows : Array Bits) : Array Bits :=
  rows.zipIdx.foldl (fun acc (b, n) => b.members.foldl
    (fun (acc : Array Bits) k => acc.modify k (· ||| Bits.single n)) acc)
    (Array.replicate rows.size 0)

/-- Sets of characters as sets of letters, where a letter stands for all characters that the
patterns of a grammar do not tell apart. -/
structure Alphabet where
  /-- The letters of each place in the patterns. -/
  sets : Array Bits
  blanks : Bits

/-- A place in the pattern of a token, or before it, where blanks may be. -/
inductive Spot where
  | before (token : Nat)
  | after (position : Nat)
  deriving DecidableEq

/-- A way on from a spot. -/
structure Move where
  letters : Bits
  blank : Bool
  rank : Int
  target : Spot

/-- Two tokens while they are compared, with the spots that were met together. -/
structure Duel where
  first : Nat
  second : Nat
  ofFirst : Rivalry := {}
  ofSecond : Rivalry := {}
  visited : List (List Spot) := []

def Duel.note (d : Duel) (token : Nat) (f : Rivalry → Rivalry) : Duel :=
  if token = d.first then { d with ofFirst := f d.ofFirst } else { d with ofSecond := f d.ofSecond }

namespace Table

/-- Code points at which a set can begin or end. -/
def borders (sets : List CharSet) : List Nat :=
  sets.flatMap fun s =>
    s.ranges.flatMap (fun r => [r.1, r.2 + 1]) ++
      s.wide.flatMap fun w => w.table.toList.flatMap fun r => [r.lo, r.hi + 1]

/-- Characters in the same sets are one letter, so one at each border is enough to find all. -/
def alphabet (t : Table) : Alphabet :=
  let kinds := (t.blanks :: t.sets.toList).eraseDups
  let signature (c : Char) : Bits := kinds.zipIdx.foldl
    (fun b (s, i) => if s.has c then b ||| Bits.single i else b) 0
  let characters := ((0 :: borders kinds).filter (·.isValidChar)).map Char.ofNat
  let letters := (characters.foldl (fun m c => m.insert (signature c) ()) (∅ : Std.HashMap Bits Unit)).keys
  let lettersOf := (Array.range kinds.length).map fun i => letters.zipIdx.foldl
    (fun b (s, n) => if s.has i then b ||| Bits.single n else b) 0
  { sets := t.sets.map fun s => ((kinds.findIdx? (· == s)).bind (lettersOf[·]?)).getD 0
    blanks := lettersOf.getD 0 0 }

/-- Terminals found by their patterns. -/
def lexical (t : Table) : Bits :=
  t.allTerminals.without (Bits.single endOfFile ||| t.externals)

/-- The least fixed point of the sets of terminals that can come last, by a bounded number of
rounds. -/
def lastRounds (t : Table) : Nat → Array Bits → Array Bits
  | 0, last => last
  | fuel + 1, last =>
    let next := t.productions.foldl (fun (acc : Array Bits) p =>
      match p.steps.back? with
      | none => acc
      | some s => acc.modify p.lhs (· ||| match t.nonTerminal? s.symbol with
        | none => Bits.single s.symbol
        | some nt => acc.getD nt 0)) last
    if next = last then last else lastRounds t fuel next

/-- The patterns that can come right after each terminal. -/
def followers (t : Table) : Array Bits :=
  let last := t.lastRounds (t.nonTerminals.size + 2) (Array.replicate t.nonTerminals.size 0)
  let beside := t.productions.foldl (fun acc p =>
    (p.steps.toList.zip (p.steps.toList.drop 1)).foldl
      (fun (acc : Array Bits) (s, next) => acc.modify s.symbol (· ||| t.firstOf next)) acc)
    (Array.replicate (t.terminals.size + t.nonTerminals.size) 0)
  let inherited := last.zipIdx.foldl (fun acc (ends, nt) => ends.members.foldl
    (fun (acc : Array Bits) n => acc.modify n (· ||| beside.getD (t.symbolOf nt) 0)) acc) beside
  let anywhere := t.extras &&& t.lexical
  (inherited.extract 0 t.terminals.size).mapIdx fun n b =>
    if anywhere.has n then t.lexical else (b &&& t.lexical) ||| anywhere

def isImmediate (t : Table) (n : Nat) : Bool := (t.terminals.getD n default).token.immediate

/-- Letters with which the pattern of a terminal can begin. -/
def initials (t : Table) (a : Alphabet) (n : Nat) : Bits :=
  (t.starts.getD n []).foldl (fun b p => b ||| a.sets.getD p 0) 0

/-- Letters that can come after each terminal. -/
def lettersAfter (t : Table) (a : Alphabet) : Array Bits :=
  let begins := (Array.range t.terminals.size).map fun n =>
    t.initials a n ||| if t.isImmediate n then 0 else a.blanks
  t.followers.map fun b => b.members.foldl (fun acc n => acc ||| begins.getD n 0) 0

def tokenAt (t : Table) : Spot → Nat
  | .before n => n
  | .after p => t.owner.getD p 0

def movesFrom (t : Table) (a : Alphabet) : Spot → List Move
  | .before n =>
    ((t.starts.getD n []).map fun p => ⟨a.sets.getD p 0, false, t.rankOf n, .after p⟩) ++
      if t.isImmediate n then [] else [⟨a.blanks, true, 0, .before n⟩]
  | .after p => (t.follow.getD p []).map fun q =>
    ⟨a.sets.getD q 0, false, t.rankOf (t.owner.getD p 0), .after q⟩

/-- Notes the tokens that end here, and which of them is meant. -/
def complete (t : Table) (blanks : Bool) : Duel → List Nat → Option Nat → Duel × Option Nat
  | d, [], done => (d, done)
  | d, n :: rest, done =>
    let d := if blanks then d.note n ({ · with beforeBlanks := true }) else d
    match done with
    | none => complete t blanks d rest (some n)
    | some old =>
      if old = n then complete t blanks d rest done
      else
        let best := if t.prefers old n then old else n
        complete t blanks (d.note best ({ · with preferred := true })) rest (some best)

/-- What a letter leads to where a token may have ended, and the spots from which to go on. -/
def stepOver (t : Table) (after : Array Bits) (moves : List Move) (blanks : Bool)
    (done : Option Nat) (d : Duel) (letter : Nat) : Duel × Option (List Spot) :=
  let taken := moves.filter (·.letters.has letter)
  let spots := (taken.map (·.target)).eraseDups
  match done with
  | none => (d, some spots)
  | some ended =>
    if spots.any (t.tokenAt · = ended) then (d, some spots)
    else
      let rank := taken.foldl (fun r m => max r m.rank) ((taken.head?.map (·.rank)).getD 0)
      if rank < t.rankOf ended || (rank = t.rankOf ended && blanks) then
        (d.note ended ({ · with cutsShort := true }), none)
      else
        let other := if ended = d.first then d.second else d.first
        (d.note other fun r => { r with
          goesOn := true
          swallows := r.swallows || (after.getD ended 0).has letter }, some spots)

/-- Follows both tokens as long as both are possible. -/
def duelFrom (t : Table) (a : Alphabet) (after : Array Bits) : Nat → List (List Spot) → Duel → Duel
  | 0, _, d => d
  | _, [], d => d
  | fuel + 1, spots :: queue, d =>
    let tokens := spots.map t.tokenAt
    if !(tokens.contains d.first && tokens.contains d.second) then duelFrom t a after fuel queue d
    else
      let moves := spots.flatMap (t.movesFrom a)
      let blanks := moves.any (·.blank)
      let ended := spots.filterMap fun
        | .after p => if t.accepting.getD p false then some (t.owner.getD p 0) else none
        | .before _ => none
      let (d, done) := t.complete blanks d ended none
      let lettersOf (n : Nat) : Bits := moves.foldl
        (fun b m => if t.tokenAt m.target = n then b ||| m.letters else b) 0
      let letters := if done.isSome then lettersOf d.first ||| lettersOf d.second
        else lettersOf d.first &&& lettersOf d.second
      let (d, queue) := letters.members.foldl (fun (acc : Duel × List (List Spot)) letter =>
        let (d, next) := t.stepOver after moves blanks done acc.1 letter
        match next with
        | some spots =>
          if d.visited.contains spots then (d, acc.2)
          else ({ d with visited := spots :: d.visited }, spots :: acc.2)
        | none => (d, acc.2)) (d, queue)
      duelFrom t a after fuel queue d

/-- Compares two tokens; the fuel bounds the sets of spots that are met. -/
def duel (t : Table) (a : Alphabet) (after : Array Bits) (n m : Nat) : Duel :=
  let begun := [.before n, .before m]
  t.duelFrom a after 4096 [begun] { first := n, second := m, visited := [begun] }

/-- Whether two tokens begin with different letters, none of them a blank. -/
def standApart (t : Table) (a : Alphabet) (n m : Nat) : Bool :=
  let b := t.initials a n
  let c := t.initials a m
  b &&& c = 0 && (b ||| c) &&& a.blanks = 0

end Table

namespace Rivals

/-- Adds what one token can do to another one, which can do something else to it. -/
def add (r : Rivals) (n m : Nat) (x y : Rivalry) : Rivals :=
  let mark (rows : Array Bits) (b : Bool) :=
    if b then rows.modify n (· ||| Bits.single m) else rows
  { clashing := mark r.clashing x.clashes
    barring := mark r.barring (x.clashes || x.cutsShort)
    overlapping := mark r.overlapping x.overlaps
    outreaching := mark r.outreaching ((x.swallows || x.beforeBlanks) && !y.beforeBlanks) }

def ofTable (t : Table) : Rivals :=
  let a := t.alphabet
  let after := t.lettersAfter a
  let tokens := t.lexical.members
  let none : Array Bits := Array.replicate t.terminals.size 0
  tokens.foldl (fun r n => (tokens.takeWhile (· < n)).foldl (fun r m =>
    if t.standApart a n m then r
    else
      let d := t.duel a after n m
      (r.add n m d.ofFirst d.ofSecond).add m n d.ofSecond d.ofFirst) r) ⟨none, none, none, none⟩

end Rivals

end SourceSlices.Syntax
