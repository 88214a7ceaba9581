
import SourceSlices.Syntax.Closure
import SourceSlices.Syntax.Rivals

/-!
States in groups that can be one state. States of a group have the same items and do the same
over each terminal that several of them know; what only some know must not be mistaken by the
others for a terminal of theirs. Groups are split until all moves of a group lead to one group.

The finished automaton of a grammar, with one state for each group, and tokens that are looked for
together wherever that does no harm. It finds errors later than the automaton with exact
look-aheads, and so recovers from them in another way; texts without errors have the same trees.
-/
namespace SourceSlices.Syntax

/-! ### Groups -/

/-- What decides about groups. -/
structure Census where
  table : Table
  closure : Closure
  /-- For the terminals that a state knows, except when recovering, those that it must not learn. -/
  refused : Std.HashMap Bits Bits

/-- What is compared of a state. -/
structure Profile where
  number : Nat
  known : Bits
  refused : Bits
  /-- The look-aheads of its completed items. -/
  looks : Array Bits
  /-- The groups that its moves lead to. -/
  targets : List Nat

/-- Groups of states, and the group of each state. -/
structure Grouping where
  groups : Array (List Nat)
  group : Array Nat

/-- Terminals with some action in a state. -/
def Table.knownTo (t : Table) (s : LrState) : Bits :=
  s.valid &&& t.allTerminals

/-- Whether a terminal is shifted when all is said. -/
def Table.shifts (t : Table) (s : LrState) (terminal : Nat) : Bool :=
  match (t.actionsIn s terminal).getLast? with
  | some (.shift _) => true
  | _ => false

namespace Census

def state (c : Census) (n : Nat) : LrState := c.closure.automaton.state n

def moves (c : Census) (n : Nat) : List (Nat × Nat) := c.closure.moves.getD n []

/-- A word may clash with the keywords. Tokens of the scanner are never learnt, the end always. -/
def ofTable (t : Table) (rivals : Rivals) : Census :=
  let clashing := rivals.clashing.mapIdx fun n b =>
    if t.word = some n then b.without t.keywordBits
    else if t.keywordBits.has n then b.without (t.word.elim 0 Bits.single)
    else b
  let foes := Bits.transpose clashing
  let never := t.externalSymbols.foldl (fun b n => b ||| Bits.single n) t.externals
  let closure := Closure.ofTable t
  let states := closure.automaton.states
  { table := t, closure
    refused := (states.extract Table.startState states.size).foldl (fun acc s =>
      let known := t.knownTo s
      if acc.contains known then acc
      else acc.insert known ((known.members.foldl (fun b n => b ||| foes.getD n 0) never).without
        (Bits.single Table.endOfFile))) ∅ }

def profile (c : Census) (group : Array Nat) (n : Nat) : Profile :=
  let s := c.state n
  let known := c.table.knownTo s
  { number := n, known
    refused := c.refused.getD known 0
    looks := s.completed.map (·.look)
    targets := (c.moves n).map fun x => group.getD x.2 0 }

def sameAction (t : Table) : Action → Action → Bool
  | .reduce p, .reduce q => t.sameShape p q
  | a, b => a = b

def sameActions (t : Table) (a b : LrState) (terminal : Nat) : Bool :=
  let xs := t.actionsIn a terminal
  let ys := t.actionsIn b terminal
  xs.length = ys.length && (xs.zip ys).all fun (x, y) => sameAction t x y

/-- Whether moves that are made in two states lead to the same groups. -/
def sameMoves (t : Table) (group : Array Nat) (a b : LrState) :
    List (Nat × Nat) → List (Nat × Nat) → Bool
  | (symbol, x) :: xs, (_, y) :: ys =>
    (group.getD x 0 = group.getD y 0 ||
      (t.isTerminal symbol && !(t.shifts a symbol && t.shifts b symbol))) &&
    sameMoves t group a b xs ys
  | _, _ => true

def agree (c : Census) (group : Array Nat) (a b : Profile) : Bool :=
  let s := c.state a.number
  let r := c.state b.number
  let terminal (x : Nat × Nat) : Bool := c.table.isTerminal x.1
  a.known.without b.known &&& b.refused = 0 && b.known.without a.known &&& a.refused = 0 &&
    (a.looks == b.looks ||
      ((a.looks.zipWith (· ^^^ ·) b.looks).foldl (· ||| ·) 0 &&& a.known &&& b.known).members.all
        (sameActions c.table s r)) &&
    (a.targets == b.targets || sameMoves c.table group s r
      ((c.moves a.number).filter terminal) ((c.moves b.number).filter terminal))

end Census

namespace Grouping

/-- Those that can stay together, and those that cannot be with one that stays; the fuel is
their number. -/
def separate (bad : α → α → Bool) : Nat → List α → List α × List α
  | 0, xs => (xs, [])
  | _, [] => ([], [])
  | fuel + 1, x :: rest =>
    let (out, rest) := rest.partition (bad x)
    let (stay, more) := separate bad fuel rest
    (x :: stay, out ++ more)

/-- Splits groups, also those that are made on the way; the fuel bounds how many there are. -/
def split (apart : Array Nat → List Nat → List Nat × List Nat) :
    Nat → Nat → Grouping → Bool → Grouping × Bool
  | 0, _, g, changed => (g, changed)
  | fuel + 1, k, g, changed =>
    match g.groups[k]? with
    | none => (g, changed)
    | some [_] => split apart fuel (k + 1) g changed
    | some ids =>
      match apart g.group ids with
      | (_, []) => split apart fuel (k + 1) g changed
      | (stay, out) =>
        let n := g.groups.size
        split apart fuel (k + 1)
          { groups := (g.groups.setIfInBounds k stay).push out
            group := out.foldl (fun (acc : Array Nat) x => acc.setIfInBounds x n) g.group } true

/-- Splits until nothing changes. -/
def settle (apart : Array Nat → List Nat → List Nat × List Nat) (size : Nat) :
    Nat → Grouping → Grouping
  | 0, g => g
  | fuel + 1, g =>
    let (g, changed) := split apart size 0 g false
    if changed then settle apart size fuel g else g

/-- One group for each set of items, whatever may follow them. -/
def byItems (states : Array LrState) : Grouping :=
  let (groups, group, _) := states.zipIdx.foldl
    (fun (acc : Array (List Nat) × Array Nat × Std.HashMap (Array (Nat × Nat)) Nat) (s, n) =>
      let items := s.kernel.map fun i => (i.production, i.dot)
      match acc.2.2[items]? with
      | some k => (acc.1.modify k (n :: ·), acc.2.1.push k, acc.2.2)
      | none =>
        (acc.1.push [n], acc.2.1.push acc.1.size, acc.2.2.insert items acc.1.size)) (#[], #[], ∅)
  { groups := groups.map List.reverse, group }

def ofCensus (c : Census) : Grouping :=
  let size := c.closure.automaton.states.size
  let byActions (group : Array Nat) (ids : List Nat) : List Nat × List Nat :=
    let (stay, out) := separate (fun a b => !c.agree group a b) ids.length
      (ids.map (c.profile group))
    (stay.map (·.number), out.map (·.number))
  let byMoves (group : Array Nat) : List Nat → List Nat × List Nat
    | [] => ([], [])
    | n :: rest =>
      let (same, other) := rest.partition fun k =>
        Census.sameMoves c.table group (c.state n) (c.state k) (c.moves n) (c.moves k)
      (n :: same, other)
  settle byMoves size size (split byActions size 0 (byItems c.closure.automaton.states) false).1

end Grouping

/-! ### Merged states -/

/-- The state that stands for two with the same items. -/
def LrState.join (a b : LrState) : LrState :=
  let both (xs ys : Array Item) := xs.zipWith (fun x y => { x with look := x.look ||| y.look }) ys
  { a with
    kernel := both a.kernel b.kernel
    reached := a.reached.zipWith (fun x y => (x.1, x.2 ||| y.2)) b.reached
    completed := both a.completed b.completed
    shiftable := a.shiftable ||| b.shiftable
    valid := a.valid ||| b.valid }

/-- States with the moves between them. -/
structure Network where
  states : Array LrState
  moves : Array (List (Nat × Nat))

namespace Network

def state (w : Network) (n : Nat) : LrState := w.states.getD n default

def movesOf (w : Network) (n : Nat) : List (Nat × Nat) := w.moves.getD n []

/-- One state for each group. -/
def ofGroups (c : Census) (g : Grouping) : Network where
  states := g.groups.map fun
    | [] => default
    | n :: rest => rest.foldl (fun s k => s.join (c.state k)) (c.state n)
  moves := g.groups.map fun ids =>
    (c.moves (ids.headD 0)).map fun (symbol, n) => (symbol, g.group.getD n 0)

/-- Where a move ends: a state that only turns its single part into something hidden is left
again at once. -/
def settleOn (w : Network) (src : Nat) : Nat → Nat → Nat
  | 0, n => n
  | fuel + 1, n =>
    match (w.state n).passes.bind fun symbol => (w.movesOf src).lookup symbol with
    | some next => settleOn w src fuel next
    | none => n

def settled (t : Table) (w : Network) : Network :=
  { w with moves := w.moves.mapIdx fun src row =>
      row.map fun (symbol, n) => (symbol, w.settleOn src t.nonTerminals.size n) }

/-- Marks what moves lead to from states in a queue; the fuel is the number of states. -/
def reachFrom (t : Table) (w : Network) : Nat → List Nat → Array Bool → Array Bool
  | 0, _, seen => seen
  | _, [], seen => seen
  | fuel + 1, n :: queue, seen =>
    let (queue, seen) := (w.movesOf n).foldl (fun (acc : List Nat × Array Bool) (symbol, k) =>
      if acc.2.getD k true || (t.isTerminal symbol && !t.shifts (w.state n) symbol) then acc
      else (k :: acc.1, acc.2.setIfInBounds k true)) (queue, seen)
    reachFrom t w fuel queue seen

/-- States in use: the first two, then those with more ways on before those with fewer. -/
def inUse (t : Table) (w : Network) : List Nat :=
  let first := [Table.errorState, Table.startState]
  let seen := w.reachFrom t w.states.size [Table.startState]
    (first.foldl (fun (acc : Array Bool) n => acc.setIfInBounds n true)
      (Array.replicate w.states.size false))
  let ways := w.states.mapIdx fun n s =>
    (t.knownTo s).members.length + ((w.movesOf n).filter fun x => !t.isTerminal x.1).length
  first ++ (((List.range w.states.size).drop 2).filter (seen.getD · false)).mergeSort
    fun a b => ways.getD a 0 ≥ ways.getD b 0

end Network

namespace Rivals

/-- Terminals to go on with after an error. One is left out if it clashes with a terminal that is
never valid beside it and does not reach beyond any such terminal. -/
def recoverable (t : Table) (r : Rivals) (together : Array Bits) : Bits :=
  let strange (n : Nat) : Bits :=
    (t.lexical.without (together.getD n 0)).without (Bits.single n)
  let clear := t.lexical.members.foldl (fun b n =>
    if r.outreaching.getD n 0 &&& strange n = 0 then b ||| Bits.single n else b) 0
  let out := t.lexical.members.foldl (fun b n =>
    if clear.has n || t.keywordBits.has n || t.word = some n ||
      r.clashing.getD n 0 &&& strange n &&& clear = 0 then b else b ||| Bits.single n) 0
  t.allTerminals.without out ||| t.extras

/-- For each token those that must not be looked for with it. -/
def apart (r : Rivals) (together : Array Bits) : Array Bits :=
  let overlapped := Bits.transpose r.overlapping
  Bits.transpose (r.barring.mapIdx fun n b =>
    b ||| (r.overlapping.getD n 0 ||| overlapped.getD n 0).without (together.getD n 0))

end Rivals

/-- Sets of tokens that are looked for together, each with the tokens it must not get. -/
abbrev TokenSets := List (Bits × Bits)

/-- Adds tokens to the first set that may have them, and gives its place. -/
def TokenSets.place (tokens barred : Bits) : TokenSets → TokenSets × Nat
  | [] => ([(tokens, barred)], 0)
  | (set, out) :: rest =>
    if set.without tokens &&& barred = 0 && tokens.without set &&& out = 0 then
      ((set ||| tokens, out ||| barred) :: rest, 0)
    else
      let (rest, n) := place tokens barred rest
      ((set, out) :: rest, n + 1)

namespace Network

/-- Tokens of a state that are looked for by their patterns, the word in place of keywords. -/
def tokensOf (t : Table) (s : LrState) : Bits :=
  let known := (t.knownTo s).without t.externals
  match t.word with
  | some w =>
    if known &&& t.keywordBits = 0 then known else known.without t.keywordBits ||| Bits.single w
  | none => known

/-- Gives states the sets of tokens that they look for. -/
def seeking (t : Table) (apart : Array Bits) (w : Network) : Network :=
  let (sets, places) := (w.inUse t).foldl (fun (acc : TokenSets × List (Nat × Nat)) n =>
    let tokens := tokensOf t (w.state n)
    let barred := tokens.members.foldl (fun b n => b ||| apart.getD n 0) 0
    let (sets, k) := acc.1.place tokens barred
    (sets, (n, k) :: acc.2)) ([], [])
  let sets := sets.toArray
  { w with states := places.foldl (fun (acc : Array LrState) (n, k) =>
      acc.modify n fun s => { s with sought := (sets.getD k (0, 0)).1 }) w.states }

end Network

/-- Terminals that are valid beside each terminal in some state. -/
def Census.together (c : Census) : Array Bits :=
  (c.refused.keys).foldl (fun acc known => known.members.foldl
    (fun (acc : Array Bits) n => acc.modify n (· ||| known)) acc)
    (Array.replicate c.table.terminals.size 0)

def Automaton.merged (t : Table) : Automaton :=
  let rivals := Rivals.ofTable t
  let census := Census.ofTable t rivals
  let together := census.together
  let w := (Network.ofGroups census (Grouping.ofCensus census)).settled t
  let recoverable := rivals.recoverable t together
  let w := { w with states := w.states.modify Table.errorState ({ · with valid := recoverable }) }
  let w := w.seeking t (rivals.apart together)
  { states := w.states
    gotos := w.moves.zipIdx.foldl (fun acc (row, n) => row.foldl
      (fun (acc : Std.HashMap (Nat × Nat) Nat) (symbol, k) => acc.insert (n, symbol) k) acc) ∅ }

end SourceSlices.Syntax
