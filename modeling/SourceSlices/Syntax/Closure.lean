import SourceSlices.Syntax.Automaton

/-!
All states of a grammar's automaton, and the moves between them. Items that go on in the same way
and lead to the same node are one item here.
-/
namespace SourceSlices.Syntax

/-- All that matters of an item, but what may follow it. -/
structure Outlook where
  lhs : Nat
  dot : Nat
  dynamic : Int
  length : Nat
  level : Level
  assoc : Option Assoc
  /-- New names and fields of the steps before the dot, and the symbols of those with a new name. -/
  before : List (Option (String × Bool) × Option String × Nat)
  /-- Whether a step before the dot has fields inside. -/
  fields : Bool
  rest : List Step
  deriving BEq, Hashable

/-- How productions begin and go on. -/
structure Outline where
  /-- For a production and a dot the first production that goes on in the same way from there. -/
  standIns : Array (Array Nat)
  /-- Productions of a nonterminal by their first symbols, one for those that go on in the same way. -/
  starting : Array (List (Nat × List Nat))

/-- Items that begin with a symbol, and the number of the state that has no others. -/
structure Opening where
  symbol : Nat
  items : Array Item
  alone : Option Nat := none

/-- The states made so far, and the moves of those that were visited. -/
structure Closure where
  automaton : Automaton
  moves : Array (List (Nat × Nat)) := #[[]]
  /-- Openings by the nonterminals that can begin in a state. -/
  openings : Std.HashMap (Array (Nat × Bits)) (List Opening) := ∅

namespace Table

def outlookOf (t : Table) (p : Production) (dot : Nat) : Outlook :=
  let steps := p.steps.toList
  let before := steps.take dot
  let previous := before.getLast?
  { lhs := p.lhs, dot, dynamic := p.dynamic
    length := steps.length
    level := previous.elim .unset (·.level)
    assoc := previous.bind (·.assoc)
    before := before.map fun s => (s.shownAs, s.field, if s.shownAs.isSome then s.symbol else 0)
    fields := before.any fun s =>
      (t.nonTerminal? s.symbol).any fun nt => t.carriesFields.getD nt false
    rest := steps.drop dot }

def standIns (t : Table) : Array (Array Nat) :=
  (t.productions.zipIdx.foldl (fun (acc : Array (Array Nat) × Std.HashMap Outlook Nat) (p, n) =>
    let (row, known) := (List.range (p.steps.size + 1)).foldl
      (fun (acc : Array Nat × Std.HashMap Outlook Nat) dot =>
        let outlook := t.outlookOf p dot
        match acc.2[outlook]? with
        | some q => (acc.1.push q, acc.2)
        | none => (acc.1.push n, acc.2.insert outlook n)) (#[], acc.2)
    (acc.1.push row, known)) (#[], ∅)).1

def outline (t : Table) : Outline :=
  let standIns := t.standIns
  { standIns
    starting := t.starting.map fun m => m.toList.map fun (symbol, ps) =>
      (symbol, (ps.map fun p => (standIns.getD p #[]).getD 1 p).eraseDups) }

/-- Items that begin in a state, in the order of their first symbols. -/
def openingsOf (o : Outline) (s : LrState) : List Opening :=
  let all := s.reached.foldl (fun (m : Std.HashMap Nat (Array Item)) (nt, look) =>
    (o.starting.getD nt []).foldl (fun (m : Std.HashMap Nat (Array Item)) (symbol, ps) =>
      m.alter symbol fun old =>
        some (ps.foldl (fun (items : Array Item) p => items.push ⟨p, 1, look⟩) (old.getD #[]))) m) ∅
  (all.toList.mergeSort fun a b => a.1 ≤ b.1).map fun (symbol, items) => { symbol, items }

/-- Adds an item to those of its symbol. -/
def insertAt (symbol : Nat) (i : Item) : List (Nat × Array Item) → List (Nat × Array Item)
  | [] => [(symbol, #[i])]
  | (s, items) :: rest =>
    if s < symbol then (s, items) :: insertAt symbol i rest
    else if s = symbol then
      (s, match items.findIdx? fun j => j.production = i.production && j.dot = i.dot with
        | some n => items.modify n fun j => { j with look := j.look ||| i.look }
        | none => items.push i) :: rest
    else (symbol, #[i]) :: (s, items) :: rest

/-- Items of the kernel after one more symbol, in the order of these symbols. -/
def movedOn (t : Table) (o : Outline) (s : LrState) : List (Nat × Array Item) :=
  let moved := s.kernel.foldl (fun acc i =>
    match t.stepOf i with
    | some step =>
      let p := (o.standIns.getD i.production #[]).getD (i.dot + 1) i.production
      insertAt step.symbol ⟨p, i.dot + 1, i.look⟩ acc
    | none => acc) []
  moved.map fun (symbol, items) => (symbol, (items.toList.mergeSort fun a b =>
    a.dot > b.dot || (a.dot = b.dot && a.production ≤ b.production)).toArray)

end Table

namespace Closure

/-- The state of an opening without other items. -/
def aloneState (t : Table) (a : Automaton) (o : Opening) : Automaton × Nat :=
  match o.alone with
  | some n => (a, n)
  | none => a.number t o.items

/-- Numbers the states behind all symbols, in their order; the fuel is the number of symbols. -/
def follow (t : Table) : Nat → List (Nat × Array Item) → List Opening → Automaton →
    Automaton × List (Nat × Nat) × List Opening
  | 0, _, _, a => (a, [], [])
  | _, [], [], a => (a, [], [])
  | fuel + 1, (symbol, items) :: moved, [], a =>
    let (a, n) := a.number t items
    let (a, moves, openings) := follow t fuel moved [] a
    (a, (symbol, n) :: moves, openings)
  | fuel + 1, [], o :: rest, a =>
    let (a, n) := aloneState t a o
    let (a, moves, openings) := follow t fuel [] rest a
    (a, (o.symbol, n) :: moves, { o with alone := some n } :: openings)
  | fuel + 1, (symbol, items) :: moved, o :: rest, a =>
    if symbol < o.symbol then
      let (a, n) := a.number t items
      let (a, moves, openings) := follow t fuel moved (o :: rest) a
      (a, (symbol, n) :: moves, openings)
    else if symbol = o.symbol then
      let (a, n) := a.number t (items ++ o.items)
      let (a, moves, openings) := follow t fuel moved rest a
      (a, (symbol, n) :: moves, o :: openings)
    else
      let (a, n) := aloneState t a o
      let (a, moves, openings) := follow t fuel ((symbol, items) :: moved) rest a
      (a, (o.symbol, n) :: moves, { o with alone := some n } :: openings)

/-- Visits states in the order of their numbers; the fuel bounds how many there are. -/
def visit (t : Table) (outline : Outline) : Nat → Nat → Closure → Closure
  | 0, _, c => c
  | fuel + 1, n, ⟨a, moves, known⟩ =>
    if n < a.states.size then
      let s := a.state n
      let openings := known[s.reached]?.getD (Table.openingsOf outline s)
      let moved := t.movedOn outline s
      let (a, mine, openings) := follow t (moved.length + openings.length) moved openings a
      visit t outline fuel (n + 1) ⟨a, moves.push mine, known.insert s.reached openings⟩
    else ⟨a, moves, known⟩

def ofTable (t : Table) : Closure :=
  visit t t.outline 1000000 Table.startState { automaton := .initial t }

end Closure

end SourceSlices.Syntax
