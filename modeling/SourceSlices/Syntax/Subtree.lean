import SourceSlices.Syntax.Lexer

/-!
Trees as the parser builds them: hidden nodes are still there, and each tree knows what its errors
cost.
-/
namespace SourceSlices.Syntax

/-- Costs that decide between ways to go on after an error. -/
def recoveryCost : Nat := 500
def missingCost : Nat := 110
def skippedTreeCost : Nat := 100
def skippedCharCost : Nat := 1
def skippedLineCost : Nat := 30

structure Subtree (σ : Type) where
  symbol : Nat
  production : Option Nat := none
  /-- Where the blanks before it begin. -/
  first : Nat
  start : Nat
  stop : Nat
  children : Array (Subtree σ) := #[]
  extra : Bool := false
  missing : Bool := false
  keyword : Bool := false
  errorCost : Nat := 0
  dynamic : Int := 0
  visibleChildren : Nat := 0
  descendants : Nat := 0
  fromScanner : Bool := false
  scannerState : Option σ := none
  changesState : Bool := false

namespace Subtree

variable {σ : Type}

instance : Inhabited (Subtree σ) := ⟨⟨0, none, 0, 0, 0, #[], false, false, false, 0, 0, 0, 0, false, none, false⟩⟩

def isLeaf (s : Subtree σ) : Bool := s.children.isEmpty
def isError (t : Table) (s : Subtree σ) : Bool := s.symbol = t.errorSymbol
def width (src : Source) (s : Subtree σ) : Nat := src.byteAt s.stop - src.byteAt s.first
def height (src : Source) (s : Subtree σ) : Nat := src.rowAt s.stop - src.rowAt s.first

/-- What a tree adds to the count of nodes on its stack. -/
def nodeCount (t : Table) (s : Subtree σ) : Nat :=
  s.descendants + (if t.visible s.symbol then 1 else 0) +
    if s.symbol = t.skippedSymbol then 1 else 0

/-- Sums gathered over the children of a node. -/
structure Sums where
  errorCost : Nat := 0
  dynamic : Int := 0
  visibleChildren : Nat := 0
  descendants : Nat := 0
  position : Nat := 0

def addChild (t : Table) (failing : Bool) (steps : Array Step) (s : Sums) (c : Subtree σ) : Sums :=
  let visible := t.visible c.symbol
  let shownAs := if c.extra || c.symbol = 0 then none else (steps[s.position]?).bind (·.shownAs)
  let shown := shownAs.isSome || visible
  let skipped :=
    if failing && !c.extra && !(c.isError t && c.isLeaf) then
      if visible then skippedTreeCost
      else if c.isLeaf then 0 else skippedTreeCost * c.visibleChildren
    else 0
  { errorCost := s.errorCost + skipped + if c.symbol = t.skippedSymbol then 0 else c.errorCost
    dynamic := s.dynamic + c.dynamic
    descendants := s.descendants + c.descendants + if shown then 1 else 0
    visibleChildren := s.visibleChildren + if shown then 1 else c.visibleChildren
    position := if c.extra then s.position else s.position + 1 }

/-- A node over its children; one without children stands at a given position. -/
def node (t : Table) (src : Source) (symbol : Nat) (children : Array (Subtree σ))
    (production : Option Nat) (pos : Nat) (dynamic : Int) : Subtree σ :=
  let failing := symbol = t.errorSymbol || symbol = t.skippedSymbol
  let steps := match production with
    | some p => (t.productions.getD p default).steps
    | none => #[]
  let sums := children.foldl (addChild t failing steps) {}
  let first := (children[0]?).elim pos (·.first)
  let start := (children[0]?).elim pos (·.start)
  let stop := (children.back?).elim pos (·.stop)
  let own :=
    if failing then
      recoveryCost + skippedCharCost * (src.byteAt stop - src.byteAt start) +
        skippedLineCost * (src.rowAt stop - src.rowAt start)
    else 0
  { symbol, production, first, start, stop, children
    errorCost := sums.errorCost + own
    dynamic := sums.dynamic + dynamic
    visibleChildren := sums.visibleChildren
    descendants := sums.descendants
    changesState := children.any (·.changesState) }

/-- Removes the extras at the end. -/
def splitTrailingExtras (children : Array (Subtree σ)) : Array (Subtree σ) × Array (Subtree σ) :=
  let trailing := (children.toList.reverse.takeWhile (·.extra)).length
  (children.extract 0 (children.size - trailing), children.extract (children.size - trailing) children.size)

mutual

/-- Order of trees by symbols and numbers of children, from the root on. -/
def compare (a b : Subtree σ) : Ordering :=
  if a.symbol < b.symbol then .lt
  else if b.symbol < a.symbol then .gt
  else if a.children.size < b.children.size then .lt
  else if b.children.size < a.children.size then .gt
  else compareAll a.children.toList b.children.toList
termination_by 2 * sizeOf a
decreasing_by
  obtain ⟨_, _, _, _, _, ⟨xs⟩⟩ := a
  simp
  omega

def compareAll : List (Subtree σ) → List (Subtree σ) → Ordering
  | a :: as, b :: bs =>
    match compare a b with
    | .eq => compareAll as bs
    | o => o
  | _, _ => .eq
termination_by as => 2 * sizeOf as + 1

end

/-- Whether the second of two trees for the same text is the better one. -/
def replaces (left right : Subtree σ) : Bool :=
  if right.errorCost < left.errorCost then true
  else if left.errorCost < right.errorCost then false
  else if right.dynamic > left.dynamic then true
  else if left.dynamic > right.dynamic then false
  else if left.errorCost > 0 then true
  else compare left right = .gt

/-- Whether two trees may stand for each other on a stack. -/
def equivalent [DecidableEq σ] (src : Source) (a b : Subtree σ) : Bool :=
  a.symbol = b.symbol &&
    ((a.errorCost > 0 && b.errorCost > 0) ||
      (src.byteAt a.start - src.byteAt a.first = src.byteAt b.start - src.byteAt b.first &&
        src.byteAt a.stop - src.byteAt a.start = src.byteAt b.stop - src.byteAt b.start &&
        a.children.size = b.children.size && a.extra = b.extra &&
        a.scannerState = b.scannerState))

end Subtree

end SourceSlices.Syntax
