import SourceSlices.Syntax.Merging
import SourceSlices.Syntax.Node
import SourceSlices.Syntax.Parser

/-!
Grammars made ready to parse with, and the finished tree of a text: the nodes of the parser's tree
that are visible.
-/
namespace SourceSlices.Syntax

/-- A grammar made ready to parse with. -/
structure Engine where
  table : Table
  /-- The finished automaton, made when a text with errors first needs it. -/
  merged : Thunk Automaton

def Engine.ofGrammar (g : Grammar) : Engine :=
  let table := Table.ofGrammar g
  { table, merged := Thunk.mk fun _ => Automaton.merged table }

namespace Node

mutual

/-- The nodes that a tree shows: itself, or what its children show. -/
def ofSubtree (t : Table) (src : Source) (shownAs : Option (String × Bool)) (field : Option String) :
    Subtree σ → List Node
  | ⟨symbol, production, _, start, stop, ⟨children⟩, _, missing, _, errorCost, _, _, _, _, _, _⟩ =>
    let steps := match production with
      | some p => (t.productions.getD p default).steps
      | none => #[]
    let inner := ofSubtrees t src steps 0 children
    if shownAs.isSome || t.visible symbol then
      let (kind, named) := shownAs.getD (t.display symbol)
      [{ kind, named, field, start := src.byteAt start, stop := src.byteAt stop
         failing := errorCost > 0 || missing, children := inner }]
    else
      inner.map fun n => if n.field.isNone then { n with field } else n

def ofSubtrees (t : Table) (src : Source) (steps : Array Step) (position : Nat) :
    List (Subtree σ) → List Node
  | [] => []
  | c :: rest =>
    let step := if c.extra || c.symbol = 0 then none else steps[position]?
    ofSubtree t src (step.bind (·.shownAs)) (step.bind (·.field)) c ++
      ofSubtrees t src steps (if c.extra then position else position + 1) rest

end

/-- Reads a text with a grammar and its scanner. A text without errors only needs the states that
it reaches itself; an error is only judged in the finished automaton. -/
def ofText [DecidableEq σ] (e : Engine) (scanner : Scanner σ) (text : List Char) : Node :=
  let source := Source.ofChars text
  let setting := ⟨e.table, scanner, source⟩
  let first := Syntax.parse setting (.initial e.table)
  let tree := if first.errorCost = 0 then first else Syntax.parse setting e.merged.get
  (ofSubtree e.table source none none tree).headD default

end Node

end SourceSlices.Syntax
