/-!
Syntax trees: nodes with a kind, a byte range and the field of their parent that they fill.
-/
namespace SourceSlices.Syntax

structure Node where
  kind : String
  /-- Whether it is more than a word or a sign of the language. -/
  named : Bool
  field : Option String := none
  start : Nat
  stop : Nat
  /-- Whether an error lies in it. -/
  failing : Bool := false
  children : List Node := []

namespace Node

instance : Inhabited Node := ⟨⟨"", false, none, 0, 0, false, []⟩⟩

def namedChildren (n : Node) : List Node := n.children.filter (·.named)

def child? (n : Node) (field : String) : Option Node := n.children.find? (·.field == some field)

def childOfKind? (n : Node) (kind : String) : Option Node := n.children.find? (·.kind == kind)

end Node

end SourceSlices.Syntax
