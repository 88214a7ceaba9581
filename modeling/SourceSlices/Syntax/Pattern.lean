import SourceSlices.Text.Class

/-!
Character sets and token patterns, and the position automaton of a pattern: its states are the
places of the pattern that match one character.
-/
namespace SourceSlices.Syntax

/-- Large classes of characters beyond ASCII. -/
structure WideClass where
  name : String
  table : Text.RangeTable

instance : BEq WideClass := ⟨fun a b => a.name == b.name⟩

/-- A set of code points given by inclusive ranges and classes, or by those it leaves out. -/
structure CharSet where
  ranges : List (Nat × Nat)
  negated : Bool := false
  wide : List WideClass := []
  deriving BEq, Inhabited

namespace CharSet

def has (s : CharSet) (c : Char) : Bool :=
  ((s.ranges.any fun r => r.1 ≤ c.toNat && c.toNat ≤ r.2) ||
    (c.toNat ≥ 128 && s.wide.any (·.table.has c.toNat))) != s.negated

/-- The characters of a text. -/
def of (text : String) : CharSet := ⟨text.toList.map fun c => (c.toNat, c.toNat), false, []⟩

/-- All characters but those of a text. -/
def except (text : String) : CharSet := { of text with negated := true }

def range (a b : Char) : CharSet := ⟨[(a.toNat, b.toNat)], false, []⟩

def union (a b : CharSet) : CharSet := ⟨a.ranges ++ b.ranges, false, a.wide ++ b.wide⟩

instance : HAppend CharSet CharSet CharSet := ⟨union⟩

def without (a : CharSet) : CharSet := { a with negated := !a.negated }

def any : CharSet := ⟨[], true, []⟩
def digit : CharSet := range '0' '9'
def lower : CharSet := range 'a' 'z'
def letter : CharSet := range 'a' 'z' ++ range 'A' 'Z'
def hex : CharSet := digit ++ range 'a' 'f' ++ range 'A' 'F'

/-- The blanks of ASCII. -/
def space : CharSet := ⟨[(9, 13), (0x20, 0x20)], false, []⟩

end CharSet

/-- What one token looks like. -/
inductive Pattern where
  | set (s : CharSet)
  | text (s : String)
  | seq (ps : List Pattern)
  | alt (ps : List Pattern)
  | many (p : Pattern)
  | some (p : Pattern)
  | opt (p : Pattern)
  deriving Inhabited

namespace Pattern

mutual

def same : Pattern → Pattern → Bool
  | .set a, .set b => a == b
  | .text a, .text b => a == b
  | .seq a, .seq b => sameAll a b
  | .alt a, .alt b => sameAll a b
  | .many a, .many b => same a b
  | .some a, .some b => same a b
  | .opt a, .opt b => same a b
  | _, _ => false

def sameAll : List Pattern → List Pattern → Bool
  | [], [] => true
  | a :: as, b :: bs => same a b && sameAll as bs
  | _, _ => false

end

instance : BEq Pattern := ⟨same⟩

end Pattern

/-- Positions of all patterns compiled so far. -/
structure Positions where
  sets : Array CharSet := #[]
  follow : Array (List Nat) := #[]

/-- Where a pattern can begin and end, and whether it matches nothing at all. -/
structure Ends where
  first : List Nat
  last : List Nat
  nullable : Bool

namespace Positions

def connect (ps : Positions) (ends : List Nat) (starts : List Nat) : Positions :=
  { ps with follow := ends.foldl (fun f p => f.modify p (· ++ starts)) ps.follow }

def single (ps : Positions) (s : CharSet) : Positions × Ends :=
  let n := ps.sets.size
  (⟨ps.sets.push s, ps.follow.push []⟩, ⟨[n], [n], false⟩)

def join (ps : Positions) (a b : Ends) : Positions × Ends :=
  (ps.connect a.last b.first,
    ⟨if a.nullable then a.first ++ b.first else a.first,
      if b.nullable then b.last ++ a.last else b.last, a.nullable && b.nullable⟩)

def chars (ps : Positions) : List Char → Positions × Ends
  | [] => (ps, ⟨[], [], true⟩)
  | c :: cs =>
    let (ps, a) := ps.single ⟨[(c.toNat, c.toNat)], false, []⟩
    let (ps, b) := ps.chars cs
    ps.join a b

mutual

def add (ps : Positions) : Pattern → Positions × Ends
  | .set s => ps.single s
  | .text s => ps.chars s.toList
  | .seq items => ps.addSeq items
  | .alt items => ps.addAlt items
  | .many p =>
    let (ps, e) := ps.add p
    (ps.connect e.last e.first, { e with nullable := true })
  | .some p =>
    let (ps, e) := ps.add p
    (ps.connect e.last e.first, e)
  | .opt p =>
    let (ps, e) := ps.add p
    (ps, { e with nullable := true })

def addSeq (ps : Positions) : List Pattern → Positions × Ends
  | [] => (ps, ⟨[], [], true⟩)
  | p :: rest =>
    let (ps, a) := ps.add p
    let (ps, b) := ps.addSeq rest
    ps.join a b

def addAlt (ps : Positions) : List Pattern → Positions × Ends
  | [] => (ps, ⟨[], [], false⟩)
  | p :: rest =>
    let (ps, a) := ps.add p
    let (ps, b) := ps.addAlt rest
    (ps, ⟨a.first ++ b.first, a.last ++ b.last, a.nullable || b.nullable⟩)

end

end Positions

end SourceSlices.Syntax
