import SourceSlices.Syntax.Grammar

/-!
From rules to productions: tokens are numbered, inlined rules are put in place, repetitions become
rules of their own, and choices are multiplied out.
-/
namespace SourceSlices.Syntax

namespace Rule

mutual

def same : Rule → Rule → Bool
  | .blank, .blank => true
  | .token a, .token b => a == b
  | .ref a, .ref b => a == b
  | .seq a, .seq b => sameAll a b
  | .choice a, .choice b => sameAll a b
  | .repeat1 a, .repeat1 b => same a b
  | .prec l s a, .prec m t b => l == m && s == t && same a b
  | .dynamic n a, .dynamic m b => n == m && same a b
  | .field n a, .field m b => n == m && same a b
  | .shownAs n x a, .shownAs m y b => n == m && x == y && same a b
  | .anyName a, .anyName b => same a b
  | _, _ => false

def sameAll : List Rule → List Rule → Bool
  | [], [] => true
  | a :: as, b :: bs => same a b && sameAll as bs
  | _, _ => false

end

mutual

/-- All tokens of a rule, in order, repeated as often as they are used. -/
def tokens : Rule → List TokenRule
  | .token t => [t]
  | .seq rs => tokensAll rs
  | .choice rs => tokensAll rs
  | .repeat1 r => tokens r
  | .prec _ _ r => tokens r
  | .dynamic _ r => tokens r
  | .field _ r => tokens r
  | .shownAs _ _ r => tokens r
  | .anyName r => tokens r
  | .blank => []
  | .ref _ => []

def tokensAll : List Rule → List TokenRule
  | [] => []
  | r :: rs => tokens r ++ tokensAll rs

end

mutual

/-- Replaces references to rules that a lookup knows. -/
def substitute (lookup : String → Option Rule) : Rule → Rule
  | .ref name => (lookup name).getD (.ref name)
  | .seq rs => .seq (substituteAll lookup rs)
  | .choice rs => .choice (substituteAll lookup rs)
  | .repeat1 r => .repeat1 (substitute lookup r)
  | .prec l a r => .prec l a (substitute lookup r)
  | .dynamic n r => .dynamic n (substitute lookup r)
  | .field n r => .field n (substitute lookup r)
  | .shownAs n b r => .shownAs n b (substitute lookup r)
  | .anyName r => .anyName (substitute lookup r)
  | .token t => .token t
  | .blank => .blank

def substituteAll (lookup : String → Option Rule) : List Rule → List Rule
  | [] => []
  | r :: rs => substitute lookup r :: substituteAll lookup rs

end

end Rule

/-- Repetition rules made so far, with the content they repeat. -/
structure Repeats where
  made : Array (Rule × String) := #[]
  rules : Array (String × Rule) := #[]

namespace Repeats

/-- A rule for one or more: a single one, or two repetitions side by side. -/
def binary (name : String) (content : Rule) : Rule :=
  .choice [.seq [.ref name, .ref name], content]

mutual

/-- Replaces repetitions by references to rules of their own; equal contents share one. -/
def expand (owner : String) (s : Repeats) : Rule → Repeats × Rule
  | .repeat1 r =>
    let (s, inner) := expand owner s r
    match s.made.find? (fun e => e.1.same inner) with
    | some (_, name) => (s, .ref name)
    | none =>
      let count := (s.rules.filter fun e => (owner ++ "_repeat").isPrefixOf e.1).size + 1
      let name := owner ++ "_repeat" ++ toString count
      (⟨s.made.push (inner, name), s.rules.push (name, binary name inner)⟩, .ref name)
  | .seq rs => let (s, rs) := expandAll owner s rs; (s, .seq rs)
  | .choice rs => let (s, rs) := expandAll owner s rs; (s, .choice rs)
  | .prec l a r => let (s, r) := expand owner s r; (s, .prec l a r)
  | .dynamic n r => let (s, r) := expand owner s r; (s, .dynamic n r)
  | .field n r => let (s, r) := expand owner s r; (s, .field n r)
  | .shownAs n b r => let (s, r) := expand owner s r; (s, .shownAs n b r)
  | .anyName r => let (s, r) := expand owner s r; (s, .anyName r)
  | .token t => (s, .token t)
  | .ref n => (s, .ref n)
  | .blank => (s, .blank)

def expandAll (owner : String) (s : Repeats) : List Rule → Repeats × List Rule
  | [] => (s, [])
  | r :: rs =>
    let (s, r) := expand owner s r
    let (s, rs) := expandAll owner s rs
    (s, r :: rs)

end

end Repeats

/-- One element of a production. -/
structure Step where
  symbol : Nat
  level : Level := .unset
  assoc : Option Assoc := none
  shownAs : Option (String × Bool) := none
  field : Option String := none
  /-- Whether a name here may be a reserved word. -/
  anyName : Bool := false
  deriving DecidableEq, Hashable, Inhabited

/-- What a step takes over from the rules around it. -/
structure Context where
  level : Level := .unset
  assoc : Option Assoc := none
  shownAs : Option (String × Bool) := none
  field : Option String := none
  anyName : Bool := false

/-- A step over one symbol. -/
def Context.step (ctx : Context) (symbol : Nat) : Step :=
  { symbol, level := ctx.level, assoc := ctx.assoc, shownAs := ctx.shownAs, field := ctx.field
    anyName := ctx.anyName }

abbrev Steps := Array Step × Int

def strongest (a b : Int) : Int := if a.natAbs < b.natAbs then b else a

/-- A group that does not end its rule gives its last step back the level outside of it. -/
def closeGroup (atEnd : Bool) (outer : Context) (level : Level) (assoc : Option Assoc) (s : Steps) :
    Steps :=
  if atEnd || s.1.isEmpty then s
  else
    let fix (step : Step) : Step :=
      let step := if level ≠ .unset then { step with level := outer.level } else step
      if assoc.isSome then { step with assoc := outer.assoc } else step
    (s.1.modify (s.1.size - 1) fix, s.2)

mutual

/-- All sequences of steps that a rule allows. -/
def flatten (number : Rule → Nat) (ctx : Context) (atEnd : Bool) : Rule → List Steps
  | .blank => [(#[], 0)]
  | .token t => [(#[ctx.step (number (.token t))], 0)]
  | .ref n => [(#[ctx.step (number (.ref n))], 0)]
  | .seq rs => flattenSeq number ctx atEnd rs
  | .choice rs => flattenChoice number ctx atEnd rs
  | .repeat1 r => flatten number ctx atEnd r
  | .prec level assoc r =>
    let inner := { ctx with
      level := if level = .unset then ctx.level else level
      assoc := if assoc.isSome then assoc else ctx.assoc }
    (flatten number inner atEnd r).map (closeGroup atEnd ctx level assoc)
  | .dynamic n r => (flatten number ctx atEnd r).map fun s => (s.1, strongest s.2 n)
  | .field name r => flatten number { ctx with field := some name } atEnd r
  | .shownAs name named r => flatten number { ctx with shownAs := some (name, named) } atEnd r
  | .anyName r => flatten number { ctx with anyName := true } atEnd r

def flattenSeq (number : Rule → Nat) (ctx : Context) (atEnd : Bool) : List Rule → List Steps
  | [] => [(#[], 0)]
  | [r] => flatten number ctx atEnd r
  | r :: rs =>
    let heads := flatten number ctx false r
    let tails := flattenSeq number ctx atEnd rs
    heads.flatMap fun h => tails.map fun t => (h.1 ++ t.1, strongest h.2 t.2)

def flattenChoice (number : Rule → Nat) (ctx : Context) (atEnd : Bool) : List Rule → List Steps
  | [] => []
  | r :: rs => flatten number ctx atEnd r ++ flattenChoice number ctx atEnd rs

end

end SourceSlices.Syntax
