import SourceSlices.Syntax.Table

/-!
The LR(1) automaton of a grammar, with states made as the parser reaches them. State 0 stands for
recovery from an error and state 1 for the beginning of the text.
-/
namespace SourceSlices.Syntax

/-- A production, how much of it has been seen, and the terminals that may follow it. -/
structure Item where
  production : Nat
  dot : Nat
  look : Bits
  deriving BEq, Inhabited

instance : Hashable Item :=
  ⟨fun i => mixHash (i.production * 1024 + i.dot).toUInt64 i.look.toUInt64⟩

structure LrState where
  kernel : Array Item := #[]
  /-- Nonterminals that can begin here, with the terminals that may follow them. -/
  reached : Array (Nat × Bits) := #[]
  completed : Array Item := #[]
  shiftable : Bits := 0
  valid : Bits := 0
  /-- Terminals whose patterns are looked for. -/
  sought : Bits := 0
  /-- The hidden symbol that a single part is turned into, when nothing else can happen. -/
  passes : Option Nat := none
  deriving Inhabited

/-- Whether a keyword may not be read as a name here: names are valid, but not any name. -/
def LrState.reserves (s : LrState) (t : Table) (keyword : Nat) : Bool :=
  t.reserved.has keyword && (t.word.any s.valid.has) && !s.valid.has t.terminals.size

inductive Action where
  | shift (repetition : Bool)
  | shiftExtra
  | reduce (production : Nat)
  | accept
  | recover
  deriving DecidableEq

structure Automaton where
  states : Array LrState
  numbers : Std.HashMap (Array Item) Nat := ∅
  gotos : Std.HashMap (Nat × Nat) Nat := ∅

namespace Table

def errorState : Nat := 0
def startState : Nat := 1

def stepOf (t : Table) (i : Item) : Option Step :=
  (t.productions[i.production]?).bind (·.steps[i.dot]?)

/-- The step before the dot, whose level and associativity decide conflicts. -/
def previousOf (t : Table) (i : Item) : Option Step :=
  if i.dot = 0 then none else t.stepOf { i with dot := i.dot - 1 }

def lhsOf (t : Table) (production : Nat) : Nat := (t.productions.getD production default).lhs

/-- Terminals after the step at the dot. -/
def lookAfter (t : Table) (i : Item) : Bits :=
  match t.stepOf { i with dot := i.dot + 1 } with
  | some s => t.firstOf s
  | none => i.look

/-- Follows the edges between nonterminals until no look-ahead grows. -/
def spread (t : Table) : Nat → Array Bits → List Nat → Array Bits
  | 0, looks, _ => looks
  | _, looks, [] => looks
  | fuel + 1, looks, nt :: queue =>
    let mine := looks.getD nt 0
    let next := (t.edges.getD nt []).foldl (fun (acc : Array Bits × List Nat) e =>
      let old := acc.1.getD e.target 0
      let new := old ||| e.look ||| (if e.inherits then mine else 0)
      if new = old then acc else (acc.1.setIfInBounds e.target new, e.target :: acc.2))
      (looks, queue)
    spread t fuel next.1 next.2

/-- The order of items: by length seen, rule, dynamic level and length. -/
def itemBefore (t : Table) (a b : Item) : Bool :=
  let p := t.productions.getD a.production default
  let q := t.productions.getD b.production default
  if a.dot ≠ b.dot then a.dot < b.dot
  else if p.lhs ≠ q.lhs then p.lhs < q.lhs
  else if p.dynamic ≠ q.dynamic then p.dynamic < q.dynamic
  else if p.steps.size ≠ q.steps.size then p.steps.size < q.steps.size
  else a.production < b.production

/-- Whether a production only stands for its single part, without a node or a name. -/
def passesThrough (t : Table) (i : Item) : Bool :=
  match t.productions[i.production]? with
  | none => false
  | some p =>
    let nt := t.nonTerminals.getD p.lhs default
    i.dot = 1 && i.production ≠ t.goal && p.dynamic = 0 && !nt.visible && !nt.supertype &&
      !t.renamed.getD (t.symbolOf p.lhs) false &&
      match p.steps[0]? with
      | some s => p.steps.size = 1 && s.shownAs.isNone && s.field.isNone &&
        !(match t.nonTerminal? s.symbol with
          | some inner => t.carriesFields.getD inner false
          | none => false)
      | none => false

/-- The state with a given kernel. -/
def stateOf (t : Table) (kernel : Array Item) : LrState :=
  let seeds := kernel.foldl (fun (acc : Array Bits × List Nat) i =>
    match (t.stepOf i).bind fun s => t.nonTerminal? s.symbol with
    | none => acc
    | some nt =>
      (acc.1.modify nt (· ||| t.lookAfter i), if acc.2.contains nt then acc.2 else nt :: acc.2))
    (Array.replicate t.nonTerminals.size 0, [])
  let fuel := t.nonTerminals.size * (t.terminals.size + 1) + kernel.size
  let looks := if seeds.2.isEmpty then #[] else t.spread fuel seeds.1 seeds.2
  let reached := looks.zipIdx.filterMap fun (look, nt) => if look = 0 then none else some (nt, look)
  let empty := reached.flatMap fun (nt, look) =>
    ((t.hollow.getD nt []).map fun p => ⟨p, 0, look⟩).toArray
  let completed := empty ++ kernel.filter fun i => (t.stepOf i).isNone
  let shiftable := kernel.foldl (fun b i =>
    match t.stepOf i with
    | some s => if t.isTerminal s.symbol then b ||| t.firstOf s else b
    | none => b) 0
  let shiftable := reached.foldl (fun b (nt, _) => b ||| t.direct.getD nt 0) shiftable
  let valid := completed.foldl (fun b i => b ||| i.look) shiftable ||| t.extras
  { kernel, reached, completed, shiftable, valid
    sought := valid
    passes :=
      match completed[0]? with
      | some i =>
        if shiftable = 0 && completed.all fun j =>
          t.passesThrough j && t.lhsOf j.production = t.lhsOf i.production
        then some (t.symbolOf (t.lhsOf i.production)) else none
      | none => none }

/-- The kernel reached over a symbol. -/
def advance (t : Table) (s : LrState) (symbol : Nat) : Array Item :=
  let moved := s.kernel.filterMap fun i =>
    match t.stepOf i with
    | some step => if step.symbol = symbol then some { i with dot := i.dot + 1 } else none
    | none => none
  let begun := s.reached.foldl (fun acc (nt, look) =>
    match t.starting[nt]? with
    | some m => (m.getD symbol []).foldl (fun (acc : Array Item) p => acc.push ⟨p, 1, look⟩) acc
    | none => acc) #[]
  let both := begun.foldl (fun (acc : Array Item) i =>
    match acc.findIdx? fun j => j.production = i.production && j.dot = i.dot with
    | some n => acc.modify n fun j => { j with look := j.look ||| i.look }
    | none => acc.push i) moved
  (both.toList.mergeSort fun a b => !t.itemBefore b a).toArray

def matchesRank (level : Level) (symbols : List String) : Rank → Bool
  | .name n => level == .named n
  | .symbol n => symbols.contains n

/-- Compares two levels in one precedence list. -/
def compareIn (l : Level) (ls : List String) (r : Level) (rs : List String) :
    List Rank → Bool → Bool → Option Ordering
  | [], _, _ => none
  | e :: rest, sawLeft, sawRight =>
    if matchesRank l ls e then
      if sawRight then some .lt else compareIn l ls r rs rest true sawRight
    else if matchesRank r rs e then
      if sawLeft then some .gt else compareIn l ls r rs rest sawLeft true
    else compareIn l ls r rs rest sawLeft sawRight

/-- Numbers are compared as numbers, no level counting as zero; all else by the lists. -/
def compareLevels (t : Table) (l : Level) (ls : List String) (r : Level) (rs : List String) :
    Ordering :=
  let byLists := ((t.precedences.findSome? fun list => compareIn l ls r rs list false false)).getD .eq
  match l, r with
  | .num a, .num b => if a ≠ 0 || b ≠ 0 then compare a b else byLists
  | .num a, .unset => if a ≠ 0 then compare a 0 else byLists
  | .unset, .num b => if b ≠ 0 then compare 0 b else byLists
  | _, _ => byLists

/-- The reductions left for a terminal, with their common level and their associativities. -/
structure Reductions where
  items : Array Item := #[]
  level : Level := .unset
  symbols : List String := []
  left : Bool := false
  right : Bool := false
  neither : Bool := false

def nameOf (t : Table) (production : Nat) : String :=
  (t.nonTerminals.getD (t.lhsOf production) default).name

def Reductions.add (t : Table) (rs : Reductions) (i : Item) : Reductions :=
  let step := t.previousOf i
  let level := (step.map (·.level)).getD .unset
  let name := t.nameOf i.production
  let note (rs : Reductions) (items : Array Item) : Reductions :=
    { rs with
      items, level
      symbols := if rs.symbols.contains name then rs.symbols else name :: rs.symbols
      left := rs.left || (step.bind (·.assoc)) == some .left
      right := rs.right || (step.bind (·.assoc)) == some .right
      neither := rs.neither || (step.bind (·.assoc)).isNone }
  if rs.items.isEmpty then note rs #[i]
  else match t.compareLevels level [name] rs.level rs.symbols with
    | .gt => note {} #[i]
    | .eq => note rs (rs.items.push i)
    | .lt => rs

/-- Whether two productions build the same node. -/
def sameShape (t : Table) (a b : Nat) : Bool :=
  let p := t.productions.getD a default
  let q := t.productions.getD b default
  p.lhs = q.lhs && p.dynamic = q.dynamic && p.steps.map (·.shownAs) == q.steps.map (·.shownAs) &&
    p.steps.map (·.field) == q.steps.map (·.field)

def reduceActions (t : Table) (items : Array Item) : List Action :=
  (items.foldl (fun (acc : List Nat) i =>
    if acc.any (t.sameShape · i.production) then acc else i.production :: acc) []).reverse.map
    fun p => if p = t.goal then .accept else .reduce p

/-- Reductions and a shift over the same terminal, settled by level and then by associativity. -/
def settle (t : Table) (s : LrState) (terminal : Nat) (rs : Reductions) : List Action :=
  let reduces := t.reduceActions rs.items
  if !s.shiftable.has terminal then reduces
  else if rs.items.isEmpty then [.shift false]
  else
    let pending := s.kernel.filter fun i => i.dot > 0 &&
      match t.stepOf i with
      | some step => (t.firstOf step).has terminal
      | none => false
    let finished := s.completed.filter fun i => i.dot > 0 && i.look.has terminal
    let involved := (pending ++ finished).filter (·.production ≠ t.goal)
    let owner := (involved[0]?).map fun i => t.lhsOf i.production
    if involved.all (fun i => some (t.lhsOf i.production) = owner) &&
      (owner.any fun nt => (t.nonTerminals.getD nt default).auxiliary)
    then reduces ++ [.shift true]
    else
      let orders := pending.map fun i =>
        t.compareLevels ((t.previousOf i).elim .unset (·.level)) [t.nameOf i.production]
          rs.level rs.symbols
      let more := orders.contains .gt
      let less := orders.contains .lt
      if more && !less then [.shift false]
      else if less && !more then reduces
      else if !more && !less then
        if rs.left && !rs.neither && !rs.right then reduces
        else if rs.right && !rs.neither && !rs.left then [.shift false]
        else reduces ++ [.shift false]
      else reduces ++ [.shift false]

/-- What can be done in a state over a terminal. -/
def actionsIn (t : Table) (s : LrState) (terminal : Nat) : List Action :=
  let found := t.settle s terminal
    ((s.completed.filter fun i => i.look.has terminal).foldl (Reductions.add t) {})
  if found.isEmpty && t.extras.has terminal then [.shiftExtra] else found

end Table

namespace Automaton

/-- The automaton with its first two states. -/
def initial (t : Table) : Automaton where
  states := #[{ valid := t.allTerminals, sought := t.allTerminals }, t.stateOf #[⟨t.goal, 0, Bits.single Table.endOfFile⟩]]

def state (a : Automaton) (n : Nat) : LrState := a.states.getD n default

/-- The number of the state with a kernel, which is made if need be. -/
def number (t : Table) (a : Automaton) (kernel : Array Item) : Automaton × Nat :=
  match a.numbers[kernel]? with
  | some n => (a, n)
  | none =>
    let n := a.states.size
    ({ a with states := a.states.push (t.stateOf kernel), numbers := a.numbers.insert kernel n }, n)

/-- Follows states that only turn their single part into something hidden. -/
def settleOn (t : Table) (src : LrState) : Nat → Automaton → Nat → Automaton × Nat
  | 0, a, n => (a, n)
  | fuel + 1, a, n =>
    match (a.state n).passes with
    | none => (a, n)
    | some symbol =>
      let kernel := t.advance src symbol
      if kernel.isEmpty then (a, n)
      else
        let (a, m) := number t a kernel
        settleOn t src fuel a m

/-- The state after a symbol; 0 if there is none. -/
def goto (t : Table) (a : Automaton) (n symbol : Nat) : Automaton × Nat :=
  match a.gotos[(n, symbol)]? with
  | some m => (a, m)
  | none =>
    let src := a.state n
    let kernel := t.advance src symbol
    if kernel.isEmpty then (a, 0)
    else
      let (a, m) := number t a kernel
      let (a, m) := settleOn t src t.nonTerminals.size a m
      ({ a with gotos := a.gotos.insert (n, symbol) m }, m)

def actions (t : Table) (a : Automaton) (n terminal : Nat) : List Action :=
  if n = Table.errorState then
    if t.extras.has terminal then [.shiftExtra]
    else if (a.state n).valid.has terminal then [.recover] else []
  else t.actionsIn (a.state n) terminal

/-- Whether a terminal has an action in a state. -/
def handles (a : Automaton) (n terminal : Nat) : Bool := (a.state n).valid.has terminal

end Automaton

end SourceSlices.Syntax
