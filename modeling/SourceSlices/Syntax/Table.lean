import SourceSlices.Syntax.Expansion
import Std.Data.HashMap

/-!
The numbered form of a grammar: terminals, productions, first sets, and the token automaton.
Sets of terminals are numbers whose bits are the members.
-/
namespace SourceSlices.Syntax

/-- A set of terminals. -/
abbrev Bits := Nat

def Bits.has (s : Bits) (n : Nat) : Bool := Nat.testBit s n
def Bits.single (n : Nat) : Bits := 1 <<< n

/-- Members of the first set that are not in the second. -/
def Bits.without (a b : Bits) : Bits := a ^^^ (a &&& b)

/-- Adds the members of a single word of a set, whose first bit is given. -/
def Bits.membersOfWord : Nat → Nat → Nat → List Nat → List Nat
  | 0, _, _, rest => rest
  | fuel + 1, word, n, rest =>
    if word = 0 then rest
    else if word % 2 = 1 then n :: membersOfWord fuel (word / 2) (n + 1) rest
    else membersOfWord fuel (word / 2) (n + 1) rest

def Bits.membersFrom : Nat → Bits → Nat → List Nat
  | 0, _, _ => []
  | fuel + 1, s, n => membersOfWord 32 (s % 4294967296) n (membersFrom fuel (s >>> 32) (n + 32))

def Bits.members (s : Bits) : List Nat := membersFrom (s.log2 / 32 + 1) s 0

structure Terminal where
  name : String
  named : Bool
  visible : Bool
  token : TokenRule := default
  isExternal : Bool := false
  deriving Inhabited

structure Production where
  lhs : Nat
  steps : Array Step
  dynamic : Int
  deriving Inhabited

/-- What a nonterminal adds to the look-ahead of another one that begins it. -/
structure Edge where
  target : Nat
  look : Bits
  inherits : Bool
  deriving Inhabited

structure NonTerminal where
  name : String
  visible : Bool
  supertype : Bool
  auxiliary : Bool
  productions : List Nat
  deriving Inhabited

structure Table where
  terminals : Array Terminal
  nonTerminals : Array NonTerminal
  productions : Array Production
  /-- First terminals of each nonterminal. -/
  first : Array Bits
  /-- Terminals that begin a production of the nonterminal itself. -/
  direct : Array Bits
  edges : Array (List Edge)
  /-- Productions of a nonterminal by their first symbol. -/
  starting : Array (Std.HashMap Nat (List Nat))
  /-- Productions of a nonterminal without any step. -/
  hollow : Array (List Nat)
  blanks : CharSet
  extras : Bits
  externals : Bits
  /-- Terminals of the grammar's external tokens, in their order. -/
  externalSymbols : Array Nat
  precedences : List (List Rank)
  word : Option Nat
  keywords : Std.HashMap String Nat
  keywordBits : Bits
  reserved : Bits
  sets : Array CharSet
  follow : Array (List Nat)
  owner : Array Nat
  accepting : Array Bool
  starts : Array (List Nat)
  /-- Symbols that some production renames. -/
  renamed : Array Bool
  /-- Nonterminals without a node whose parts have field names. -/
  carriesFields : Array Bool
  /-- The name of a symbol that every production renames in the same way. -/
  defaultAlias : Array (Option (String × Bool))
  /-- Production of the whole text from the first rule. -/
  goal : Nat
  deriving Inhabited

namespace Table

def endOfFile : Nat := 0

def allTerminals (t : Table) : Bits := Bits.single t.terminals.size - 1

def isTerminal (t : Table) (s : Nat) : Bool := s < t.terminals.size

def nonTerminal? (t : Table) (s : Nat) : Option Nat :=
  if s < t.terminals.size then none else some (s - t.terminals.size)

/-- The symbol of an error, and of skipped text that is still being collected. -/
def errorSymbol (t : Table) : Nat := t.terminals.size + t.nonTerminals.size
def skippedSymbol (t : Table) : Nat := t.errorSymbol + 1

def visible (t : Table) (s : Nat) : Bool :=
  if s = t.errorSymbol then true
  else (t.defaultAlias.getD s none).isSome ||
    match t.nonTerminal? s with
    | none => (t.terminals.getD s default).visible
    | some nt => (t.nonTerminals.getD nt default).visible

/-- Name of a symbol, and whether it is more than a literal. -/
def display (t : Table) (s : Nat) : String × Bool :=
  if s = t.errorSymbol then ("ERROR", true)
  else match t.defaultAlias.getD s none with
    | some a => a
    | none => match t.nonTerminal? s with
      | none => let x := t.terminals.getD s default; (x.name, x.named)
      | some nt => ((t.nonTerminals.getD nt default).name, true)

def symbolOf (t : Table) (nt : Nat) : Nat := nt + t.terminals.size

/-- The terminal of a step; where any name goes, also the bit after all terminals. -/
def stepBits (terminals : Nat) (word : Option Nat) (s : Step) : Bits :=
  if s.anyName && some s.symbol = word then Bits.single s.symbol ||| Bits.single terminals
  else Bits.single s.symbol

/-- Terminals that a step can begin with. -/
def firstOf (t : Table) (s : Step) : Bits :=
  match t.nonTerminal? s.symbol with
  | none => stepBits t.terminals.size t.word s
  | some nt => t.first.getD nt 0

def isHiddenName (name : String) : Bool := name.toList.head? == some '_'

/-- Distinct tokens in order of first use, with the number of uses. -/
def collectTokens (rules : List (String × Rule)) : Array (TokenRule × Nat) :=
  rules.foldl (fun acc r => r.2.tokens.foldl (fun acc t =>
    match acc.findIdx? (·.1 == t) with
    | some i => acc.modify i fun e => (e.1, e.2 + 1)
    | none => acc.push (t, 1)) acc) #[]

/-- The least fixed point of first sets, by a bounded number of rounds. -/
def firstRounds (terminals : Nat) (word : Option Nat) (prods : Array Production) : Nat → Array Bits → Array Bits
  | 0, first => first
  | fuel + 1, first =>
    let (next, changed) := prods.foldl (fun (acc : Array Bits × Bool) p =>
      match p.steps[0]? with
      | none => acc
      | some s =>
        let add := if s.symbol < terminals then stepBits terminals word s
          else acc.1.getD (s.symbol - terminals) 0
        let old := acc.1.getD p.lhs 0
        let new := old ||| add
        if new = old then acc else (acc.1.setIfInBounds p.lhs new, true)) (first, false)
    if changed then firstRounds terminals word prods fuel next else next

/-- Hidden nonterminals with fields inside, by a bounded number of rounds. -/
def fieldRounds (terminals : Nat) (nts : Array NonTerminal) (prods : Array Production) :
    Nat → Array Bool → Array Bool
  | 0, known => known
  | fuel + 1, known =>
    fieldRounds terminals nts prods fuel <| prods.foldl (fun known p =>
      if (nts.getD p.lhs default).visible || known.getD p.lhs false then known
      else if p.steps.any fun s =>
          s.field.isSome || (s.symbol ≥ terminals && known.getD (s.symbol - terminals) false)
      then known.setIfInBounds p.lhs true else known) known

/-- The names that productions give a symbol, without repetition; `none` stands for its own. -/
def namesOf (prods : Array Production) (symbol : Nat) : List (Option (String × Bool)) :=
  prods.foldl (fun seen p => p.steps.foldl (fun seen s =>
    if s.symbol = symbol && !seen.contains s.shownAs then s.shownAs :: seen else seen) seen) []

/-- Adds an edge to a list that has one edge for each target. -/
def addEdge (e : Edge) : List Edge → List Edge
  | [] => [e]
  | x :: rest =>
    if x.target = e.target then ⟨x.target, x.look ||| e.look, x.inherits || e.inherits⟩ :: rest
    else x :: addEdge e rest

def isWordLike (s : String) : Bool := s.toList.all fun c => c.isAlpha || c = '_'

/-- Whether the word token can be spelt by this text; its first and later characters are tried. -/
def matchesWord (sets : Array CharSet) (follow : Array (List Nat)) (accepting : Array Bool) :
    List Nat → List Char → Bool
  | _, [] => false
  | alive, [c] => alive.any fun p => (sets[p]?.any (·.has c)) && accepting.getD p false
  | alive, c :: cs =>
    let next := (alive.filter fun p => sets[p]?.any (·.has c)).flatMap fun p => follow.getD p []
    matchesWord sets follow accepting next cs

def ofGrammar (g : Grammar) : Table := Id.run do
  let tokenUses := collectTokens g.rules
  let wholeTokens : List (String × Nat) := g.rules.zipIdx.filterMap fun (r, i) =>
    match r.2 with
    | .token t =>
      match tokenUses.findIdx? (·.1 == t) with
      | some n => if i ≠ 0 && (tokenUses.getD n default).2 = 1 then some (r.1, n) else none
      | none => none
    | _ => none
  -- lexical terminals
  let lexical : Array Terminal := tokenUses.mapIdx fun n (t, _) =>
    let plain : Terminal := match t.literal with
      | some s => { name := s, named := false, visible := true, token := t }
      | none => { name := "token", named := false, visible := false, token := t }
    match wholeTokens.find? (·.2 = n) with
    | some (name, _) =>
      if isHiddenName name then
        if t.literal.isSome then plain
        else { plain with name := name, named := false, visible := false }
      else { plain with name := name, named := true, visible := true }
    | none => plain
  let wordIndex := g.word.bind fun w => lexical.findIdx? (·.name == w)
  let order : Array Nat := match wordIndex with
    | some w => #[w] ++ ((Array.range lexical.size).filter (· ≠ w))
    | none => Array.range lexical.size
  let eofTerminal : Terminal := { name := "end", named := false, visible := false }
  let isDefined (name : String) : Bool := g.rules.any (·.1 == name)
  let pureExternals := g.externals.filter fun e => !e.literal && !isDefined e.name
  let externalTerminals : Array Terminal := (pureExternals.map fun e =>
    { name := e.name, named := !isHiddenName e.name, visible := !isHiddenName e.name,
      isExternal := true : Terminal }).toArray
  let terminals := #[eofTerminal] ++ order.map (lexical.getD · default) ++ externalTerminals
  let tcount := terminals.size
  let lexNumber : Array Nat := order.zipIdx.foldl (fun a (n, i) => a.setIfInBounds n (i + 1))
    (Array.replicate lexical.size 0)
  -- rules left as nonterminals
  let kept := g.rules.filter fun r =>
    !(wholeTokens.any (·.1 == r.1)) && !(g.inlined.contains r.1)
  let bodies : Std.HashMap String Rule := Std.HashMap.ofList (g.rules.filter fun r =>
    g.inlined.contains r.1)
  let inline1 (r : Rule) : Rule := r.substitute fun n => bodies[n]?
  let inlineAll (r : Rule) : Rule := inline1 (inline1 (inline1 r))
  let mut repeats : Repeats := {}
  let mut expanded : Array (String × Rule × Bool) := #[]
  for r in kept do
    let body := inlineAll r.2
    match body with
    | .repeat1 content =>
      if isHiddenName r.1 then
        let (s, inner) := Repeats.expand r.1 repeats content
        repeats := s
        expanded := expanded.push (r.1, Repeats.binary r.1 inner, true)
      else
        let (s, inner) := Repeats.expand r.1 repeats body
        repeats := s
        expanded := expanded.push (r.1, inner, false)
    | _ =>
      let (s, inner) := Repeats.expand r.1 repeats body
      repeats := s
      expanded := expanded.push (r.1, inner, false)
  let all := expanded ++ repeats.rules.map fun r => (r.1, r.2, true)
  -- symbol numbers by name
  let ruleNumbers : Std.HashMap String Nat :=
    Std.HashMap.ofList (all.toList.zipIdx.map fun (r, i) => (r.1, tcount + i))
  let numbers := wholeTokens.foldl (fun m (name, n) => m.insert name (lexNumber.getD n 0)) ruleNumbers
  let numbers := (terminals.toList.zipIdx.filter fun (t, _) => t.isExternal).foldl
    (fun m (t, i) => m.insert t.name i) numbers
  let literals : Std.HashMap String Nat := Std.HashMap.ofList
    (tokenUses.toList.zipIdx.filterMap fun ((t, _), n) =>
      if t.rank = 0 && !t.immediate then t.literal.map fun s => (s, lexNumber.getD n 0) else none)
  let number : Rule → Nat := fun r => match r with
    | .ref n => (numbers[n]?).getD 0
    | .token t =>
      let byText := if t.rank = 0 && !t.immediate then t.literal.bind fun s => literals[s]? else none
      match byText with
      | some n => n
      | none => match tokenUses.findIdx? (·.1 == t) with
        | some n => lexNumber.getD n 0
        | none => 0
    | _ => 0
  let mut productions : Array Production := #[]
  let mut nonTerminals : Array NonTerminal := #[]
  for (name, body, aux) in all do
    let lhs := nonTerminals.size
    let flat := flatten number {} true body
    let mut mine : Array Production := #[]
    for (steps, dyn) in flat do
      if !(mine.any fun p => p.steps == steps && p.dynamic == dyn) then
        mine := mine.push ⟨lhs, steps, dyn⟩
    let firstId := productions.size
    productions := productions ++ mine
    nonTerminals := nonTerminals.push
      { name := name
        visible := !aux && !isHiddenName name && !g.supertypes.contains name
        supertype := g.supertypes.contains name
        auxiliary := aux
        productions := (List.range mine.size).map (· + firstId) }
  let ncount := nonTerminals.size
  let goal := productions.size
  productions := productions.push ⟨nonTerminals.size, #[{ symbol := tcount }], 0⟩
  let word := wordIndex.map fun _ => 1
  let first := firstRounds tcount word productions (ncount + 2) (Array.replicate ncount 0)
  let firstOf (s : Step) : Bits :=
    if s.symbol < tcount then stepBits tcount word s else first.getD (s.symbol - tcount) 0
  let direct := productions.foldl (fun a p =>
    match p.steps[0]? with
    | some s => if s.symbol < tcount then a.modify p.lhs (· ||| firstOf s) else a
    | none => a) (Array.replicate ncount 0)
  let edges := productions.foldl (fun a p =>
    match p.steps[0]? with
    | some s =>
      if s.symbol < tcount then a
      else
        let e : Edge := match p.steps[1]? with
          | some next => ⟨s.symbol - tcount, firstOf next, false⟩
          | none => ⟨s.symbol - tcount, 0, true⟩
        a.modify p.lhs (addEdge e)
    | none => a) (Array.replicate ncount ([] : List Edge))
  let starting := productions.zipIdx.foldl (fun a (p, i) =>
    match p.steps[0]? with
    | some s => a.modify p.lhs fun m => m.insert s.symbol ((m.getD s.symbol []) ++ [i])
    | none => a) (Array.replicate ncount (∅ : Std.HashMap Nat (List Nat)))
  let hollow := productions.zipIdx.foldl (fun a (p, i) =>
    if p.steps.isEmpty then a.modify p.lhs (· ++ [i]) else a) (Array.replicate ncount ([] : List Nat))
  -- token automaton
  let mut positions : Positions := {}
  let mut owner : Array Nat := #[]
  let mut accepting : Array Bool := #[]
  let mut starts : Array (List Nat) := #[]
  for (t, i) in terminals.zipIdx do
    if i = 0 || t.isExternal then
      starts := starts.push []
    else
      let before := positions.sets.size
      let (ps, ends) := positions.add t.token.pattern
      positions := ps
      starts := starts.push ends.first
      for p in [before:ps.sets.size] do
        owner := owner.push i
        accepting := accepting.push (ends.last.contains p)
  let keywordList : List (String × Nat) := match word with
    | none => []
    | some w => terminals.toList.zipIdx.filterMap fun (t, i) =>
      match t.token.literal with
      | some s =>
        if i ≠ 0 && !t.isExternal && isWordLike s &&
          matchesWord positions.sets positions.follow accepting (starts.getD w []) s.toList
        then some (s, i) else none
      | none => none
  let bitsWhere (p : Terminal → Bool) : Bits := terminals.zipIdx.foldl
    (fun b (t, i) => if i ≠ 0 && p t then b ||| Bits.single i else b) 0
  let extras := bitsWhere fun t => g.extras.contains t.name && (t.named || t.isExternal)
  let aliases := ((Array.range (tcount + ncount)).map fun n =>
    match namesOf productions n with
    | [some name] => some name
    | _ => none)
  return {
    terminals, nonTerminals, productions, first, direct, edges, starting, hollow
    blanks := g.blanks
    extras := extras
    externals := bitsWhere (·.isExternal)
    externalSymbols := (g.externals.map fun e =>
      match numbers[e.name]? with
      | some n => n
      | none => (literals[e.name]?).getD 0).toArray
    precedences := g.precedences
    word := word
    keywords := Std.HashMap.ofList keywordList
    keywordBits := keywordList.foldl (fun b (_, i) => b ||| Bits.single i) 0
    reserved := keywordList.foldl
      (fun b (s, i) => if g.reserved.contains s then b ||| Bits.single i else b) 0
    sets := positions.sets
    follow := positions.follow
    owner, accepting, starts
    renamed := productions.foldl (fun a p => p.steps.foldl (fun a s =>
      if s.shownAs.isSome then a.setIfInBounds s.symbol true else a) a)
      (Array.replicate (tcount + ncount) false)
    carriesFields := fieldRounds tcount nonTerminals productions 4 (Array.replicate ncount false)
    defaultAlias := aliases
    goal }

end Table

end SourceSlices.Syntax
