import SourceSlices.Syntax.Automaton
import SourceSlices.Syntax.Stack

/-!
The parser. All ways to read an ambiguous text are followed side by side. After an error it tries
to add a missing token, to go back to a state in which the next token makes sense, and to skip
tokens; costs decide which of these is kept.
-/
namespace SourceSlices.Syntax

structure Setting (σ : Type) where
  table : Table
  scanner : Scanner σ
  source : Source

structure Session (σ : Type) where
  automaton : Automaton
  stack : Stack σ
  finished : Option (Subtree σ) := none
  accepted : Nat := 0

abbrev Run (σ : Type) := StateM (Session σ)

def maxVersions : Nat := 6
def maxVersionsOverflow : Nat := 4
def maxCostDifference : Nat := 18 * skippedTreeCost

/-- How promising a version is. -/
structure Standing where
  cost : Nat
  count : Nat
  dynamic : Int
  failing : Bool

inductive Comparison where
  | takeLeft
  | preferLeft
  | equal
  | preferRight
  | takeRight

def Standing.compare (a b : Standing) : Comparison :=
  if !a.failing && b.failing then
    if a.cost < b.cost then .takeLeft else .preferLeft
  else if a.failing && !b.failing then
    if b.cost < a.cost then .takeRight else .preferRight
  else if a.cost < b.cost then
    if (b.cost - a.cost) * (1 + a.count) > maxCostDifference then .takeLeft else .preferLeft
  else if b.cost < a.cost then
    if (a.cost - b.cost) * (1 + b.count) > maxCostDifference then .takeRight else .preferRight
  else if a.dynamic > b.dynamic then .preferLeft
  else if b.dynamic > a.dynamic then .preferRight
  else .equal

namespace Run

variable {σ : Type}

def stack : Run σ (Stack σ) := do return (← get).stack

def onStack (f : Stack σ → Stack σ) : Run σ Unit :=
  modify fun ⟨a, s, r, n⟩ => ⟨a, f s, r, n⟩

def onStackGet (f : Stack σ → Stack σ × α) : Run σ α :=
  modifyGet fun ⟨a, s, r, n⟩ => let (s, x) := f s; (x, ⟨a, s, r, n⟩)

def goto (g : Setting σ) (n symbol : Nat) : Run σ Nat :=
  modifyGet fun ⟨a, s, r, k⟩ => let (a, m) := a.goto g.table n symbol; (m, ⟨a, s, r, k⟩)

def actions (g : Setting σ) (n terminal : Nat) : Run σ (List Action) := do
  if terminal < g.table.terminals.size then return (← get).automaton.actions g.table n terminal
  else return []

def merge [DecidableEq σ] (g : Setting σ) (v w : Nat) : Run σ Bool :=
  onStackGet fun s =>
    match s.merge g.table g.source v w with
    | some s => (s, true)
    | none => (s, false)

def push (g : Setting σ) (v : Nat) (tree : Option (Subtree σ)) (state : Nat) : Run σ Unit :=
  onStack fun s => s.push g.table v tree state

def standing (v : Nat) : Run σ Standing :=
  onStackGet fun s =>
    let paused := s.isPaused v
    let (s, count) := s.countSinceError v
    (s, { cost := s.errorCost v + if paused then skippedTreeCost else 0
          count
          dynamic := (s.top v).dynamic
          failing := paused || s.state v = Table.errorState })

/-- The state of a version after the shift of a terminal; 0 if it cannot be shifted. -/
def stateAfter (g : Setting σ) (n terminal : Nat) : Run σ Nat := do
  match (← actions g n terminal).getLast? with
  | some (.shift _) => goto g n terminal
  | some .shiftExtra => return n
  | _ => return 0

/-! ### Tokens -/

def errorLeaf (g : Setting σ) (first start stop : Nat) : Subtree σ :=
  { symbol := g.table.errorSymbol, first, start, stop }

/-- A token of the scanner; an empty one counts only where it leads on. -/
def scanned [DecidableEq σ] (g : Setting σ) (a : Automaton) (state : Nat) (memory : Option σ)
    (advanced failing : Bool) (valid : Bits) (pos : Nat) : Option (Subtree σ) :=
  if valid &&& g.table.externals = 0 then none
  else
    match g.scanner.scan memory (fun i => g.table.externalSymbols[i]?.any valid.has)
        g.source.chars pos with
    | none => none
    | some h =>
      let symbol := g.table.externalSymbols.getD h.token 0
      let changes := h.state ≠ memory
      let extra := match (a.actions g.table state symbol).getLast? with
        | some .shiftExtra => true
        | _ => false
      if h.stop ≤ pos && !changes && (failing || !advanced || extra) then none
      else some { symbol, first := pos, start := h.start, stop := h.stop
                  fromScanner := true, scannerState := h.state, changesState := changes }

/-- The word that was read may be a keyword that is expected here. -/
def asKeyword (g : Setting σ) (a : Automaton) (state : Nat) (m : Match) : Nat × Bool :=
  if some m.token = g.table.word then
    match g.table.keywords[String.ofList (g.source.chars.extract m.start m.stop).toList]? with
    | some k =>
      if a.handles state k || (a.state state).reserves g.table k then (k, true) else (m.token, true)
    | none => (m.token, false)
  else (m.token, false)

def lexLoop [DecidableEq σ] (g : Setting σ) (a : Automaton) (state : Nat) (memory : Option σ)
    (advanced : Bool) (origin : Nat) :
    Nat → Bool → Nat → Option (Nat × Nat) → Subtree σ
  | 0, _, _, _ => errorLeaf g origin origin origin
  | fuel + 1, failing, pos, skipped =>
    let here := a.state (if failing then Table.errorState else state)
    let begin' := if pos = 0 && g.source.chars[0]? = some '\ufeff' then 1 else pos
    match scanned g a state memory advanced failing here.valid begin' with
    | some leaf =>
      match skipped with
      | none => { leaf with first := origin }
      | some (start, stop) => errorLeaf g origin start stop
    | none =>
      match g.table.lex here.sought g.source.chars begin' with
      | .ok m =>
        match skipped with
        | none =>
          let (symbol, keyword) := asKeyword g a state m
          { symbol, first := origin, start := m.start, stop := m.stop, keyword
            extra := symbol = Table.endOfFile }
        | some (start, stop) => errorLeaf g origin start stop
      | .error missed =>
        if !failing then lexLoop g a state memory advanced origin fuel true origin none
        else
          let (start, stop) := skipped.getD (missed.start, missed.start)
          if missed.reached = stop then
            if g.source.size ≤ stop then errorLeaf g origin start stop
            else lexLoop g a state memory advanced origin fuel true (stop + 1) (some (start, stop + 1))
          else lexLoop g a state memory advanced origin fuel true missed.reached
            (some (start, missed.reached))

def lex [DecidableEq σ] (g : Setting σ) (v : Nat) : Run σ (Subtree σ) := do
  let s ← get
  let state := s.stack.state v
  let pos := s.stack.position v
  return lexLoop g s.automaton state (s.stack.version v).scannerState
    (s.stack.advancedSinceError g.source v) pos (2 * g.source.size + 4)
    (state = Table.errorState) pos none

/-! ### Reductions -/

def pushExtras (g : Setting σ) (v : Nat) (extras : Array (Subtree σ)) (state : Nat) : Run σ Unit :=
  extras.forM fun x => push g v (some x) state

/-- Merges a version with one of the first ones, other than a given one. -/
def mergeInto [DecidableEq σ] (g : Setting σ) (except' : Nat) (v : Nat) : List Nat → Run σ Bool
  | [] => return false
  | j :: rest => do
    if j = except' then mergeInto g except' v rest
    else if ← merge g j v then return true
    else mergeInto g except' v rest

/-- Slices that ended at the same place, one after the other. -/
def groupSlices : List (Slice σ) → List (Nat × List (Array (Subtree σ)))
  | [] => []
  | x :: rest =>
    match groupSlices rest with
    | (v, trees) :: groups =>
      if v = x.version then (v, x.trees :: trees) :: groups
      else (x.version, [x.trees]) :: (v, trees) :: groups
    | [] => [(x.version, [x.trees])]

def reduceSlices [DecidableEq σ] (g : Setting σ) (v symbol production : Nat) (dynamic : Int)
    (halted : Nat) : Nat → List (Nat × List (Array (Subtree σ))) → Run σ Unit
  | _, [] => return ()
  | removed, (version, ways) :: rest => do
    let version := version - removed
    if version > maxVersions + maxVersionsOverflow + halted then
      onStack (·.remove version)
      reduceSlices g v symbol production dynamic halted (removed + 1) rest
    else
      let pos := (← stack).position version
      let made := ways.map fun trees =>
        let (children, extras) := Subtree.splitTrailingExtras trees
        (Subtree.node g.table g.source symbol children (some production) pos 0, extras)
      let better (best other : Subtree σ × Array (Subtree σ)) : Subtree σ × Array (Subtree σ) :=
        if best.1.replaces other.1 then other else best
      let (parent, extras) := match made with
        | [] => (Subtree.node g.table g.source symbol #[] (some production) pos 0, #[])
        | first :: others => others.foldl better first
      let next ← goto g ((← stack).state version) symbol
      push g version (some { parent with dynamic := parent.dynamic + dynamic }) next
      pushExtras g version extras next
      let merged ← mergeInto g v version (List.range version)
      reduceSlices g v symbol production dynamic halted (if merged then removed + 1 else removed) rest

/-- Reduces by a production; the number of the first version made by it. -/
def reduce [DecidableEq σ] (g : Setting σ) (v production : Nat) : Run σ (Option Nat) := do
  let p := g.table.productions.getD production default
  let before := (← stack).count
  let slices ← onStackGet fun s => s.popCount v p.steps.size
  let halted := (← stack).haltedCount
  reduceSlices g v (g.table.symbolOf p.lhs) production p.dynamic halted 0 (groupSlices slices.toList)
  return if (← stack).count > before then some before else none

def shift (g : Setting σ) (v state : Nat) (lookahead : Subtree σ) (extra : Bool) : Run σ Unit := do
  push g v (some { lookahead with extra }) state
  if lookahead.fromScanner then
    onStack (·.modify v ({ · with scannerState := lookahead.scannerState }))

/-- Takes the trees of a version as the whole text. -/
def acceptSlice (g : Setting σ) (slice : Slice σ) : Run σ Unit := do
  let trees := slice.trees.toList
  let after := (trees.reverse.takeWhile (·.extra)).reverse
  match (trees.reverse.dropWhile (·.extra)) with
  | [] => return ()
  | last :: before =>
    let children := (before.reverse ++ last.children.toList ++ after).toArray
    let root := Subtree.node g.table g.source last.symbol children last.production last.first 0
    modify fun s => { s with
      accepted := s.accepted + 1
      finished := match s.finished with
        | some old => if old.replaces root then some root else some old
        | none => some root }

def accept (g : Setting σ) (v : Nat) (lookahead : Subtree σ) : Run σ Unit := do
  push g v (some { lookahead with extra := true }) Table.startState
  let slices ← onStackGet (·.popAll v)
  slices.forM (acceptSlice g)
  match slices[0]? with
  | some x => onStack (·.remove x.version)
  | none => pure ()
  onStack (·.halt v)

/-! ### Recovery -/

/-- Whether going on at a cost would be worse than some other version. -/
def betterExists [DecidableEq σ] (v : Nat) (failing : Bool) (cost : Nat) : Run σ Bool := do
  match (← get).finished with
  | some tree => if tree.errorCost ≤ cost then return true
  | none => pure ()
  let pos := (← stack).position v
  let count ← onStackGet (·.countSinceError v)
  let mine : Standing := ⟨cost, count, ((← stack).top v).dynamic, failing⟩
  let rec go : List Nat → Run σ Bool
    | [] => return false
    | i :: rest => do
      let s ← stack
      if i = v || !s.isActive i || s.position i < pos then go rest
      else
        match mine.compare (← standing i) with
        | .takeRight => return true
        | .preferRight => if (← stack).canMerge i v then return true else go rest
        | _ => go rest
  go (List.range (← stack).count)

def addReduce (t : Table) (known : Array Nat) (p : Nat) : Array Nat :=
  let x := t.productions.getD p default
  if x.steps.isEmpty || known.any (fun q =>
    let y := t.productions.getD q default
    y.lhs = x.lhs && y.steps.size = x.steps.size) then known
  else known.push p

/-- The reductions possible over some terminals, and whether one of these can be shifted. -/
def possible (g : Setting σ) (state : Nat) (terminals : List Nat) : Run σ (Bool × Array Nat) := do
  let a := (← get).automaton
  return terminals.foldl (fun (acc : Bool × Array Nat) terminal =>
    if (a.state state).valid.has terminal then
      (a.actions g.table state terminal).foldl (fun acc action =>
        match action with
        | .shift false => (true, acc.2)
        | .recover => (true, acc.2)
        | .reduce p => (acc.1, addReduce g.table acc.2 p)
        | _ => acc) acc
    else acc) (false, #[])

def reduceEach [DecidableEq σ] (g : Setting σ) (v : Nat) : List Nat → Option Nat → Run σ (Option Nat)
  | [], last => return last
  | p :: rest, _ => do reduceEach g v rest (← reduce g v p)

/-- Makes all reductions that some terminal would allow (or the given one), as new versions. -/
def reduceAll [DecidableEq σ] (g : Setting σ) (start : Nat) (lookahead : Option Nat) (before : Nat) :
    Nat → Nat → Nat → Bool → Run σ Bool
  | 0, _, _, can => return can
  | fuel + 1, i, v, can => do
    let count := (← stack).count
    if v ≥ count then return can
    else if ← mergeInto g count v ((List.range v).filter (before ≤ ·)) then
      reduceAll g start lookahead before fuel (i + 1) v can
    else
      let terminals := match lookahead with
        | some x => [x]
        | none => (List.range g.table.terminals.size).drop 1
      let (canShift, reductions) ← possible g ((← stack).state v) terminals
      let made ← reduceEach g v reductions.toList none
      let next := if v = start then count else v + 1
      if canShift then reduceAll g start lookahead before fuel (i + 1) next true
      else
        match made with
        | some w =>
          if i < maxVersions then
            onStack (·.renumber w v)
            reduceAll g start lookahead before fuel (i + 1) v can
          else
            if lookahead.isSome then onStack (·.remove v)
            reduceAll g start lookahead before fuel (i + 1) next can
        | none =>
          if lookahead.isSome then onStack (·.remove v)
          reduceAll g start lookahead before fuel (i + 1) next can

def allReductions [DecidableEq σ] (g : Setting σ) (v : Nat) (lookahead : Nat) : Run σ Bool := do
  reduceAll g v (if lookahead = 0 then none else some lookahead) (← stack).count 1000 0 v false

/-- Tries to go on as if one token had been there. -/
def insertMissing [DecidableEq σ] (g : Setting σ) (v lookahead : Nat) : List Nat → Run σ Bool
  | [] => return false
  | terminal :: rest => do
    let state := (← stack).state v
    if !((← get).automaton.state state).shiftable.has terminal then
      insertMissing g v lookahead rest
    else
      let after ← stateAfter g state terminal
      let reduces := match (← actions g after lookahead).head? with
        | some (.reduce _) => true
        | _ => false
      if after = 0 || after = state || !reduces then insertMissing g v lookahead rest
      else
        let w := (← stack).count
        let pos := (← stack).position v
        onStack (·.copy v)
        let leaf : Subtree σ := { symbol := terminal, first := pos, start := pos, stop := pos
                                  missing := true, errorCost := missingCost + recoveryCost }
        push g w (some leaf) after
        if ← allReductions g w lookahead then return true
        insertMissing g v lookahead rest

def openErrors [DecidableEq σ] (g : Setting σ) (lookahead : Nat) :
    List Nat → Bool → Run σ Unit
  | [], _ => return ()
  | v :: rest, inserted => do
    let inserted ← if inserted then pure true
      else insertMissing g v lookahead ((List.range g.table.terminals.size).drop 1)
    push g v none Table.errorState
    openErrors g lookahead rest inserted

/-- Wraps what was read since a state into an error and goes on from that state. -/
def recoverSlices (g : Setting σ) (goal : Nat) : Option Nat → List (Slice σ) → Run σ Bool
  | previous, [] => return previous.isSome
  | previous, x :: rest => do
    if some x.version = previous then recoverSlices g goal previous rest
    else if (← stack).state x.version ≠ goal then
      onStack (·.halt x.version)
      recoverSlices g goal previous rest
    else
      let popped ← onStackGet fun s => s.popError g.table x.version
      let trees := ((popped[0]?).map (·.children)).getD #[] ++ x.trees
      let (trees, extras) := Subtree.splitTrailingExtras trees
      if !trees.isEmpty then
        let error := Subtree.node g.table g.source g.table.errorSymbol trees none 0 0
        push g x.version (some { error with extra := true }) goal
      pushExtras g x.version extras goal
      recoverSlices g goal (some x.version) rest

def recoverTo (g : Setting σ) (v depth goal : Nat) : Run σ Bool := do
  let slices ← onStackGet (·.popCount v depth)
  recoverSlices g goal none slices.toList

/-- Looks for a state below the error in which the token makes sense. -/
def recoverBelow [DecidableEq σ] (g : Setting σ) (v before count cost : Nat) (lookahead : Nat) :
    List Mark → Run σ Bool
  | [] => return false
  | m :: rest => do
    let s ← stack
    let pos := s.position v
    if m.state = Table.errorState || m.position = pos then
      recoverBelow g v before count cost lookahead rest
    else if (List.range before).any fun j => s.state j = m.state && s.position j = pos then
      recoverBelow g v before count cost lookahead rest
    else
      let newCost := cost + m.depth * skippedTreeCost +
        (g.source.byteAt pos - g.source.byteAt m.position) * skippedCharCost +
        (g.source.rowAt pos - g.source.rowAt m.position) * skippedLineCost
      if ← betterExists v false newCost then return false
      if (← get).automaton.handles m.state lookahead then
        if ← recoverTo g v (if count > 0 then m.depth + 1 else m.depth) m.state then return true
      recoverBelow g v before count cost lookahead rest

def removeInactive : Nat → Nat → Run σ Unit
  | 0, _ => return ()
  | fuel + 1, v => do
    let s ← stack
    if v < s.count then
      if s.isActive v then removeInactive fuel (v + 1)
      else
        onStack (·.remove v)
        removeInactive fuel v

/-- Adds a token to the skipped ones. -/
def skip (g : Setting σ) (v count : Nat) (lookahead : Subtree σ) : Run σ Unit := do
  let lookahead := if g.table.extras.has lookahead.symbol then { lookahead with extra := true }
    else lookahead
  let wrap (trees : Array (Subtree σ)) : Subtree σ :=
    Subtree.node g.table g.source g.table.skippedSymbol trees none 0 0
  let mut skipped := wrap #[lookahead]
  if count > 0 then
    let slices ← onStackGet (·.popCount v 1)
    match slices[0]? with
    | none => pure ()
    | some x =>
      if slices.size > 1 then
        onStack fun s => { s with versions := s.versions.extract 0 (x.version + 1) }
      onStack (·.renumber x.version v)
      skipped := wrap (x.trees.push skipped)
  push g v (some skipped) Table.errorState
  if lookahead.fromScanner then
    onStack (·.modify v ({ · with scannerState := lookahead.scannerState }))

/-- Goes on in the error state. -/
def recover [DecidableEq σ] (g : Setting σ) (v : Nat) (lookahead : Subtree σ) : Run σ Unit := do
  let before := (← stack).count
  let count ← onStackGet (·.countSinceError v)
  let cost := (← stack).errorCost v
  let didRecover ← match ((← stack).version v).summary with
    | some marks =>
      if lookahead.isError g.table then pure false
      else recoverBelow g v before count cost lookahead.symbol marks.toList
    | none => pure false
  removeInactive ((← stack).count + 1) before
  if lookahead.symbol = Table.endOfFile then
    let pos := (← stack).position v
    push g v (some (Subtree.node g.table g.source g.table.errorSymbol #[] none pos 0)) Table.startState
    accept g v lookahead
  else if didRecover && ((← stack).count > maxVersions || lookahead.changesState) then
    onStack (·.halt v)
  else
    let newCost := cost + skippedTreeCost + lookahead.width g.source * skippedCharCost +
      lookahead.height g.source * skippedLineCost
    if ← betterExists v false newCost then onStack (·.halt v)
    else skip g v count lookahead

def mergeMany [DecidableEq σ] (g : Setting σ) (v w : Nat) : Nat → Run σ Unit
  | 0 => return ()
  | n + 1 => do
    discard (merge g v w)
    mergeMany g v w n

def handleError [DecidableEq σ] (g : Setting σ) (v : Nat) (lookahead : Subtree σ) : Run σ Unit := do
  let before := (← stack).count
  discard (allReductions g v 0)
  let count := (← stack).count
  openErrors g lookahead.symbol (v :: (List.range count).drop before) false
  mergeMany g v before (count - before)
  onStack (·.recordSummary v)
  recover g v lookahead

/-! ### The loop -/

/-- Performs actions up to the first shift; the last version that a reduction made. -/
def perform [DecidableEq σ] (g : Setting σ) (v state : Nat) (lookahead : Subtree σ) :
    List Action → Bool → Option Nat → Run σ (Option (Bool × Option Nat))
  | [], reduced, last => return some (reduced, last)
  | .shift true :: rest, reduced, last => perform g v state lookahead rest reduced last
  | .shift false :: _, _, _ => do
    shift g v (← goto g state lookahead.symbol) lookahead false
    return none
  | .shiftExtra :: _, _, _ => do
    shift g v state lookahead true
    return none
  | .reduce p :: rest, _, last => do
    let made ← reduce g v p
    perform g v state lookahead rest true (if made.isSome then made else last)
  | .accept :: _, _, _ => do
    accept g v lookahead
    return none
  | .recover :: _, _, _ => do
    recover g v lookahead
    return none

def settleToken [DecidableEq σ] (g : Setting σ) (v : Nat) : Nat → Subtree σ → Run σ Unit
  | 0, _ => onStack (·.halt v)
  | fuel + 1, lookahead => do
    let state := (← stack).state v
    let todo ← actions g state lookahead.symbol
    match ← perform g v state lookahead todo false none with
    | none => return ()
    | some (_, some w) =>
      onStack (·.renumber w v)
      settleToken g v fuel lookahead
    | some (true, none) => onStack (·.halt v)
    | some (false, none) =>
      let word := g.table.word.getD 0
      if lookahead.keyword && lookahead.symbol ≠ word &&
        !((← get).automaton.state state).reserves g.table lookahead.symbol &&
        (← get).automaton.handles state word
      then settleToken g v fuel { lookahead with symbol := word }
      else if state = Table.errorState then recover g v lookahead
      else onStack fun s => s.modify v fun h =>
        { h with status := .paused lookahead, countAtError := (s.nodeAt h.node).nodeCount }

def advance [DecidableEq σ] (g : Setting σ) (v : Nat) : Run σ Unit := do
  settleToken g v 100000 (← lex g v)

/-- Compares a version with those before it, drops the worse and merges the equal ones. -/
def compareBefore [DecidableEq σ] (g : Setting σ) (mine : Standing) : Nat → Nat → Nat → Run σ Nat
  | 0, i, _ => return i + 1
  | fuel + 1, i, j => do
    if j ≥ i then return i + 1
    else
      match (← standing j).compare mine with
      | .takeLeft =>
        onStack (·.remove i)
        return i
      | .preferLeft | .equal =>
        if ← merge g j i then return i else compareBefore g mine fuel i (j + 1)
      | .preferRight =>
        if ← merge g j i then return i
        else
          onStack (·.swap i j)
          compareBefore g mine fuel i (j + 1)
      | .takeRight =>
        onStack (·.remove j)
        compareBefore g mine fuel (i - 1) j

def condenseFrom [DecidableEq σ] (g : Setting σ) : Nat → Nat → Option Nat → Run σ (Option Nat)
  | 0, _, least => return least
  | fuel + 1, i, least => do
    let s ← stack
    if i ≥ s.count then return least
    else if s.isHalted i then
      onStack (·.remove i)
      condenseFrom g fuel i least
    else
      let mine ← standing i
      let least := if mine.failing then least
        else some (match least with
          | some c => min c mine.cost
          | none => mine.cost)
      let next ← compareBefore g mine (s.count + 1) i 0
      condenseFrom g fuel next least

/-- Resumes the best version if it waits after an error, and drops the others that wait. -/
def resume [DecidableEq σ] (g : Setting σ) : Nat → Nat → Nat → Bool → Option Nat → Run σ (Option Nat)
  | 0, _, _, _, least => return least
  | fuel + 1, i, n, going, least => do
    if i ≥ n then return least
    else
      match ((← stack).version i).status with
      | .paused lookahead =>
        if !going && (← get).accepted < maxVersions then
          let cost := (← stack).errorCost i
          onStack (·.modify i ({ · with status := .active }))
          handleError g i lookahead
          resume g fuel (i + 1) n true (some cost)
        else
          onStack (·.remove i)
          resume g fuel i (n - 1) going least
      | _ => resume g fuel (i + 1) n true least

def condense [DecidableEq σ] (g : Setting σ) : Run σ (Option Nat) := do
  let least ← condenseFrom g (2 * (← stack).count + 2) 0 none
  onStack fun s => { s with versions := s.versions.extract 0 maxVersions }
  let n := (← stack).count
  resume g (n + 1) 0 n false least

/-- Advances a version until it has got beyond the others. -/
def advanceVersion [DecidableEq σ] (g : Setting σ) (v : Nat) : Nat → Nat → Run σ Nat
  | 0, last => return last
  | fuel + 1, last => do
    if (← stack).isActive v && v < (← stack).count then
      advance g v
      let pos := (← stack).position v
      if pos > last || (v > 0 && pos = last) then return pos
      else advanceVersion g v fuel last
    else return last

def advanceAll [DecidableEq σ] (g : Setting σ) : Nat → Nat → Nat → Run σ Nat
  | 0, _, last => return last
  | fuel + 1, v, last => do
    if v < (← stack).count then
      let last ← advanceVersion g v 100000 last
      advanceAll g fuel (v + 1) last
    else return last

def loop [DecidableEq σ] (g : Setting σ) : Nat → Nat → Run σ Unit
  | 0, _ => return ()
  | fuel + 1, last => do
    let last ← advanceAll g 64 0 last
    let least ← condense g
    let done := match (← get).finished, least with
      | some tree, some cost => tree.errorCost < cost
      | some _, none => true
      | none, _ => false
    if done || (← stack).count = 0 then return ()
    else loop g fuel last

end Run

/-- The tree of a text by an automaton. -/
def parse [DecidableEq σ] (g : Setting σ) (a : Automaton) : Subtree σ :=
  let session : Session σ :=
    { automaton := a, stack := .initial Table.startState }
  let (_, session) := (Run.loop g (20 * (g.source.size + 100)) 0).run session
  session.finished.getD (Subtree.node g.table g.source g.table.errorSymbol #[] none 0 0)

end SourceSlices.Syntax
