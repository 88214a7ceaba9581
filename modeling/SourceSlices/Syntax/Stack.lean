import SourceSlices.Syntax.Subtree

/-!
The parser's stack: a graph of nodes on which several versions of the parse live side by side.
Versions that meet in the same state are merged, and popping follows all their ways back.
-/
namespace SourceSlices.Syntax

/-- A way down from a stack node; without a tree it marks where an error was met. -/
structure Link (σ : Type) where
  node : Nat
  tree : Option (Subtree σ)

structure StackNode (σ : Type) where
  state : Nat
  position : Nat
  links : Array (Link σ)
  errorCost : Nat
  nodeCount : Nat
  dynamic : Int

inductive VersionStatus (σ : Type) where
  | active
  | paused (lookahead : Subtree σ)
  | halted

/-- A state below an error: how deep it is, and where its text ends. -/
structure Mark where
  position : Nat
  depth : Nat
  state : Nat

structure Version (σ : Type) where
  node : Nat
  /-- Count of nodes when the last error was met. -/
  countAtError : Nat := 0
  scannerState : Option σ := none
  status : VersionStatus σ := .active
  summary : Option (Array Mark) := none

structure Stack (σ : Type) where
  nodes : Array (StackNode σ)
  versions : Array (Version σ)

/-- Trees popped on one way back, lowest first, and the version made for it. -/
structure Slice (σ : Type) where
  version : Nat
  trees : Array (Subtree σ)

def maxLinks : Nat := 8
def maxPaths : Nat := 64

namespace Stack

variable {σ : Type}

def initial (state : Nat) : Stack σ :=
  ⟨#[⟨state, 0, #[], 0, 0, 0⟩], #[{ node := 0 }]⟩

instance : Inhabited (StackNode σ) := ⟨⟨0, 0, #[], 0, 0, 0⟩⟩
instance : Inhabited (Version σ) := ⟨{ node := 0 }⟩

def nodeAt (s : Stack σ) (n : Nat) : StackNode σ := s.nodes.getD n default
def version (s : Stack σ) (v : Nat) : Version σ := s.versions.getD v default
def top (s : Stack σ) (v : Nat) : StackNode σ := s.nodeAt (s.version v).node
def count (s : Stack σ) : Nat := s.versions.size
def state (s : Stack σ) (v : Nat) : Nat := (s.top v).state
def position (s : Stack σ) (v : Nat) : Nat := (s.top v).position

def isActive (s : Stack σ) (v : Nat) : Bool :=
  match (s.version v).status with
  | .active => true
  | _ => false

def isPaused (s : Stack σ) (v : Nat) : Bool :=
  match (s.version v).status with
  | .paused _ => true
  | _ => false

def isHalted (s : Stack σ) (v : Nat) : Bool :=
  match (s.version v).status with
  | .halted => true
  | _ => false

def haltedCount (s : Stack σ) : Nat := ((List.range s.count).filter s.isHalted).length

def modify (s : Stack σ) (v : Nat) (f : Version σ → Version σ) : Stack σ :=
  { s with versions := s.versions.modify v f }

def halt (s : Stack σ) (v : Nat) : Stack σ := s.modify v ({ · with status := .halted })

def remove (s : Stack σ) (v : Nat) : Stack σ := { s with versions := s.versions.eraseIdxIfInBounds v }

def swap (s : Stack σ) (v w : Nat) : Stack σ :=
  { s with versions := s.versions.swapIfInBounds v w }

/-- Puts one version in the place of another. -/
def renumber (s : Stack σ) (v w : Nat) : Stack σ :=
  if v = w then s
  else
    let source := s.version v
    let target := s.version w
    let source := if source.summary.isNone then { source with summary := target.summary } else source
    { s with versions := (s.versions.setIfInBounds w source).eraseIdxIfInBounds v }

/-- A copy of a version; its number is the count before. -/
def copy (s : Stack σ) (v : Nat) : Stack σ :=
  { s with versions := s.versions.push { s.version v with summary := none } }

def push (t : Table) (s : Stack σ) (v : Nat) (tree : Option (Subtree σ)) (state : Nat) : Stack σ :=
  let below := s.version v
  let old := s.nodeAt below.node
  let node : StackNode σ :=
    match tree with
    | none => { old with state, links := #[⟨below.node, none⟩] }
    | some x =>
      { state
        position := max old.position x.stop
        links := #[⟨below.node, some x⟩]
        errorCost := old.errorCost + x.errorCost
        nodeCount := old.nodeCount + x.nodeCount t
        dynamic := old.dynamic + x.dynamic }
  let n := s.nodes.size
  { nodes := s.nodes.push node
    versions := s.versions.modify v fun h =>
      { h with node := n, countAtError := if tree.isNone then node.nodeCount else h.countAtError } }

def errorCost (s : Stack σ) (v : Nat) : Nat :=
  let node := s.top v
  let open' := node.state = 0 && (node.links[0]?).any (·.tree.isNone)
  node.errorCost + if s.isPaused v || open' then recoveryCost else 0

/-- Nodes since the last error; a version that has fallen back behind it starts anew. -/
def countSinceError (s : Stack σ) (v : Nat) : Stack σ × Nat :=
  let n := (s.top v).nodeCount
  if n < (s.version v).countAtError then (s.modify v ({ · with countAtError := n }), 0)
  else (s, n - (s.version v).countAtError)

/-- Whether anything was read since the last error. -/
def advancedSinceError (src : Source) (s : Stack σ) (v : Nat) : Bool :=
  let rec go : Nat → Nat → Bool
    | 0, _ => false
    | fuel + 1, n =>
      let node := s.nodeAt n
      match node.links[0]? with
      | none => false
      | some link =>
        match link.tree with
        | none => false
        | some tree =>
          if tree.width src > 0 then true
          else if node.nodeCount > (s.version v).countAtError && tree.errorCost = 0 then
            go fuel link.node
          else false
  if (s.top v).errorCost = 0 then true else go s.nodes.size (s.version v).node

/-- Adds a way down to a node, joined with an equivalent one if there is one. -/
def addLink [DecidableEq σ] (t : Table) (src : Source) :
    Nat → Array (StackNode σ) → Nat → Link σ → Array (StackNode σ)
  | 0, nodes, _, _ => nodes
  | fuel + 1, nodes, n, link =>
    if link.node = n then nodes
    else
      let self : StackNode σ := nodes.getD n default
      let gain := (link.tree.map (·.dynamic)).getD 0
      let target : StackNode σ := nodes.getD link.node default
      let same (old : Link σ) : Bool :=
        match old.tree, link.tree with
        | none, none => true
        | some a, some b => a.equivalent src b
        | _, _ => false
      let joins (old : Link σ) : Bool :=
        let below : StackNode σ := nodes.getD old.node default
        same old && (old.node = link.node ||
          (below.state = target.state && below.position = target.position &&
            below.errorCost = target.errorCost))
      match self.links.findIdx? joins with
      | some i =>
        match self.links[i]? with
        | none => nodes
        | some old =>
          if old.node = link.node then
            if gain > (old.tree.map (·.dynamic)).getD 0 then
              nodes.setIfInBounds n { self with
                links := self.links.setIfInBounds i { old with tree := link.tree }
                dynamic := target.dynamic + gain }
            else nodes
          else
            let nodes := target.links.foldl (fun ns l => addLink t src fuel ns old.node l) nodes
            nodes.modify n fun x => { x with dynamic := max x.dynamic (target.dynamic + gain) }
      | none =>
        if self.links.size = maxLinks then nodes
        else
          let added := (link.tree.map (·.nodeCount t)).getD 0
          nodes.setIfInBounds n { self with
            links := self.links.push link
            nodeCount := max self.nodeCount (target.nodeCount + added)
            dynamic := max self.dynamic (target.dynamic + gain) }

def canMerge [DecidableEq σ] (s : Stack σ) (v w : Nat) : Bool :=
  let a := s.top v
  let b := s.top w
  s.isActive v && s.isActive w && a.state = b.state && a.position = b.position &&
    a.errorCost = b.errorCost && (s.version v).scannerState = (s.version w).scannerState

/-- Merges the second version into the first one, if they agree. -/
def merge [DecidableEq σ] (t : Table) (src : Source) (s : Stack σ) (v w : Nat) : Option (Stack σ) :=
  if s.canMerge v w then
    let target := (s.version v).node
    let nodes := (s.top w).links.foldl
      (fun ns l => addLink t src (s.nodes.size + 1) ns target l) s.nodes
    let merged : StackNode σ := nodes.getD target default
    let s : Stack σ := { s with nodes }
    let s := if merged.state = 0 then s.modify v ({ · with countAtError := merged.nodeCount }) else s
    some (s.remove w)
  else none

/-- A way down that is still being followed; its trees are collected from the top. -/
structure Path (σ : Type) where
  node : Nat
  trees : List (Subtree σ) := []
  depth : Nat := 0

/-- What a visit of a path decides. -/
structure Verdict where
  pops : Bool
  stops : Bool

structure Round (σ α : Type) where
  memory : α
  kept : Array (Path σ) := #[]
  added : Array (Path σ) := #[]
  popped : Array (Nat × List (Subtree σ))
  live : Nat

def Path.follow (p : Path σ) (l : Link σ) : Path σ :=
  match l.tree with
  | none => { p with node := l.node, depth := p.depth + 1 }
  | some x => ⟨l.node, x :: p.trees, if x.extra then p.depth else p.depth + 1⟩

def visitPath (s : Stack σ) (visit : α → Path σ → α × Verdict) (r : Round σ α) (p : Path σ) :
    Round σ α :=
  let (memory, verdict) := visit r.memory p
  let node := s.nodeAt p.node
  let popped := if verdict.pops then r.popped.push (p.node, p.trees) else r.popped
  match node.links[0]? with
  | none => { r with memory, popped, live := r.live - 1 }
  | some link =>
    if verdict.stops then { r with memory, popped, live := r.live - 1 }
    else
      let others := (node.links.extract 1 node.links.size).extract 0 (maxPaths - r.live)
      { memory, popped
        kept := r.kept.push (p.follow link)
        added := r.added ++ others.map p.follow
        live := r.live + others.size }

/-- Follows all ways down from a version. -/
def walkRounds (s : Stack σ) (visit : α → Path σ → α × Verdict) :
    Nat → α → Array (Path σ) → Array (Nat × List (Subtree σ)) → α × Array (Nat × List (Subtree σ))
  | 0, memory, _, popped => (memory, popped)
  | fuel + 1, memory, paths, popped =>
    if paths.isEmpty then (memory, popped)
    else
      let r := paths.foldl (visitPath s visit) ⟨memory, #[], #[], popped, paths.size⟩
      walkRounds s visit fuel r.memory (r.kept ++ r.added) r.popped

def walk (s : Stack σ) (v : Nat) (visit : α → Path σ → α × Verdict) (memory : α) :
    α × Array (Nat × List (Subtree σ)) :=
  s.walkRounds visit (s.nodes.size + 1) memory #[{ node := (s.version v).node }] #[]

/-- Makes a version for each place where popping ended; equal places share one. -/
def slices (s : Stack σ) (origin : Nat) (popped : Array (Nat × List (Subtree σ))) :
    Stack σ × Array (Slice σ) :=
  popped.foldl (fun (acc : Stack σ × Array (Slice σ)) (node, trees) =>
    let (s, found) := acc
    let trees := trees.toArray
    match (found.toList.zipIdx.reverse.find? fun (x, _) => (s.version x.version).node = node) with
    | some (x, i) =>
      (s, (found.extract 0 (i + 1)).push ⟨x.version, trees⟩ ++ found.extract (i + 1) found.size)
    | none =>
      let old := s.version origin
      let made : Version σ :=
        { node := node, countAtError := old.countAtError, scannerState := old.scannerState }
      ({ s with versions := s.versions.push made }, found.push ⟨s.count, trees⟩)) (s, #[])

/-- Pops trees that are no extras, as many as asked for. -/
def popCount (s : Stack σ) (v n : Nat) : Stack σ × Array (Slice σ) :=
  let (_, popped) := s.walk v (fun _ p =>
    ((), if p.depth = n then ⟨true, true⟩ else ⟨false, false⟩)) ()
  s.slices v popped

def popAll (s : Stack σ) (v : Nat) : Stack σ × Array (Slice σ) :=
  let (_, popped) := s.walk v (fun _ p => ((), ⟨(s.nodeAt p.node).links.isEmpty, false⟩)) ()
  s.slices v popped

/-- Pops an error that lies on top. -/
def popError (t : Table) (s : Stack σ) (v : Nat) : Stack σ × Array (Subtree σ) :=
  if (s.top v).links.any fun l => l.tree.any (·.isError t) then
    let (_, popped) := s.walk v (fun (found : Bool) p =>
      match p.trees.getLast? with
      | none => (found, ⟨false, false⟩)
      | some x => if !found && x.isError t then (true, ⟨true, true⟩) else (found, ⟨false, true⟩)) false
    let (s, found) := s.slices v popped
    match found[0]? with
    | some x => (s.renumber x.version v, x.trees)
    | none => (s, #[])
  else (s, #[])

def maxSummaryDepth : Nat := 16

/-- Notes the states below a version. -/
def recordSummary (s : Stack σ) (v : Nat) : Stack σ :=
  let (marks, _) := s.walk v (fun (marks : Array Mark) p =>
    let node := s.nodeAt p.node
    if p.depth > maxSummaryDepth then (marks, ⟨false, true⟩)
    else
      let known := (marks.toList.reverse.takeWhile (·.depth ≥ p.depth)).any fun m =>
        m.depth = p.depth && m.state = node.state
      (if known then marks else marks.push ⟨node.position, p.depth, node.state⟩, ⟨false, false⟩)) #[]
  s.modify v ({ · with summary := some marks })

end Stack

end SourceSlices.Syntax
