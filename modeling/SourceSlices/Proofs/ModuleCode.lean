import Mathlib.Data.List.Chain
import SourceSlices.Proofs.LinkedResults
import SourceSlices.Proofs.NestedDefinitions

/-!
The code of a module. Its statements, without the docstring, are cut into pieces that follow each other: a
definition is a piece of its own, and so is a run of statements that define nothing, between two definitions.
Each piece is one chunk before it is split.
-/
namespace SourceSlices.Python

open Syntax Output

/-! ### Pieces of a module -/

/-- A chunk of a module before it is split. -/
def Module.wholeChunk (m : Module) (id kind : String) (start stop : Nat) (parent : Option String)
    (label : String) : Chunk :=
  { Chunk.ofSlice id m.text start stop with
    parentSymbolId := parent
    metadata := ((Metadata.empty.putStr "kind" kind).putStr "qualified_name" label).putLines m.lines start stop }

/-- A run of statements that define nothing, or one definition. -/
inductive Piece
  | code (first : Node) (more : List Node)
  | definition (e : Definition × String)

namespace Piece

def nodes : Piece → List Node
  | code first more => first :: more
  | definition e => [e.1.outer]

def start : Piece → Nat
  | code first _ => first.start
  | definition e => e.1.outer.start

def stop : Piece → Nat
  | code first more => ((first :: more).getLast (List.cons_ne_nil _ _)).stop
  | definition e => e.1.outer.stop

def isCode : Piece → Bool
  | code _ _ => true
  | definition _ => false

/-- Loose code whose statements define no name, or a definition with its name. -/
def Genuine (m : Module) : Piece → Prop
  | code first more => ∀ n ∈ first :: more, m.named? n = none
  | definition e => m.named? e.1.outer = some e

/-- The chunk of a piece before it is split. -/
def whole (m : Module) (s : Scope) : Piece → Chunk
  | code first more =>
    let p := code first more
    m.wholeChunk ("python:module_code:" ++ Module.span p.start p.stop) "module_code" p.start p.stop s.parent
      (s.names.headD "module")
  | definition e =>
    let p := definition e
    let name := Module.qualified s e.2
    m.wholeChunk ("python:" ++ name ++ ":" ++ Module.span p.start p.stop)
      (if e.1.isClass then "class" else "function") p.start p.stop (some (m.symbolId name)) name

/-- What a piece adds to the metadata of its parts. -/
def mark (m : Module) : Piece → Metadata → Metadata
  | code _ _, c => c
  | definition e, c =>
    Module.putList (if m.isAsync e.1 then c.putBool "async" true else c) "decorators" e.1.decorators

/-- The parts of a piece. -/
def parts (m : Module) (s : Scope) (p : Piece) : List Chunk :=
  (Split.chunk m.count m.budget (some m.lines) (p.whole m s)).map fun c =>
    { c with metadata := p.mark m c.metadata }

/-- The chunks of what stands in a piece. -/
def inner (m : Module) (s : Scope) : Piece → List Chunk
  | code _ _ => []
  | definition e => e.1.statements.flatMap fun k => (m.visit (m.inside s e.2) k).chunks

/-- What a module has of a piece. -/
def output (m : Module) (s : Scope) : Piece → Output
  | p@(code _ _) => m.looseCode s (some (p.start, p.stop))
  | definition e => m.visit s e.1.outer

end Piece

namespace Module

variable {m : Module} {s : Scope} {e : Definition × String}

def closed : List Node → List Piece
  | [] => []
  | first :: more => [.code first more]

/-- The pieces of some statements behind a run that is still open. -/
def cut (m : Module) : List Node → List Node → List Piece
  | run, [] => closed run
  | run, n :: rest =>
    match m.named? n with
    | none => m.cut (run ++ [n]) rest
    | some e => closed run ++ .definition e :: m.cut [] rest

theorem nodes_closed (run : List Node) : (closed run).flatMap Piece.nodes = run := by
  cases run with
  | nil => rfl
  | cons first more => exact List.append_nil _

theorem nodes_cut (m : Module) (run l : List Node) : (m.cut run l).flatMap Piece.nodes = run ++ l := by
  induction l generalizing run with
  | nil => rw [cut, nodes_closed, List.append_nil]
  | cons n rest ih =>
    rw [cut]
    split
    · rw [ih, List.append_assoc, List.singleton_append]
    · rename_i e found
      obtain ⟨outer, -⟩ := definition?_eq_some (named?_eq_some.1 found).1
      rw [List.flatMap_append, nodes_closed, List.flatMap_cons, ih, Piece.nodes, outer]
      rfl

theorem genuine_closed {run : List Node} (loose : ∀ n ∈ run, m.named? n = none) :
    ∀ p ∈ closed run, p.Genuine m := by
  cases run with
  | nil => exact List.forall_mem_nil _
  | cons first more => exact List.forall_mem_singleton.2 loose

theorem genuine_cut {run : List Node} (loose : ∀ n ∈ run, m.named? n = none) (l : List Node) :
    ∀ p ∈ m.cut run l, p.Genuine m := by
  induction l generalizing run with
  | nil => exact genuine_closed loose
  | cons n rest ih =>
    rw [cut]
    split
    · rename_i missing
      exact ih (List.forall_mem_append.2 ⟨loose, List.forall_mem_singleton.2 missing⟩)
    · rename_i e found
      obtain ⟨outer, -⟩ := definition?_eq_some (named?_eq_some.1 found).1
      have own : (Piece.definition e).Genuine m := (congrArg m.named? outer).trans found
      exact List.forall_mem_append.2
        ⟨genuine_closed loose, List.forall_mem_cons.2 ⟨own, ih (List.forall_mem_nil _)⟩⟩

/-- A run does not follow a run. -/
theorem maximal_cut (m : Module) (run l : List Node) :
    (m.cut run l).IsChain fun p q => ¬ (p.isCode ∧ q.isCode) := by
  have single : ∀ run, (closed run).IsChain fun p q => ¬ (p.isCode ∧ q.isCode) := by
    intro run
    cases run with
    | nil => exact .nil
    | cons first more => exact .singleton _
  induction l generalizing run with
  | nil => exact single run
  | cons n rest ih =>
    rw [cut]
    split
    · exact ih _
    · rename_i e _
      have later : (Piece.definition e :: m.cut [] rest).IsChain fun p q => ¬ (p.isCode ∧ q.isCode) := by
        apply List.isChain_cons.2
        refine ⟨?_, ih []⟩
        rintro q - ⟨code, -⟩
        cases code
      apply (single run).append later
      rintro p - q first ⟨-, code⟩
      cases Option.some.inj first
      cases code

/-- The stretch that a run covers. -/
def spanOf : List Node → Option (Nat × Nat)
  | [] => none
  | first :: more => some ((Piece.code first more).start, (Piece.code first more).stop)

theorem spanOf_snoc (run : List Node) (n : Node) :
    spanOf (run ++ [n]) = some (((spanOf run).map (·.1)).getD n.start, n.stop) := by
  cases run with
  | nil => rfl
  | cons first more => simp [spanOf, Piece.start, Piece.stop]

theorem output_closed (m : Module) (s : Scope) (run : List Node) :
    join ((closed run).map (Piece.output m s)) = m.looseCode s (spanOf run) := by
  cases run with
  | nil => rfl
  | cons first more => exact append_empty _

/-- The walk over the statements of a module makes its pieces. -/
theorem topLevel_eq (s : Scope) (run : List Node) {l : List Node}
    (named : ∀ n ∈ l, ∀ d, m.definition? n = some d → (d.node.child? "name").isSome) :
    m.topLevel s (spanOf run) l = join ((m.cut run l).map (Piece.output m s)) := by
  induction l generalizing run with
  | nil => rw [topLevel, cut, output_closed]
  | cons n rest ih =>
    obtain ⟨own, others⟩ := List.forall_mem_cons.1 named
    rw [topLevel, cut]
    cases defined : m.definition? n with
    | none =>
      have missing : m.named? n = none := by rw [named?, defined, Option.bind_none]
      rw [missing, ← ih (run ++ [n]) others, spanOf_snoc]
    | some d =>
      obtain ⟨name, there⟩ := Option.isSome_iff_exists.1 (own d defined)
      have called : m.definitionName? d = some (m.sliceStr name) := by
        rw [definitionName?, there, Option.map_some]
      have found : m.named? n = some (d, m.sliceStr name) := named?_eq_some.2 ⟨defined, called⟩
      have outer := (definition?_eq_some defined).1
      have later := ih [] others
      rw [spanOf] at later
      rw [found]
      simp only [called, Option.isSome_some, if_true, later, List.map_append, List.map_cons, join_append,
        output_closed, join, Piece.output, outer]

theorem chunks_output {p : Piece} (genuine : p.Genuine m) (s : Scope) :
    (p.output m s).chunks = p.parts m s ++ p.inner m s := by
  cases p with
  | code first more => exact (List.append_nil _).symm
  | definition e =>
    have found : m.named? e.1.outer = some e := genuine
    rw [Piece.output, visit_eq, found]
    show (_ ++ _ : Output).chunks = _
    rw [chunks_append, chunks_join, List.flatMap_map]
    rfl

theorem symbols_output {p : Piece} (genuine : p.Genuine m) (s : Scope) :
    (p.output m s).symbols = p.nodes.flatMap fun n => (m.visit s n).symbols := by
  cases p with
  | code first more =>
    apply Eq.symm
    apply List.flatMap_eq_nil_iff.2
    intro n mem
    rw [visit_eq, genuine n mem]
  | definition e => exact (List.append_nil _).symm

/-! ### Kinds of chunks -/

theorem kind_chunks {id kind label : String} {start stop : Nat} {parent : Option String}
    {more : Metadata → Metadata} (same : ∀ d, (more d).find? "kind" = d.find? "kind") :
    ∀ c ∈ (m.chunks id kind start stop parent label more).chunks, c.metadata.str? "kind" = some kind := by
  intro c mem
  obtain ⟨c', part, rfl⟩ := List.mem_map.1 mem
  obtain ⟨i, _, rfl⟩ := List.mem_mapIdx.1 part
  rw [Metadata.str?, same, Split.find?_partChunk (by decide), Metadata.find?_putLines_ne (by decide) (by decide),
    Metadata.putStr, Metadata.find?_put_ne (by decide), Metadata.putStr, Metadata.put, SortedMap.find?_insert_self]
  rfl

theorem kind_define (s : Scope) (e : Definition × String) :
    ∀ c ∈ (m.define s e.1 e.2).chunks,
      c.metadata.str? "kind" = some (if e.1.isClass then "class" else "function") := by
  intro c mem
  unfold define at mem
  rw [chunks_append] at mem
  rcases List.mem_append.1 mem with mem | mem
  · cases mem
  · apply kind_chunks _ c mem
    intro d
    rw [find?_putList (by decide)]
    split
    · exact Metadata.find?_put_ne (by decide) _
    · rfl

theorem kind_visit (m : Module) (n : Node) : ∀ s, ∀ c ∈ (m.visit s n).chunks,
    c.metadata.str? "kind" ≠ some "module_code" := by
  induction n using statement_induction m with
  | step n ih =>
    intro s c mem
    rw [visit_eq] at mem
    cases found : m.named? n with
    | none =>
      rw [found] at mem
      cases mem
    | some e =>
      rw [found] at mem
      rcases List.mem_append.1 mem with mem | mem
      · rw [kind_define s e c mem]
        split <;> decide
      · rw [chunks_join, List.flatMap_map] at mem
        obtain ⟨k, there, mem⟩ := List.mem_flatMap.1 mem
        exact ih e found k there _ c mem

theorem kind_parts {p : Piece} (code : p.isCode) (s : Scope) :
    ∀ c ∈ p.parts m s, c.metadata.str? "kind" = some "module_code" := by
  cases p with
  | code first more => exact kind_chunks fun _ => rfl
  | definition e => cases code

theorem kind_docstringChunk (m : Module) (s : Scope) (name : String) (root : Node) :
    ∀ c ∈ (m.docstringChunk s name root).chunks, c.metadata.str? "kind" ≠ some "module_code" := by
  intro c mem
  unfold docstringChunk at mem
  split at mem
  · rw [kind_chunks (fun _ => rfl) c mem]
    decide
  · cases mem

section TopLevel

variable {l : List Node} (named : ∀ n ∈ l, ∀ d, m.definition? n = some d → (d.node.child? "name").isSome)

include named

theorem chunks_topLevel (s : Scope) :
    (m.topLevel s none l).chunks = (m.cut [] l).flatMap fun p => p.parts m s ++ p.inner m s := by
  have walked : m.topLevel s none l = _ := topLevel_eq s [] named
  rw [walked, chunks_join, List.flatMap_map]
  apply List.flatMap_congr
  intro p mem
  exact chunks_output (genuine_cut (List.forall_mem_nil _) l p mem) s

theorem symbols_topLevel (s : Scope) :
    (m.topLevel s none l).symbols = l.flatMap fun n => (m.visit s n).symbols := by
  have walked : m.topLevel s none l = _ := topLevel_eq s [] named
  have nodes : (m.cut [] l).flatMap Piece.nodes = l := nodes_cut m [] l
  calc (m.topLevel s none l).symbols
      = (m.cut [] l).flatMap fun p => (p.output m s).symbols := by
        rw [walked, symbols_join, List.flatMap_map]
    _ = (m.cut [] l).flatMap fun p => p.nodes.flatMap fun n => (m.visit s n).symbols := by
        apply List.flatMap_congr
        intro p mem
        exact symbols_output (genuine_cut (List.forall_mem_nil _) l p mem) s
    _ = l.flatMap fun n => (m.visit s n).symbols := by rw [← List.flatMap_assoc, nodes]

theorem run_of_kind (s : Scope) {c : Chunk} (mem : c ∈ (m.topLevel s none l).chunks)
    (kind : c.metadata.str? "kind" = some "module_code") : ∃ p ∈ m.cut [] l, p.isCode ∧ c ∈ p.parts m s := by
  have walked : m.topLevel s none l = _ := topLevel_eq s [] named
  rw [walked, chunks_join, List.flatMap_map] at mem
  obtain ⟨p, there, mem⟩ := List.mem_flatMap.1 mem
  cases p with
  | definition e => exact absurd kind (kind_visit m _ s c mem)
  | code first more => exact ⟨.code first more, there, rfl, mem⟩

end TopLevel

/-- The docstring of a module and its other statements. -/
theorem namedChildren_eq (root : Node) : root.namedChildren = (docstringNode? root).toList ++ statements root := by
  unfold statements
  cases doc : docstringNode? root with
  | none => rfl
  | some first =>
    have head : root.namedChildren.head? = some first := by
      unfold docstringNode? at doc
      split at doc
      · rename_i first' there
        split at doc
        · rw [there, doc]
        · cases doc
      · cases doc
    obtain ⟨rest, all⟩ := List.head?_eq_some_iff.1 head
    rw [all]
    rfl

end Module

/-! ### Spans of pieces -/

namespace Piece

variable {n : Node}

theorem exists_start (p : Piece) : ∃ n ∈ p.nodes, n.start = p.start := by
  cases p with
  | code first more => exact ⟨first, List.mem_cons_self, rfl⟩
  | definition e => exact ⟨e.1.outer, List.mem_cons_self, rfl⟩

theorem exists_stop (p : Piece) : ∃ n ∈ p.nodes, n.stop = p.stop := by
  cases p with
  | code first more => exact ⟨_, List.getLast_mem (List.cons_ne_nil first more), rfl⟩
  | definition e => exact ⟨e.1.outer, List.mem_cons_self, rfl⟩

/-- A run reaches from the start of its first statement to the end of its last one. -/
theorem within {p : Piece} (forward : ∀ n ∈ p.nodes, n.start ≤ n.stop)
    (apart : p.nodes.Pairwise fun a b => a.stop ≤ b.start) :
    ∀ n ∈ p.nodes, p.start ≤ n.start ∧ n.stop ≤ p.stop := by
  intro n mem
  cases p with
  | definition e =>
    rw [List.mem_singleton.1 mem]
    exact ⟨Nat.le_refl _, Nat.le_refl _⟩
  | code first more =>
    constructor
    · rcases List.mem_cons.1 mem with rfl | later
      · exact Nat.le_refl _
      · have behind := (List.pairwise_cons.1 apart).1 n later
        have := forward first List.mem_cons_self
        exact Nat.le_trans this behind
    · have some := List.cons_ne_nil first more
      have split := List.dropLast_append_getLast some
      have last := forward _ (List.getLast_mem some)
      have mem : n ∈ (first :: more).dropLast ++ [(first :: more).getLast some] := split.symm ▸ mem
      have apart : ((first :: more).dropLast ++ [(first :: more).getLast some]).Pairwise
        fun a b => a.stop ≤ b.start := split.symm ▸ apart
      rcases List.mem_append.1 mem with earlier | mem
      · have before := (List.pairwise_append.1 apart).2.2 n earlier _ (List.mem_singleton_self _)
        exact Nat.le_trans before last
      · rw [List.mem_singleton.1 mem]
        exact Nat.le_refl _

theorem apart_of_nodes {pieces : List Piece}
    (apart : (pieces.flatMap Piece.nodes).Pairwise fun a b => a.stop ≤ b.start) :
    pieces.Pairwise fun p q => p.stop ≤ q.start := by
  apply (List.pairwise_flatMap.1 apart).2.imp
  intro p q each
  obtain ⟨a, first, stop⟩ := exists_stop p
  obtain ⟨b, second, start⟩ := exists_start q
  rw [← stop, ← start]
  exact each a first b second

/-- Only one of several pieces that follow each other holds a statement that is not empty. -/
theorem eq_of_within {pieces : List Piece} (apart : pieces.Pairwise fun p q => p.stop ≤ q.start)
    {p q : Piece} (first : p ∈ pieces) (second : q ∈ pieces) (some : n.start < n.stop)
    (here : p.start ≤ n.start ∧ n.stop ≤ p.stop) (there : q.start ≤ n.start ∧ n.stop ≤ q.stop) :
    q = p := by
  have sides : pieces.Pairwise fun p q => p.stop ≤ q.start ∨ q.stop ≤ p.start := apart.imp Or.inl
  have : Std.Symm fun p q : Piece => p.stop ≤ q.start ∨ q.stop ≤ p.start := ⟨fun _ _ => Or.symm⟩
  by_contra other
  have := sides.forall second first other
  omega

end Piece

/-! ### A module as a whole -/

/-- Pieces that a module is cut into. -/
structure Divides (m : Module) (root : Node) (pieces : List Piece) : Prop where
  /-- In their order they hold each statement once, the docstring apart. -/
  nodes : root.namedChildren = (docstringNode? root).toList ++ pieces.flatMap Piece.nodes
  loose : ∀ p ∈ pieces, p.isCode → ∀ n ∈ p.nodes, m.definition? n = none
  defined : ∀ e, .definition e ∈ pieces → m.named? e.1.outer = some e
  maximal : pieces.IsChain fun p q => ¬ (p.isCode ∧ q.isCode)
  within : ∀ p ∈ pieces, ∀ n ∈ p.nodes, p.start ≤ n.start ∧ n.stop ≤ p.stop
  apart : pieces.Pairwise fun p q => p.stop ≤ q.start
  single : ∀ p ∈ pieces, ∀ n ∈ p.nodes, n.start < n.stop →
    ∀ q ∈ pieces, q.start ≤ n.start ∧ n.stop ≤ q.stop → q = p

theorem divides_cut {m : Module} {root : Node} (forward : ∀ n ∈ root.namedChildren, n.start ≤ n.stop)
    (apart : root.namedChildren.Pairwise fun a b => a.stop ≤ b.start)
    (named : ∀ n ∈ root.namedChildren, ∀ d, m.definition? n = some d → (d.node.child? "name").isSome) :
    Divides m root (m.cut [] (Module.statements root)) := by
  have genuine : ∀ p ∈ m.cut [] (Module.statements root), p.Genuine m :=
    Module.genuine_cut (List.forall_mem_nil _) _
  have maximal := Module.maximal_cut m [] (Module.statements root)
  have nodes : root.namedChildren =
      (docstringNode? root).toList ++ (m.cut [] (Module.statements root)).flatMap Piece.nodes := by
    rw [Module.nodes_cut]
    exact Module.namedChildren_eq root
  generalize m.cut [] (Module.statements root) = pieces at *
  have among : ∀ p ∈ pieces, ∀ n ∈ p.nodes, n ∈ root.namedChildren := by
    intro p mem n there
    rw [nodes]
    exact List.mem_append_right _ (List.mem_flatMap.2 ⟨p, mem, there⟩)
  -- The pieces are made of nodes that follow each other, so they follow each other as well.
  rw [nodes] at apart
  obtain ⟨-, apart, -⟩ := List.pairwise_append.1 apart
  have follow := Piece.apart_of_nodes apart
  have within : ∀ p ∈ pieces, ∀ n ∈ p.nodes, p.start ≤ n.start ∧ n.stop ≤ p.stop := by
    intro p mem
    apply Piece.within
    · exact fun n there => forward n (among p mem n there)
    · exact (List.pairwise_flatMap.1 apart).1 p mem
  refine ⟨nodes, ?_, fun e mem => genuine _ mem, maximal, within, follow, ?_⟩
  · intro p mem code n there
    cases p with
    | definition e => cases code
    | code first more => exact Module.defines_nothing (named n (among _ mem n there)) (genuine _ mem n there)
  · intro p mem n there some q other inside
    exact Piece.eq_of_within follow mem other some (within p mem n there) inside

section Read

variable {r : Reading} {path : String} {source : LoadedSource}

def rootOf (r : Reading) (source : LoadedSource) : Node := r.readers.python source.text

def moduleOf (r : Reading) (source : LoadedSource) : Module :=
  ⟨source.text, LineIndex.ofText source.text, r.count, r.maxTokens "python", "python:" ++ source.file.path⟩

def moduleName (source : LoadedSource) : String := Path.dottedName source.file.path

/-- The name of the symbol around all definitions; a delegated module has none. -/
def topName? (r : Reading) (source : LoadedSource) : Option String :=
  if r.depth = 0 then some (moduleName source) else none

def scopeOf (r : Reading) (source : LoadedSource) : Scope :=
  ⟨(topName? r source).toList, (topName? r source).map (moduleOf r source).symbolId⟩

theorem inside_scopeOf (r : Reading) (source : LoadedSource) :
    (scopeOf r source).Inside (moduleOf r source) (topName? r source) [] where
  parent := rfl
  names name := by
    rw [scopeOf]
    cases topName? r source with
    | none => exact String.intercalate_singleton
    | some top => rfl

/-- The symbol of a module that is not delegated. -/
def moduleSymbol (r : Reading) (source : LoadedSource) : Symbol where
  symbolId := (moduleOf r source).symbolId (moduleName source)
  name := moduleName source
  kind := "module"
  startOffset := 0
  endOffset := Text.byteLength source.text
  docstring := (moduleOf r source).docstring? (rootOf r source)
  metadata := ((Metadata.empty.putStr "kind" "module").putStr "qualified_name" (moduleName source)).putLines
    (LineIndex.ofText source.text) 0 (Text.byteLength source.text)

theorem read_eq (loaded : r.load path "python" = .ok source) : read r path =
    ((if (rootOf r source).failing then .ofWarning (path ++ ": python source contains syntax errors") else {}) ++
      (if r.depth = 0 then .ofSymbol (moduleSymbol r source) else {}) ++
      (moduleOf r source).docstringChunk (scopeOf r source) (moduleName source) (rootOf r source) ++
      (moduleOf r source).topLevel (scopeOf r source) none (Module.statements (rootOf r source))).toResult
        source := by
  have scope : scopeOf r source = if r.depth = 0 then
      ⟨[moduleName source], some ((moduleOf r source).symbolId (moduleName source))⟩ else {} := by
    rw [scopeOf, topName?]
    split <;> rfl
  rw [read, loaded, scope]
  rfl

theorem symbols_docstringChunk (m : Module) (s : Scope) (name : String) (root : Node) :
    (m.docstringChunk s name root).symbols = [] := by
  unfold Module.docstringChunk
  split <;> rfl

/-- What stands above the definitions has no symbol but that of the module, and no chunk but that of its docstring. -/
theorem read_members (loaded : r.load path "python" = .ok source) :
    let m := moduleOf r source
    let s := scopeOf r source
    let root := rootOf r source
    let o := m.topLevel s none (Module.statements root)
    (read r path).symbols = (if r.depth = 0 then [moduleSymbol r source] else []) ++ o.symbols ∧
      (read r path).chunks = (m.docstringChunk s (moduleName source) root).chunks ++ o.chunks := by
  rw [read_eq loaded]
  simp only [toResult, symbols_append, chunks_append, symbols_docstringChunk]
  constructor
  · split <;> split <;> rfl
  · split <;> split <;> rfl

/-- The statements of a module are kept in pieces, each of them a chunk that may be split, and its definitions have
symbols, each under that of what is around it. -/
theorem module_divided (loaded : r.load path "python" = .ok source)
    (forward : ∀ n ∈ (rootOf r source).namedChildren, n.start ≤ n.stop)
    (apart : (rootOf r source).namedChildren.Pairwise fun a b => a.stop ≤ b.start)
    (named : ∀ n ∈ (rootOf r source).namedChildren, ∀ d, (moduleOf r source).definition? n = some d →
      (d.node.child? "name").isSome) :
    let m := moduleOf r source
    let s := scopeOf r source
    let root := rootOf r source
    ∃ pieces symbols, Divides m root pieces ∧
      (read r path).chunks = (m.docstringChunk s (moduleName source) root).chunks ++
        pieces.flatMap (fun p => p.parts m s ++ p.inner m s) ∧
      (∀ c ∈ (read r path).chunks, c.metadata.str? "kind" = some "module_code" ↔
        ∃ p ∈ pieces, p.isCode ∧ c ∈ p.parts m s) ∧
      (∀ p ∈ pieces, (p.whole m s).startOffset = p.start ∧ (p.whole m s).endOffset = p.stop ∧
        (p.isCode → (p.whole m s).parentSymbolId = (topName? r source).map m.symbolId)) ∧
      (read r path).symbols = (if r.depth = 0 then [moduleSymbol r source] else []) ++ symbols ∧
      Declares m root (topName? r source) symbols := by
  intro m s root
  have statements_named : ∀ n ∈ Module.statements root, ∀ d, m.definition? n = some d →
      (d.node.child? "name").isSome := by
    intro n mem
    apply named
    rw [Module.namedChildren_eq]
    exact List.mem_append_right _ mem
  obtain ⟨readSymbols, readChunks⟩ := read_members loaded
  rw [Module.symbols_topLevel statements_named] at readSymbols
  refine ⟨m.cut [] (Module.statements root), _, divides_cut forward apart named, ?_, ?_, ?_, readSymbols,
    declares_visits (inside_scopeOf r source)⟩
  · rw [readChunks, Module.chunks_topLevel statements_named]
  · intro c mem
    constructor
    · intro kind
      rw [readChunks] at mem
      rcases List.mem_append.1 mem with mem | mem
      · exact absurd kind (Module.kind_docstringChunk m s _ root c mem)
      · exact Module.run_of_kind statements_named s mem kind
    · rintro ⟨p, there, code, part⟩
      exact Module.kind_parts code s c part
  · intro p mem
    cases p with
    | definition e => exact ⟨rfl, rfl, fun code => nomatch code⟩
    | code first more => exact ⟨rfl, rfl, fun _ => rfl⟩

end Read

/-! A module with a docstring, an import, a class with a method, a decorated function and two assignments. -/

def mixedText : List Char :=
  "\"\"\"Doc.\"\"\"\nimport os\nclass A:\n    def f(self): pass\n@d\ndef g(): pass\nx = 1\ny = 2\n".toList

def node (kind : String) (start stop : Nat) (children : List Node) : Node :=
  ⟨kind, true, none, start, stop, false, children⟩

/-- A definition of a name of one character, with a body. -/
def definitionNode (kind : String) (field : Option String) (start stop name : Nat) (body : Node) : Node :=
  ⟨kind, true, field, start, stop, false, [⟨"identifier", true, some "name", name, name + 1, false, []⟩,
    { body with kind := "block", field := some "body" }]⟩

def mixedTree : Node :=
  node "module" 0 81
    [node "expression_statement" 0 10 [node "string" 0 10 []],
      node "import_statement" 11 20 [],
      definitionNode "class_definition" none 21 51 27 (node "block" 34 51
        [definitionNode "function_definition" none 34 51 38 (node "block" 47 51 [node "pass_statement" 47 51 []])]),
      node "decorated_definition" 52 68 [node "decorator" 52 54 [],
        definitionNode "function_definition" (some "definition") 55 68 59
          (node "block" 64 68 [node "pass_statement" 64 68 []])],
      node "expression_statement" 69 74 [],
      node "expression_statement" 75 80 []]

def mixedReading : Reading :=
  { Staging.guideReading with
    readers := { Staging.guideReading.readers with python := fun _ => mixedTree }
    view := some mixedText }

def mixedSource : LoadedSource :=
  ⟨mixedReading.describe "app.py" "python" (Hashing.checksum (Text.encodeUtf8 (String.ofList mixedText))) mixedText,
    mixedText, []⟩

theorem mixed_module_divided :
    let m := moduleOf mixedReading mixedSource
    let s := scopeOf mixedReading mixedSource
    let root := rootOf mixedReading mixedSource
    ∃ pieces symbols, Divides m root pieces ∧ Declares m root (some "app") symbols ∧
      (read mixedReading "app.py").chunks = (m.docstringChunk s "app" root).chunks ++
        pieces.flatMap (fun p => p.parts m s ++ p.inner m s) ∧
      (read mixedReading "app.py").chunks.map (fun c => (c.chunkId, c.parentSymbolId)) =
        [("python:module_docstring:0:10", some "python:app.py::app"),
          ("python:module_code:11:20", some "python:app.py::app"),
          ("python:app.A:21:51", some "python:app.py::app.A"),
          ("python:app.A.f:34:51", some "python:app.py::app.A.f"),
          ("python:app.g:52:68", some "python:app.py::app.g"),
          ("python:module_code:69:80", some "python:app.py::app")] ∧
      symbols.map (fun y => (y.symbolId, y.parentId)) =
        [("python:app.py::app.A", some "python:app.py::app"),
          ("python:app.py::app.A.f", some "python:app.py::app.A"),
          ("python:app.py::app.g", some "python:app.py::app")] := by
  intro m s root
  have loaded : mixedReading.load "app.py" "python" = .ok mixedSource := rfl
  have called : ∀ n ∈ root.namedChildren, ∀ d, m.definition? n = some d → (d.node.child? "name").isSome := by
    have each : ∀ n ∈ root.namedChildren,
        ((m.definition? n).all fun d => (d.node.child? "name").isSome) = true := by
      decide +kernel
    intro n mem d defined
    have own := each n mem
    rw [defined] at own
    exact own
  obtain ⟨pieces, symbols, divides, chunks, -, -, all, declares⟩ :=
    module_divided loaded (by decide +kernel) (by decide +kernel) called
  have found : (read mixedReading "app.py").symbols.map (fun y => (y.symbolId, y.parentId)) =
      ("python:app.py::app", none) :: [("python:app.py::app.A", some "python:app.py::app"),
        ("python:app.py::app.A.f", some "python:app.py::app.A"),
        ("python:app.py::app.g", some "python:app.py::app")] := by
    decide +kernel
  rw [all] at found
  exact ⟨pieces, symbols, divides, declares, chunks, by decide +kernel, (List.cons.inj found).2⟩

end SourceSlices.Python
