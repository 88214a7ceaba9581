import Mathlib.Data.List.Infix
import SourceSlices.Languages
import SourceSlices.Proofs.DedentedText
import SourceSlices.Proofs.ExactParts
import SourceSlices.Proofs.LinkedOutput

/-!
Where symbols end. A tree covers its text, and inside a node its children lie one behind the other. So a
handler that walks a tree makes no symbol that reaches behind the text, and since a part that is handed over
is no longer than what it stands in, none of the symbols that come back does.
-/
namespace SourceSlices

open Text

namespace Text

theorem byteLength_dropBytes_le (n : Nat) (cs : List Char) : byteLength (dropBytes n cs) ≤ byteLength cs := by
  induction n, cs using dropBytes.induct with
  | case1 cs =>
    rw [dropBytes]
  | case2 n => exact Nat.le_refl _
  | case3 n c cs ih =>
    rw [dropBytes, byteLength_cons]
    omega

theorem byteLength_takeBytes_le (n : Nat) (cs : List Char) : byteLength (takeBytes n cs) ≤ byteLength cs := by
  induction n, cs using takeBytes.induct with
  | case1 cs =>
    rw [takeBytes_zero]
    exact Nat.zero_le _
  | case2 n => exact Nat.le_refl _
  | case3 n c cs ih =>
    rw [takeBytes, byteLength_cons, byteLength_cons]
    omega

theorem byteLength_slice_le (cs : List Char) (start stop : Nat) :
    byteLength (slice cs start stop) ≤ byteLength cs :=
  Nat.le_trans (byteLength_takeBytes_le _ _) (byteLength_dropBytes_le _ _)

end Text

/-! ### Trees over a text -/

namespace Syntax

/-- Nodes cover whole characters, and the children of a node lie inside it, in order. -/
inductive Node.Fits (text : List Char) : Node → Prop
  | mk {n : Node} (first : IsBoundary text n.start) (last : IsBoundary text n.stop)
      (ordered : n.start ≤ n.stop) (inside : ∀ c ∈ n.children, n.start ≤ c.start ∧ c.stop ≤ n.stop)
      (apart : n.children.Pairwise fun a b => a.stop ≤ b.start)
      (children : ∀ c ∈ n.children, Node.Fits text c) : Node.Fits text n

namespace Node.Fits

variable {text : List Char} {n c : Node}

theorem stop_le (fits : n.Fits text) : n.stop ≤ byteLength text := by
  cases fits with
  | mk first last => exact last.le

theorem child (fits : n.Fits text) (mem : c ∈ n.children) : c.Fits text := by
  cases fits with
  | mk first last ordered inside apart children => exact children c mem

theorem childOfKind? {kind : String} (fits : n.Fits text) (found : n.childOfKind? kind = some c) :
    c.Fits text :=
  fits.child (List.mem_of_find?_eq_some found)

/-- An empty tree covers the beginning of any text. -/
theorem empty (text : List Char) : (default : Node).Fits text := by
  have zero : IsBoundary text 0 := ⟨[], List.nil_prefix, rfl⟩
  refine .mk zero zero (Nat.le_refl 0) ?_ .nil ?_
  · intro c mem
    cases mem
  · intro c mem
    cases mem

end Node.Fits

instance (cs : List Char) (n : Nat) : Decidable (IsBoundary cs n) :=
  decidable_of_iff (∃ pre ∈ cs.inits, byteLength pre = n) (by simp only [List.mem_inits, IsBoundary])

/-- What a node has to do with its children. -/
def Node.Covers (text : List Char) (n : Node) : Prop :=
  IsBoundary text n.start ∧ IsBoundary text n.stop ∧ n.start ≤ n.stop ∧
    (∀ c ∈ n.children, n.start ≤ c.start ∧ c.stop ≤ n.stop) ∧
      n.children.Pairwise fun a b => a.stop ≤ b.start

instance (text : List Char) (n : Node) : Decidable (n.Covers text) :=
  inferInstanceAs (Decidable (_ ∧ _))

theorem fits_iff {text : List Char} {n : Node} :
    (n.Covers text ∧ ∀ c ∈ n.children, c.Fits text) ↔ n.Fits text := by
  constructor
  · rintro ⟨⟨first, last, ordered, inside, apart⟩, children⟩
    exact .mk first last ordered inside apart children
  · rintro ⟨first, last, ordered, inside, apart, children⟩
    exact ⟨⟨first, last, ordered, inside, apart⟩, children⟩

mutual

def decideFits (text : List Char) : (n : Node) → Decidable (n.Fits text)
  | ⟨_, _, _, _, _, _, children⟩ =>
    @decidable_of_iff _ _ fits_iff (@instDecidableAnd _ _ inferInstance (decideAllFit text children))

def decideAllFit (text : List Char) : (l : List Node) → Decidable (∀ c ∈ l, c.Fits text)
  | [] => isTrue (List.forall_mem_nil _)
  | n :: rest =>
    @decidable_of_iff _ _ List.forall_mem_cons.symm
      (@instDecidableAnd _ _ (decideFits text n) (decideAllFit text rest))

end

instance (text : List Char) (n : Node) : Decidable (n.Fits text) := decideFits text n

end Syntax

/-- The grammars of the web read every text as a tree over it. -/
structure Readers.Fit (readers : Readers) : Prop where
  css : ∀ text, (readers.css text).Fits text
  html : ∀ text, (readers.html text).Fits text
  javascript : ∀ text, (readers.javascript text).Fits text
  typescript : ∀ text, (readers.typescript text).Fits text
  tsx : ∀ text, (readers.tsx text).Fits text

/-! ### Symbols that end in time -/

/-- No symbol reaches behind an offset. -/
def Output.EndBy (o : Output) (size : Nat) : Prop := ∀ y ∈ o.symbols, y.endOffset ≤ size

namespace Output

variable {a b : Output} {size : Nat}

theorem endBy_append : (a ++ b).EndBy size ↔ a.EndBy size ∧ b.EndBy size := by
  rw [EndBy, symbols_append, List.forall_mem_append]
  rfl

theorem EndBy.append (first : a.EndBy size) (second : b.EndBy size) : (a ++ b).EndBy size :=
  endBy_append.2 ⟨first, second⟩

theorem EndBy.mono {size' : Nat} (ends : a.EndBy size) (le : size ≤ size') : a.EndBy size' := by
  intro y mem
  exact Nat.le_trans (ends y mem) le

theorem endBy_of_no_symbols (none : a.symbols = []) : a.EndBy size := by
  intro y mem
  rw [none] at mem
  cases mem

theorem endBy_empty : ({} : Output).EndBy size := endBy_of_no_symbols rfl

theorem endBy_ofSymbol {s : Symbol} (ends : s.endOffset ≤ size) : (ofSymbol s).EndBy size := by
  intro y mem
  rw [List.mem_singleton.1 mem]
  exact ends

theorem endBy_join {outputs : List Output} (each : ∀ o ∈ outputs, o.EndBy size) :
    (join outputs).EndBy size := by
  induction outputs with
  | nil => exact endBy_empty
  | cons o rest ih =>
    obtain ⟨own, others⟩ := List.forall_mem_cons.1 each
    exact own.append (ih others)

end Output

open Output

/-! ### Delegation -/

namespace Delegation

/-- The handlers that pages and scripts hand parts to. -/
def webHandlers : List Handler := [.css, .html, .javascript, .typescript]

/-- Whoever has one of their names is that handler. -/
def Genuine (r : Registry) : Prop := ∀ h ∈ webHandlers, ∀ h', r.instantiate h.name = .ok h' → h' = h

/-- What these handlers find in a part of a text does not reach behind the part. -/
def EndsBelow (read : ReadSource) (r : Reading) (path : String) : Prop :=
  ∀ h ∈ webHandlers, ∀ text, ∀ y ∈ (read h (r.delegated text) path).symbols, y.endOffset ≤ byteLength text

variable {read : ReadSource} {r : Reading} {path : String} {q : Request}

theorem endBy_delegate (genuine : Genuine r.registry) (below : EndsBelow read r path) {h : Handler}
    (known : h ∈ webHandlers) (name : q.delegate = h.name) :
    (delegate read r path q).output.EndBy (byteLength q.text) := by
  unfold delegate
  split
  · exact endBy_of_no_symbols rfl
  · split
    · exact endBy_of_no_symbols rfl
    · split
      · exact endBy_of_no_symbols rfl
      · rename_i h' made
        obtain rfl := genuine h known h' (name ▸ made)
        dsimp only
        split
        · intro y mem
          obtain ⟨own, there, rfl⟩ := List.mem_map.1 mem
          exact below _ known q.text own there
        · exact endBy_of_no_symbols rfl

end Delegation

open Delegation Syntax

/-! ### Style sheets -/

namespace Css.Sheet

variable {s : Sheet} {at' : Scope} {size : Nat}

theorem endBy_chunk (exact : Bool) (c : Chunk) : (s.chunk exact c).EndBy size := endBy_of_no_symbols rfl

theorem endBy_symbol {n : Node} (ends : n.stop ≤ size) (id name kind : String) (parent : Option String) :
    (s.symbol id name kind n parent).EndBy size :=
  endBy_ofSymbol ends

theorem endBy_ruleHead {n : Node} (ends : n.stop ≤ size) (block : Node) :
    (s.ruleHead at' n block).EndBy size := by
  apply (endBy_symbol ends _ _ _ _).append
  apply endBy_join
  intro o mem
  obtain ⟨i, less, rfl⟩ := List.mem_mapIdx.1 mem
  unfold selector
  dsimp only
  split <;> exact endBy_chunk _ _

mutual

theorem endBy_visit (s : Sheet) (at' : Scope) {text : List Char} :
    ∀ n : Node, n.Fits text → (s.visit at' n).EndBy (byteLength text)
  | ⟨kind, named, field, start, stop, failing, children⟩ => by
    intro fits
    have ends := fits.stop_le
    have each : ∀ c ∈ children, c.Fits text := fun c mem => fits.child mem
    unfold visit
    split
    · split
      · exact endBy_empty
      · exact (endBy_ruleHead ends _).append (endBy_visitBlock s _ children each)
    · split
      · exact endBy_chunk _ _
      · split
        · exact (endBy_of_no_symbols rfl).append (endBy_chunk _ _)
        · split
          · split
            · exact endBy_empty
            · exact ((endBy_symbol ends _ _ _ _).append (endBy_chunk _ _)).append
                (endBy_visitBody s _ children each)
          · exact endBy_empty

theorem endBy_visitBlock (s : Sheet) (at' : Scope) {text : List Char} :
    ∀ l : List Node, (∀ c ∈ l, c.Fits text) → (s.visitBlock at' l).EndBy (byteLength text)
  | [] => fun _ => endBy_empty
  | ⟨kind, named, field, start, stop, failing, children⟩ :: rest => by
    intro each
    obtain ⟨own, others⟩ := List.forall_mem_cons.1 each
    unfold visitBlock
    split
    · exact endBy_visitNested s at' children fun c mem => own.child mem
    · exact endBy_visitBlock s at' rest others

theorem endBy_visitNested (s : Sheet) (at' : Scope) {text : List Char} :
    ∀ l : List Node, (∀ c ∈ l, c.Fits text) → (s.visitNested at' l).EndBy (byteLength text)
  | [] => fun _ => endBy_empty
  | n :: rest => by
    intro each
    obtain ⟨own, others⟩ := List.forall_mem_cons.1 each
    unfold visitNested
    apply EndBy.append _ (endBy_visitNested s at' rest others)
    split
    · exact endBy_visit s at' n own
    · exact endBy_empty

theorem endBy_visitBody (s : Sheet) (at' : Scope) {text : List Char} :
    ∀ l : List Node, (∀ c ∈ l, c.Fits text) → (s.visitBody at' l).EndBy (byteLength text)
  | [] => fun _ => endBy_empty
  | ⟨kind, named, field, start, stop, failing, children⟩ :: rest => by
    intro each
    obtain ⟨own, others⟩ := List.forall_mem_cons.1 each
    have inner : ∀ c ∈ children, c.Fits text := fun c mem => own.child mem
    unfold visitBody
    split
    · exact endBy_visitAll s at' children inner
    · split
      · exact endBy_visitFrames s at' children inner
      · exact endBy_visitBody s at' rest others

theorem endBy_visitFrames (s : Sheet) (at' : Scope) {text : List Char} :
    ∀ l : List Node, (∀ c ∈ l, c.Fits text) → (s.visitFrames at' l).EndBy (byteLength text)
  | [] => fun _ => endBy_empty
  | n :: rest => by
    intro each
    obtain ⟨own, others⟩ := List.forall_mem_cons.1 each
    unfold visitFrames
    apply EndBy.append _ (endBy_visitFrames s at' rest others)
    split
    · exact endBy_chunk _ _
    · exact endBy_visit s at' n own

theorem endBy_visitAll (s : Sheet) (at' : Scope) {text : List Char} :
    ∀ l : List Node, (∀ c ∈ l, c.Fits text) → (s.visitAll at' l).EndBy (byteLength text)
  | [] => fun _ => endBy_empty
  | n :: rest => by
    intro each
    obtain ⟨own, others⟩ := List.forall_mem_cons.1 each
    unfold visitAll
    exact (endBy_visit s at' n own).append (endBy_visitAll s at' rest others)

end

end Css.Sheet

theorem Css.endBy_read {r : Reading} (fit : r.readers.Fit) {path : String} {source : LoadedSource}
    (loaded : r.load path "css" = .ok source) : ∀ y ∈ (read r path).symbols, y.endOffset ≤ byteLength source.text := by
  have fits := fit.css source.text
  unfold read
  rw [loaded]
  dsimp only
  apply EndBy.append
  · split
    · exact Sheet.endBy_symbol fits.stop_le _ _ _ _
    · exact endBy_empty
  · exact Sheet.endBy_visitAll _ _ _ fun c mem => fits.child mem

/-! ### Pages -/

namespace Html.Page

variable {p : Page} {parent : Option String} {n raw : Node}

theorem endBy_element (ends : n.stop ≤ byteLength p.text) (tag kind : String) :
    (p.element n tag kind parent).EndBy (byteLength p.text) :=
  (endBy_ofSymbol ends).append (endBy_of_no_symbols rfl)

theorem endBy_delegateBody (genuine : Genuine p.reading.registry) (below : EndsBelow p.read p.reading p.path)
    {h : Handler} (known : h ∈ webHandlers) {body : List Char} (short : byteLength body ≤ byteLength p.text)
    (tag kind : String) : (p.delegateBody n raw tag kind h.name body).EndBy (byteLength p.text) := by
  unfold delegateBody
  split
  · exact endBy_of_no_symbols rfl
  · exact (endBy_delegate genuine below known rfl).mono short

theorem scriptDelegate_known {scriptType : Option String} {delegate : String}
    (found : scriptDelegate scriptType = some delegate) : ∃ h ∈ webHandlers, delegate = h.name := by
  unfold scriptDelegate at found
  split at found
  · exact ⟨.javascript, by simp [webHandlers], (Option.some.inj found).symm⟩
  · split at found
    · exact ⟨.javascript, by simp [webHandlers], (Option.some.inj found).symm⟩
    · split at found
      · exact ⟨.typescript, by simp [webHandlers], (Option.some.inj found).symm⟩
      · cases found

theorem endBy_embedded (genuine : Genuine p.reading.registry) (below : EndsBelow p.read p.reading p.path)
    (ends : n.stop ≤ byteLength p.text) (kind : String) :
    (p.embedded n kind parent).EndBy (byteLength p.text) := by
  unfold embedded
  apply (endBy_element ends _ _).append
  split
  · exact endBy_empty
  · rename_i raw found
    have short : byteLength (dedent (p.slice raw)) ≤ byteLength p.text :=
      Nat.le_trans (byteLength_dedent_le _) (byteLength_slice_le _ _ _)
    dsimp only
    split
    · exact endBy_empty
    · split
      · split
        · rename_i delegate found
          obtain ⟨h, known, rfl⟩ := scriptDelegate_known found
          exact endBy_delegateBody genuine below known short _ _
        · exact endBy_of_no_symbols rfl
      · exact endBy_delegateBody genuine below (by simp [webHandlers] : Handler.css ∈ webHandlers) short _ _

mutual

theorem endBy_visit (p : Page) (genuine : Genuine p.reading.registry)
    (below : EndsBelow p.read p.reading p.path) (parent : Option String) :
    ∀ n : Node, n.Fits p.text → (p.visit parent n).EndBy (byteLength p.text)
  | ⟨kind, named, field, start, stop, failing, children⟩ => by
    intro fits
    have each : ∀ c ∈ children, c.Fits p.text := fun c mem => fits.child mem
    have walk := fun parent => endBy_visitNamed p genuine below parent children each
    unfold visit
    split
    · exact endBy_embedded genuine below fits.stop_le _
    · split
      · exact endBy_embedded genuine below fits.stop_le _
      · split
        · split
          · split
            · exact (endBy_element fits.stop_le _ _).append (walk _)
            · exact walk _
          · exact walk _
        · split
          · unfold inlineText
            dsimp only
            split <;> exact endBy_of_no_symbols rfl
          · exact walk _

theorem endBy_visitNamed (p : Page) (genuine : Genuine p.reading.registry)
    (below : EndsBelow p.read p.reading p.path) (parent : Option String) :
    ∀ l : List Node, (∀ c ∈ l, c.Fits p.text) → (p.visitNamed parent l).EndBy (byteLength p.text)
  | [] => fun _ => endBy_empty
  | n :: rest => by
    intro each
    obtain ⟨own, others⟩ := List.forall_mem_cons.1 each
    unfold visitNamed
    apply EndBy.append _ (endBy_visitNamed p genuine below parent rest others)
    split
    · exact endBy_visit p genuine below parent n own
    · exact endBy_empty

end

end Html.Page

theorem Html.endBy_read {readSource : ReadSource} {r : Reading} {path : String} (fit : r.readers.Fit)
    (genuine : Genuine r.registry) (below : EndsBelow readSource r path) {source : LoadedSource}
    (loaded : r.load path "html" = .ok source) :
    ∀ y ∈ (read readSource r path).symbols, y.endOffset ≤ byteLength source.text := by
  have fits := fit.html source.text
  unfold read
  rw [loaded]
  dsimp only
  apply EndBy.append
  · apply EndBy.append
    · split
      · exact endBy_ofSymbol (Nat.le_refl _)
      · exact endBy_empty
    · split <;> exact endBy_of_no_symbols rfl
  · exact Page.endBy_visitNamed ⟨path, source.text, LineIndex.ofText source.text, r, r.maxTokens "html",
      readSource⟩ genuine below _ _ fun c mem => fits.child mem

/-! ### Scripts -/

namespace Script.Module

variable {m : Module} {size : Nat}

theorem endBy_symbol {n : Node} (ends : n.stop ≤ size) (name kind : String) (before : Option Node) (e : Export)
    (d : Metadata) : (m.symbol name kind before n e d).EndBy size :=
  endBy_ofSymbol ends

theorem endBy_chunk (label kind : String) (start stop : Nat) (parent : Option String) (name : String) :
    (m.chunk label kind start stop parent name).EndBy size :=
  endBy_of_no_symbols rfl

theorem node_mem_placed {n : Node} {p : Placed} (mem : p ∈ placed n) : p.node ∈ n.children := by
  have held : ∀ (l : List Node) (before : Option Node), p ∈ placeFrom before l → p.node ∈ l := by
    intro l
    induction l with
    | nil =>
      intro before mem
      cases mem
    | cons c rest ih =>
      intro before mem
      rcases List.mem_cons.1 mem with rfl | mem
      · exact List.mem_cons_self
      · exact List.mem_cons_of_mem _ (ih _ mem)
  exact held n.children none mem

theorem fits_placed {text : List Char} {n : Node} (fits : n.Fits text) {p : Placed} (mem : p ∈ placed n) :
    p.node.Fits text :=
  fits.child (node_mem_placed mem)

theorem endBy_class {p : Placed} (ends : p.node.stop ≤ size) (outer : Node) (e : Export) :
    (m.class' p outer e).EndBy size := by
  unfold class'
  apply (endBy_symbol ends _ _ _ _ _).append
  split
  · exact endBy_chunk _ _ _ _ _ _
  · apply EndBy.append
    · split
      · exact endBy_chunk _ _ _ _ _ _
      · exact endBy_empty
    · apply endBy_join
      intro o mem
      obtain ⟨n, -, rfl⟩ := List.mem_map.1 mem
      exact endBy_of_no_symbols rfl

theorem endBy_variableSymbols {n : Node} (fits : n.Fits m.text) (outer : Node) (e : Export) :
    (m.variableSymbols n outer e).EndBy (byteLength m.text) := by
  apply endBy_join
  intro o mem
  obtain ⟨p, there, rfl⟩ := List.mem_map.1 mem
  exact (endBy_symbol (fits_placed fits (List.mem_filter.1 there).1).stop_le _ _ _ _ _).append
    (endBy_chunk _ _ _ _ _ _)

theorem endBy_declaration {p : Placed} (fits : p.node.Fits m.text) {outer : Node} {e : Export} {o : Output}
    (found : m.declaration? p outer e = some o) : o.EndBy (byteLength m.text) := by
  unfold declaration? at found
  extract_lets at found
  split at found
  · exact Option.some.inj found ▸ endBy_class fits.stop_le outer e
  · split at found
    · exact Option.some.inj found ▸ (endBy_symbol fits.stop_le _ _ _ _ _).append (endBy_chunk _ _ _ _ _ _)
    · split at found
      · exact Option.some.inj found ▸ endBy_variableSymbols fits outer e
      · obtain ⟨label, -, rfl⟩ := Option.map_eq_some_iff.1 found
        exact (endBy_symbol fits.stop_le _ _ _ _ _).append (endBy_chunk _ _ _ _ _ _)

theorem endBy_exportWhole {p : Placed} (ends : p.node.stop ≤ size) (e : Export) (name key : String)
    (source : Option String) : (m.exportWhole p e name key source).EndBy size :=
  (endBy_symbol ends _ _ _ _ _).append (endBy_chunk _ _ _ _ _ _)

theorem endBy_export {p : Placed} (fits : p.node.Fits m.text) {o : Output} (found : m.export? p = some o) :
    o.EndBy (byteLength m.text) := by
  unfold export? at found
  dsimp only at found
  split at found
  · rename_i inner there
    obtain rfl := Option.some.inj found
    have own : inner.node.Fits m.text := fits_placed fits (List.mem_of_find?_eq_some there)
    cases declared : m.declaration? inner p.node ⟨true, p.node.children.any (·.kind == "default")⟩ with
    | none => exact endBy_chunk _ _ _ _ _ _
    | some o => exact endBy_declaration own declared
  · split at found
    · rename_i clause there
      obtain rfl := Option.some.inj found
      apply endBy_join
      intro o mem
      obtain ⟨q, among, rfl⟩ := List.mem_map.1 mem
      have own : q.node.Fits m.text := fits_placed (fits.childOfKind? there) (List.mem_filter.1 among).1
      exact (endBy_symbol own.stop_le _ _ _ _ _).append (endBy_chunk _ _ _ _ _ _)
    · split at found
      · exact Option.some.inj found ▸ endBy_exportWhole fits.stop_le _ _ _ _
      · split at found
        · exact Option.some.inj found ▸ endBy_exportWhole fits.stop_le _ _ _ _
        · cases found

theorem endBy_statement {p : Placed} (fits : p.node.Fits m.text) {o : Output} (found : m.statement? p = some o) :
    o.EndBy (byteLength m.text) := by
  unfold statement? at found
  split at found
  · exact endBy_export fits found
  · exact endBy_declaration fits found

theorem endBy_looseCode (pending : Option (Nat × Nat)) : (m.looseCode pending).EndBy size := by
  cases pending with
  | none => exact endBy_empty
  | some span => exact endBy_chunk _ _ _ _ _ _

theorem endBy_topLevel (l : List Placed) (each : ∀ p ∈ l, p.node.Fits m.text) :
    ∀ pending, (m.topLevel pending l).EndBy (byteLength m.text) := by
  induction l with
  | nil => exact endBy_looseCode
  | cons p rest ih =>
    intro pending
    obtain ⟨own, others⟩ := List.forall_mem_cons.1 each
    unfold topLevel
    split
    · rename_i found
      exact ((endBy_looseCode pending).append (endBy_statement own found)).append (ih others none)
    · exact ih others _

theorem endBy_docstringChunk (block : List Placed) (doc : List Char) : (m.docstringChunk block doc).EndBy size := by
  unfold docstringChunk
  split
  · split
    · exact endBy_empty
    · exact endBy_chunk _ _ _ _ _ _
  · exact endBy_empty

theorem mem_of_leadingBlock {top : List Placed} {p : Placed}
    (mem : p ∈ (leadingBlock top).1 ∨ p ∈ (leadingBlock top).2) : p ∈ top := by
  have inside : ∀ l : List Placed, p ∈ l.takeWhile (·.node.kind == "comment") ∨
      p ∈ l.dropWhile (·.node.kind == "comment") → p ∈ l := by
    rintro l (mem | mem)
    · exact (List.takeWhile_prefix _).subset mem
    · exact (List.dropWhile_suffix _).subset mem
  cases top with
  | nil => exact inside [] mem
  | cons q others =>
    unfold leadingBlock at mem
    dsimp only at mem
    split at mem
    · exact List.mem_cons_of_mem q (inside others mem)
    · exact inside (q :: others) mem

/-- Each piece of markup is handed over with a part of the text. -/
theorem endBy_delegateMarkup (genuine : Genuine m.reading.registry)
    (below : EndsBelow m.read m.reading m.path) (l : List Node) {found : Output}
    (ends : found.EndBy (byteLength m.text)) : (m.delegateMarkup l found).EndBy (byteLength m.text) := by
  induction l generalizing found with
  | nil => exact ends
  | cons n rest ih =>
    apply ih
    apply ends.append
    apply (endBy_delegate genuine below (by simp [webHandlers] : Handler.html ∈ webHandlers) rfl).mono
    exact byteLength_slice_le _ _ _

end Script.Module

namespace Script

/-- The tree that a script is read as. -/
def rootOf (dialect : Dialect) (r : Reading) (path : String) (source : LoadedSource) : Node :=
  (grammarFor r.readers dialect path).1 source.text

def moduleId (dialect : Dialect) (source : LoadedSource) : String :=
  dialect.name ++ ":module:" ++ Path.dottedName source.file.path

/-- The module that is read from a script. -/
def moduleOf (dialect : Dialect) (readSource : ReadSource) (r : Reading) (path : String) (source : LoadedSource) :
    Module :=
  ⟨dialect.name, path, source.text, LineIndex.ofText source.text, r, r.maxTokens dialect.name,
    if r.depth = 0 then some (moduleId dialect source) else none, readSource⟩

/-- What the statements of a module make, without its symbol and what markup in it holds. -/
def Module.declared (m : Module) (root : Node) : Output :=
  m.topLevel none (Module.leadingBlock ((Module.placed root).filter (·.node.named))).2

/-- What a script makes itself, before markup in it is handed over. -/
def ownOutput (dialect : Dialect) (readSource : ReadSource) (r : Reading) (path : String)
    (source : LoadedSource) : Output :=
  let root := rootOf dialect r path source
  let m := moduleOf dialect readSource r path source
  let block := (Module.leadingBlock ((Module.placed root).filter (·.node.named))).1
  let doc := m.docstring block
  (if root.failing then .ofWarning (path ++ ": " ++ dialect.name ++ " source contains syntax errors") else {}) ++
    (if r.depth = 0 then m.moduleSymbol (moduleId dialect source) (Path.dottedName source.file.path) doc
      else {}) ++
    m.docstringChunk block doc ++ m.declared root

variable {dialect : Dialect} {readSource : ReadSource} {r : Reading} {path : String} {source : LoadedSource}

theorem read_eq (loaded : r.load path dialect.name = .ok source) :
    read dialect readSource r path =
      (if (grammarFor r.readers dialect path).2 && r.registry.contains "html" then
        (moduleOf dialect readSource r path source).delegateMarkup
          (Module.markup (rootOf dialect r path source)) (ownOutput dialect readSource r path source)
      else ownOutput dialect readSource r path source).toResult source := by
  unfold read
  dsimp only
  rw [loaded]
  rfl

theorem fits_rootOf (fit : r.readers.Fit) : (rootOf dialect r path source).Fits source.text := by
  cases dialect with
  | javascript => exact fit.javascript _
  | typescript =>
    unfold rootOf grammarFor
    dsimp only
    split
    · exact fit.tsx _
    · exact fit.typescript _

theorem endBy_declared {m : Module} {root : Node} (fits : root.Fits m.text) :
    (m.declared root).EndBy (byteLength m.text) := by
  apply Module.endBy_topLevel
  intro p mem
  have among : p ∈ (Module.placed root).filter (·.node.named) := Module.mem_of_leadingBlock (.inr mem)
  exact Module.fits_placed fits (List.mem_filter.1 among).1

theorem endBy_ownOutput (fit : r.readers.Fit) :
    (ownOutput dialect readSource r path source).EndBy (byteLength source.text) := by
  unfold ownOutput
  dsimp only
  apply EndBy.append
  · apply EndBy.append
    · apply EndBy.append
      · split <;> exact endBy_of_no_symbols rfl
      · split
        · exact endBy_ofSymbol (Nat.le_refl _)
        · exact endBy_empty
    · exact Module.endBy_docstringChunk _ _
  · exact endBy_declared (m := moduleOf dialect readSource r path source) (fits_rootOf fit)

theorem endBy_read (dialect : Dialect) (fit : r.readers.Fit) (genuine : Genuine r.registry)
    (below : EndsBelow readSource r path) (loaded : r.load path dialect.name = .ok source) :
    ∀ y ∈ (read dialect readSource r path).symbols, y.endOffset ≤ byteLength source.text := by
  rw [read_eq loaded]
  split
  · exact Module.endBy_delegateMarkup (m := moduleOf dialect readSource r path source) genuine below _
      (endBy_ownOutput fit)
  · exact endBy_ownOutput fit

end Script

/-! ### All of them -/

theorem symbols_unreadable (r : Reading) (path language : String) (e : Error) {size : Nat} :
    ∀ y ∈ (r.unreadable path language e).symbols, y.endOffset ≤ size := by
  intro y mem
  cases mem

/-- However deep parts are handed on, no symbol reaches behind the text that is read. -/
theorem endOffset_le_of_readWithin (fuel : Nat) {h : Handler} (known : h ∈ webHandlers) {r : Reading}
    (fit : r.readers.Fit) (genuine : Genuine r.registry) {path : String} {source : LoadedSource}
    (loaded : r.load path h.name = .ok source) :
    ∀ y ∈ (readWithin fuel h r path).symbols, y.endOffset ≤ byteLength source.text := by
  induction fuel generalizing h r path source with
  | zero =>
    simp only [webHandlers, List.mem_cons, List.not_mem_nil, or_false] at known
    rcases known with rfl | rfl | rfl | rfl
    · exact Css.endBy_read fit loaded
    · exact symbols_unreadable r path _ _
    · exact symbols_unreadable r path _ _
    · exact symbols_unreadable r path _ _
  | succ n ih =>
    have below : EndsBelow (readWithin n) r path := by
      intro h known text
      exact ih known (r := r.delegated text) fit genuine rfl
    simp only [webHandlers, List.mem_cons, List.not_mem_nil, or_false] at known
    rcases known with rfl | rfl | rfl | rfl
    · exact Css.endBy_read fit loaded
    · exact Html.endBy_read fit genuine below loaded
    · exact Script.endBy_read .javascript fit genuine below loaded
    · exact Script.endBy_read .typescript fit genuine below loaded

theorem endsBelow_readWithin (fuel : Nat) {r : Reading} (fit : r.readers.Fit) (genuine : Genuine r.registry)
    (path : String) : EndsBelow (readWithin fuel) r path := by
  intro h known text
  exact endOffset_le_of_readWithin fuel known (r := r.delegated text) fit genuine rfl

end SourceSlices
