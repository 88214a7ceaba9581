import SourceSlices.Proofs.DelegatedIds

/-!
Which chunks name a heading. Only Markdown records headings in the metadata of chunks: whatever the other
languages make of a text, at whatever depth, names no heading and is no section.
-/
namespace SourceSlices

/-! ### Metadata -/

/-- The keys by which chunks belong to headings. -/
def headingKeys : List String := ["heading_symbol", "kind"]

namespace Metadata

variable {m : Metadata} {key : String}

/-- Metadata that name no heading and are not those of a section. -/
structure Unheaded (m : Metadata) : Prop where
  symbol : m.find? "heading_symbol" = none
  kind : m.find? "kind" ≠ some (.str "section")

theorem unheaded_of_same {m' : Metadata} (same : ∀ key ∈ headingKeys, m'.find? key = m.find? key)
    (good : m.Unheaded) : m'.Unheaded := by
  have symbol := same "heading_symbol" (by decide)
  have kind := same "kind" (by decide)
  exact ⟨symbol.trans good.symbol, kind ▸ good.kind⟩

theorem unheaded_kind {kind : String} (other : kind ≠ "section") :
    (Metadata.empty.putStr "kind" kind).Unheaded := by
  constructor
  · rfl
  · intro same
    rw [putStr, put, SortedMap.find?_insert_self] at same
    cases same
    exact other rfl

theorem Unheaded.put (good : m.Unheaded) (other : key ∉ headingKeys) (value : MetaValue) :
    (m.put key value).Unheaded :=
  unheaded_of_same (fun _ mem => find?_put_ne (ne_of_mem_of_not_mem mem other) value) good

theorem Unheaded.putStr (good : m.Unheaded) (other : key ∉ headingKeys) (value : String) :
    (m.putStr key value).Unheaded :=
  good.put other _

theorem Unheaded.putBool (good : m.Unheaded) (other : key ∉ headingKeys) (b : Bool) :
    (m.putBool key b).Unheaded :=
  good.put other _

theorem Unheaded.putLines (good : m.Unheaded) (lines : LineIndex) (start stop : Nat) :
    (m.putLines lines start stop).Unheaded :=
  (good.put (by decide) _).put (by decide) _

theorem Unheaded.putSome (good : m.Unheaded) (other : key ∉ headingKeys) (value : Option String) :
    (Delegation.putSome m key value).Unheaded := by
  cases value with
  | none => exact good
  | some v => exact good.putStr other v

/-- A kind with entries under other keys. -/
theorem unheaded_ofList {kind : String} {entries : List (String × MetaValue)} (other : kind ≠ "section")
    (others : ∀ e ∈ entries, e.1 ∉ headingKeys) : (ofList (("kind", .str kind) :: entries)).Unheaded := by
  have none (key : String) (mem : key ∈ headingKeys) : entries.reverse.find? (·.1 == key) = none := by
    apply List.find?_eq_none.2
    intro e there same
    exact others e (List.mem_reverse.1 there) (eq_of_beq same ▸ mem)
  constructor
  · rw [ofList, SortedMap.find?_ofList, List.reverse_cons, List.find?_append, none _ (by decide)]
    rfl
  · rw [ofList, SortedMap.find?_ofList, List.reverse_cons, List.find?_append, none _ (by decide)]
    intro same
    cases same
    exact other rfl

end Metadata

theorem Split.kept_chunk {count : Counter} {budget : Nat} {lines : Option LineIndex} {c p : Chunk}
    (mem : p ∈ Split.chunk count budget lines c) : p.parentSymbolId = c.parentSymbolId ∧
      ∀ key ∉ Split.partKeys, p.metadata.find? key = c.metadata.find? key := by
  obtain ⟨index, part, -, rfl⟩ := Split.mem_chunk mem
  exact ⟨rfl, fun key other => Split.find?_partChunk other⟩

/-! ### Outputs -/

/-- No chunk of an output names a heading or is a section. -/
def Output.Unheaded (o : Output) : Prop := ∀ c ∈ o.chunks, c.metadata.Unheaded

namespace Output

variable {a b : Output}

theorem unheaded_nothing : Unheaded {} := by
  intro c mem
  cases mem

theorem unheaded_ofSymbol (y : Symbol) : (ofSymbol y).Unheaded := unheaded_nothing

theorem unheaded_ofWarning (w : String) : (ofWarning w).Unheaded := unheaded_nothing

theorem Unheaded.append (first : a.Unheaded) (second : b.Unheaded) : (a ++ b).Unheaded := by
  intro c mem
  rcases List.mem_append.1 mem with mem | mem
  · exact first c mem
  · exact second c mem

theorem unheaded_join {outputs : List Output} (each : ∀ o ∈ outputs, o.Unheaded) :
    (join outputs).Unheaded := by
  induction outputs with
  | nil => exact unheaded_nothing
  | cons o rest ih =>
    obtain ⟨own, others⟩ := List.forall_mem_cons.1 each
    exact own.append (ih others)

theorem unheaded_ofChunk {count : Counter} {budget : Nat} {lines : Option LineIndex} {name : String}
    {c : Chunk} (good : c.metadata.Unheaded) : (ofChunk count budget lines name c).Unheaded := by
  intro p mem
  have others : ∀ key ∈ headingKeys, key ∉ Split.partKeys := by decide
  exact Metadata.unheaded_of_same (fun key named => (Split.kept_chunk mem).2 key (others key named)) good

theorem unheaded_trouble (failing : Bool) (w : String) :
    Unheaded (if failing then .ofWarning w else {}) := by
  split
  · exact unheaded_ofWarning w
  · exact unheaded_nothing

theorem unheaded_top {shown : Prop} [Decidable shown] (y : Symbol) :
    Unheaded (if shown then .ofSymbol y else {}) := by
  split
  · exact unheaded_ofSymbol y
  · exact unheaded_nothing

end Output

open Output

/-! ### Delegation -/

namespace Delegation

variable {read : ReadSource} {r : Reading} {path : String} {q : Request} {c : Chunk} {key : String}

/-- The keys that a delegation writes in the chunk of the part. -/
def partKeys : List String :=
  ["handler", "delegate_parent_handler", "delegate_parent_symbol", "delegate_parent_chunk",
    "delegate_status", "start_line", "end_line"]

theorem find?_shell (other : key ∉ partKeys) : q.shell.metadata.find? key = q.metadata.find? key := by
  simp only [partKeys, List.mem_cons, not_or] at other
  obtain ⟨handler, parent, symbol, chunk, -, first, last, -⟩ := other
  have link : (linkage q.delegate q.parentHandler q.parentSymbol q.parentChunk []).find? key = none := by
    simp only [linkage, List.foldl_nil]
    rw [find?_putSome_ne chunk, find?_putSome_ne symbol, Metadata.putStr, Metadata.find?_put_ne parent,
      Metadata.putStr, Metadata.find?_put_ne handler]
    rfl
  rw [Request.shell]
  dsimp only
  rw [Metadata.putNat, Metadata.find?_put_ne last, Metadata.putNat, Metadata.find?_put_ne first,
    SortedMap.find?_union, link, Option.none_or]

/-- What a part of the part keeps of the request. -/
def Request.Keeps (q : Request) (c : Chunk) : Prop :=
  c.parentSymbolId = q.parentSymbol ∧ ∀ key ∈ headingKeys, c.metadata.find? key = q.metadata.find? key

theorem keeps_chunk {budget : Nat} {whole : Chunk} (keeps : q.Keeps whole)
    (mem : c ∈ Split.chunk r.count budget none whole) : q.Keeps c := by
  have others : ∀ key ∈ headingKeys, key ∉ Split.partKeys := by decide
  obtain ⟨parent, kept⟩ := Split.kept_chunk mem
  exact ⟨parent.trans keeps.1, fun key named => (kept key (others key named)).trans (keeps.2 key named)⟩

theorem keeps_shell (q : Request) : q.Keeps q.shell := by
  have others : ∀ key ∈ headingKeys, key ∉ partKeys := by decide
  exact ⟨rfl, fun key mem => find?_shell (others key mem)⟩

theorem keeps_plain {status : Status} {warning : String}
    (mem : c ∈ (keepPlain r q status warning).output.chunks) : q.Keeps c := by
  have others : ∀ key ∈ headingKeys, key ≠ "delegate_status" ∧ key ≠ "handler" := by decide
  unfold keepPlain at mem
  apply keeps_chunk ?_ mem
  constructor
  · rfl
  · intro key named
    obtain ⟨status, handler⟩ := others key named
    dsimp only
    rw [Metadata.putStr, Metadata.find?_put_ne status, SortedMap.find?_erase_ne handler]
    exact (keeps_shell q).2 key named

/-- The handler that a part is handed to, unless something stands against that. -/
structure Request.Goes (q : Request) (r : Reading) (h : Handler) : Prop where
  available : r.registry.isAvailable q.delegate = true
  allowed : r.depth < r.config.maxDelegationDepth
  found : r.registry.instantiate q.delegate = .ok h

/-- A chunk of a delegation is one of the part or was taken over. -/
theorem delegate_chunk (mem : c ∈ (delegate read r path q).output.chunks) : q.Keeps c ∨
    ∃ h, q.Goes r h ∧ ∃ inner ∈ (read h (r.delegated q.text) path).chunks, c = q.takeChunk inner := by
  unfold delegate at mem
  split at mem
  · exact .inl (keeps_plain mem)
  · rename_i available
    split at mem
    · exact .inl (keeps_plain mem)
    · rename_i allowed
      split at mem
      · exact .inl (keeps_plain mem)
      · rename_i h found
        dsimp only at mem
        split at mem
        · rcases List.mem_append.1 mem with own | taken
          · exact .inl (keeps_chunk (keeps_shell q) own)
          · obtain ⟨inner, there, rfl⟩ := List.mem_map.1 taken
            exact .inr ⟨h, ⟨by simpa using available, by omega, found⟩, inner, there, rfl⟩
        · exact .inl (keeps_plain mem)

theorem delegate_merged {h : Handler} (goes : q.Goes r h)
    (fine : (read h (r.delegated q.text) path).errors = []) :
    (delegate read r path q).output = merge r q (read h (r.delegated q.text) path) := by
  have allowed : ¬ r.config.maxDelegationDepth ≤ r.depth := Nat.not_le.2 goes.allowed
  unfold delegate
  simp only [goes.available, goes.found, fine, allowed, Bool.not_true, Bool.false_eq_true, if_false,
    List.isEmpty_nil, if_true]

theorem delegate_symbol {y : Symbol} (mem : y ∈ (delegate read r path q).output.symbols) :
    ∃ inner : Symbol, y = q.takeSymbol inner := by
  unfold delegate at mem
  split at mem
  · cases mem
  · split at mem
    · cases mem
    · split at mem
      · cases mem
      · dsimp only at mem
        split at mem
        · obtain ⟨inner, -, rfl⟩ := List.mem_map.1 mem
          exact ⟨inner, rfl⟩
        · cases mem

theorem find?_takeChunk (other : key ∉ "handler" :: relinkKeys) (noLine : key ∉ lineKeys) :
    (q.takeChunk c).metadata.find? key = c.metadata.find? key :=
  find?_adoptChunk other noLine q q.under _ c

theorem unheaded_taken (good : c.metadata.Unheaded) : (q.takeChunk c).metadata.Unheaded := by
  have others : ∀ key ∈ headingKeys, key ∉ "handler" :: relinkKeys ∧ key ∉ lineKeys := by decide
  exact Metadata.unheaded_of_same
    (fun key mem => find?_takeChunk (others key mem).1 (others key mem).2) good

/-- Every handler but Markdown that a part may be handed to names no heading. -/
def UnheadedBelow (read : ReadSource) (r : Reading) (path : String) : Prop :=
  ∀ name h text, name ≠ "markdown" → r.registry.instantiate name = .ok h →
    (read h (r.delegated text) path).output.Unheaded

theorem unheaded_delegate (below : UnheadedBelow read r path) (other : q.delegate ≠ "markdown")
    (good : q.metadata.Unheaded) : (delegate read r path q).output.Unheaded := by
  intro c mem
  rcases delegate_chunk mem with ⟨-, same⟩ | ⟨h, goes, inner, there, rfl⟩
  · exact Metadata.unheaded_of_same same good
  · exact unheaded_taken (below q.delegate h q.text other goes.found inner there)

end Delegation

/-! ### Plain text -/

theorem Plain.unheaded_read (r : Reading) (path : String) : (Plain.read r path).output.Unheaded := by
  unfold Plain.read
  split
  · exact unheaded_nothing
  · change (Plain.output _ _ _).Unheaded
    unfold Plain.output
    split
    · exact unheaded_nothing
    · apply unheaded_join
      intro o mem
      obtain ⟨b, -, rfl⟩ := List.mem_map.1 mem
      have kinds (s : Strategy) : s.kind ≠ "section" := by cases s <;> decide
      apply unheaded_ofChunk
      exact ((Metadata.unheaded_kind (kinds _)).putStr (by decide) _).putLines _ _ _

/-! ### Style sheets -/

namespace Css

namespace Sheet

variable {s : Sheet}

theorem unheaded_putCascade {m : Metadata} (good : m.Unheaded) (cascade : Option String) :
    (putCascade m cascade).Unheaded := by
  cases cascade with
  | none => exact good
  | some c => exact good.putStr (by decide) c

theorem unheaded_piece {exact : Bool} {id : String} {start stop : Nat} {parent : Option String}
    {m : Metadata} (good : m.Unheaded) : (s.chunk exact (s.piece id start stop parent m)).Unheaded :=
  unheaded_ofChunk (good.putLines _ _ _)

theorem unheaded_comment (at' : Scope) (n : Syntax.Node) : (s.comment at' n).Unheaded :=
  unheaded_piece (unheaded_putCascade (Metadata.unheaded_kind (by decide)) _)

theorem unheaded_error (at' : Scope) (n : Syntax.Node) : (s.error at' n).Unheaded :=
  (unheaded_ofWarning _).append (unheaded_piece (Metadata.unheaded_kind (by decide)))

theorem unheaded_keyframe (at' : Scope) (n : Syntax.Node) : (s.keyframe at' n).Unheaded :=
  unheaded_piece (unheaded_putCascade ((Metadata.unheaded_kind (by decide)).putStr (by decide) _) _)

theorem unheaded_selector (n : Syntax.Node) (id : String) (body : List Char) (cascade : Option String)
    (total index : Nat) (sel : List Char) :
    (s.selector n id body cascade total index sel).Unheaded := by
  have good : Metadata.Unheaded (putCascade (Metadata.ofList [("kind", .str "rule"),
      ("selector", .str (String.ofList sel)), ("selector_index", .nat index),
      ("selector_total", .nat total), ("body", .str (String.ofList body))]) cascade) := by
    apply unheaded_putCascade
    apply Metadata.unheaded_ofList (by decide)
    simp [headingKeys]
  unfold selector
  split
  · exact unheaded_piece good
  · exact unheaded_ofChunk (good.putLines _ _ _)

theorem unheaded_ruleHead (at' : Scope) (n block : Syntax.Node) : (s.ruleHead at' n block).Unheaded := by
  apply (unheaded_ofSymbol _).append
  apply unheaded_join
  intro o mem
  obtain ⟨i, _, rfl⟩ := List.mem_mapIdx.1 mem
  exact unheaded_selector _ _ _ _ _ _ _

theorem unheaded_atRuleHead (at' : Scope) (n keyword : Syntax.Node) (body : Option Syntax.Node) :
    (s.atRuleHead at' n keyword body).Unheaded := by
  apply (unheaded_ofSymbol _).append
  apply unheaded_piece
  apply unheaded_putCascade
  apply Metadata.unheaded_ofList (by decide)
  simp [headingKeys]

mutual

theorem unheaded_visit (s : Sheet) (at' : Scope) : ∀ n : Syntax.Node, (s.visit at' n).Unheaded
  | ⟨kind, named, field, start, stop, failing, children⟩ => by
    unfold visit
    split
    · split
      · exact unheaded_nothing
      · exact (unheaded_ruleHead _ _ _).append (unheaded_visitBlock s _ children)
    · split
      · exact unheaded_comment _ _
      · split
        · exact unheaded_error _ _
        · split
          · split
            · exact unheaded_nothing
            · exact (unheaded_atRuleHead _ _ _ _).append (unheaded_visitBody s _ children)
          · exact unheaded_nothing

theorem unheaded_visitBlock (s : Sheet) (at' : Scope) :
    ∀ l : List Syntax.Node, (s.visitBlock at' l).Unheaded
  | [] => unheaded_nothing
  | ⟨kind, named, field, start, stop, failing, children⟩ :: rest => by
    unfold visitBlock
    split
    · exact unheaded_visitNested s at' children
    · exact unheaded_visitBlock s at' rest

theorem unheaded_visitNested (s : Sheet) (at' : Scope) :
    ∀ l : List Syntax.Node, (s.visitNested at' l).Unheaded
  | [] => unheaded_nothing
  | n :: rest => by
    unfold visitNested
    apply Unheaded.append ?_ (unheaded_visitNested s at' rest)
    split
    · exact unheaded_visit s at' n
    · exact unheaded_nothing

theorem unheaded_visitBody (s : Sheet) (at' : Scope) :
    ∀ l : List Syntax.Node, (s.visitBody at' l).Unheaded
  | [] => unheaded_nothing
  | ⟨kind, named, field, start, stop, failing, children⟩ :: rest => by
    unfold visitBody
    split
    · exact unheaded_visitAll s at' children
    · split
      · exact unheaded_visitFrames s at' children
      · exact unheaded_visitBody s at' rest

theorem unheaded_visitFrames (s : Sheet) (at' : Scope) :
    ∀ l : List Syntax.Node, (s.visitFrames at' l).Unheaded
  | [] => unheaded_nothing
  | n :: rest => by
    unfold visitFrames
    apply Unheaded.append ?_ (unheaded_visitFrames s at' rest)
    split
    · exact unheaded_keyframe at' n
    · exact unheaded_visit s at' n

theorem unheaded_visitAll (s : Sheet) (at' : Scope) :
    ∀ l : List Syntax.Node, (s.visitAll at' l).Unheaded
  | [] => unheaded_nothing
  | n :: rest => (unheaded_visit s at' n).append (unheaded_visitAll s at' rest)

end

end Sheet

theorem unheaded_read (r : Reading) (path : String) : (read r path).output.Unheaded := by
  unfold read
  split
  · exact unheaded_nothing
  · exact (unheaded_top _).append (Sheet.unheaded_visitAll _ _ _)

end Css

/-! ### Python -/

namespace Python

namespace Module

variable {m : Module}

theorem unheaded_chunks {id kind : String} {start stop : Nat} {parent : Option String} {label : String}
    {more : Metadata → Metadata} (other : kind ≠ "section")
    (kept : ∀ d : Metadata, d.Unheaded → (more d).Unheaded) :
    (m.chunks id kind start stop parent label more).Unheaded := by
  intro c mem
  obtain ⟨p, made, rfl⟩ := List.mem_map.1 mem
  apply kept
  apply unheaded_ofChunk ?_ p made
  exact ((Metadata.unheaded_kind other).putStr (by decide) label).putLines _ _ _

theorem unheaded_putList {d : Metadata} {key : String} (good : d.Unheaded) (other : key ∉ headingKeys)
    (items : List String) : (putList d key items).Unheaded := by
  unfold putList
  split
  · exact good
  · exact good.put other _

theorem unheaded_define (scope : Scope) (d : Definition) (name : String) :
    (m.define scope d name).Unheaded := by
  apply (unheaded_ofSymbol _).append
  apply unheaded_chunks
  · cases d.isClass <;> decide
  · intro c good
    apply unheaded_putList ?_ (by decide)
    split
    · exact good.putBool (by decide) true
    · exact good

mutual

theorem unheaded_visit (m : Module) (scope : Scope) : ∀ n : Syntax.Node, (m.visit scope n).Unheaded
  | ⟨kind, named, field, start, stop, failing, children⟩ => by
    unfold visit
    split
    · exact unheaded_nothing
    · apply (unheaded_define _ _ _).append
      split
      · exact unheaded_visitDecorated m _ children
      · exact unheaded_visitBody m _ children

theorem unheaded_visitDecorated (m : Module) (scope : Scope) :
    ∀ l : List Syntax.Node, (m.visitDecorated scope l).Unheaded
  | [] => unheaded_nothing
  | ⟨kind, named, field, start, stop, failing, children⟩ :: rest => by
    unfold visitDecorated
    split
    · exact unheaded_visitBody m scope children
    · exact unheaded_visitDecorated m scope rest

theorem unheaded_visitBody (m : Module) (scope : Scope) :
    ∀ l : List Syntax.Node, (m.visitBody scope l).Unheaded
  | [] => unheaded_nothing
  | ⟨kind, named, field, start, stop, failing, children⟩ :: rest => by
    unfold visitBody
    split
    · exact unheaded_visitBlock m scope _ children
    · exact unheaded_visitBody m scope rest

theorem unheaded_visitBlock (m : Module) (scope : Scope) (skipsFirst : Bool) :
    ∀ l : List Syntax.Node, (m.visitBlock scope skipsFirst l).Unheaded
  | [] => unheaded_nothing
  | n :: rest => by
    unfold visitBlock
    split
    · exact unheaded_visitBlock m scope skipsFirst rest
    · split
      · exact unheaded_visitBlock m scope false rest
      · exact (unheaded_visit m scope n).append (unheaded_visitBlock m scope false rest)

end

theorem unheaded_looseCode (scope : Scope) (pending : Option (Nat × Nat)) :
    (m.looseCode scope pending).Unheaded := by
  cases pending with
  | none => exact unheaded_nothing
  | some span => exact unheaded_chunks (by decide) fun _ good => good

theorem unheaded_topLevel (scope : Scope) (l : List Syntax.Node) (pending : Option (Nat × Nat)) :
    (m.topLevel scope pending l).Unheaded := by
  induction l generalizing pending with
  | nil => exact unheaded_looseCode scope pending
  | cons n rest ih =>
    unfold topLevel
    split
    · exact ih _
    · apply (unheaded_looseCode scope pending).append
      split
      · exact (unheaded_visit m scope n).append (ih none)
      · exact ih _

theorem unheaded_docstringChunk (scope : Scope) (name : String) (root : Syntax.Node) :
    (m.docstringChunk scope name root).Unheaded := by
  unfold docstringChunk
  split
  · exact unheaded_chunks (by decide) fun _ good => good
  · exact unheaded_nothing

end Module

theorem unheaded_read (r : Reading) (path : String) : (read r path).output.Unheaded := by
  unfold read
  split
  · exact unheaded_nothing
  · exact (((unheaded_trouble _ _).append (unheaded_top _)).append
      (Module.unheaded_docstringChunk _ _ _)).append (Module.unheaded_topLevel _ _ _)

end Python

/-! ### HTML -/

namespace Html

theorem scriptDelegate_ne {scriptType : Option String} {delegate : String}
    (found : scriptDelegate scriptType = some delegate) : delegate ≠ "markdown" := by
  unfold scriptDelegate at found
  split at found
  · cases found
    decide
  · split at found
    · cases found
      decide
    · split at found
      · cases found
        decide
      · cases found

namespace Page

open Delegation

variable {p : Page} {parent : Option String}

theorem unheaded_chunk {exact : Bool} {c : Chunk} (good : c.metadata.Unheaded) :
    (p.chunk exact c).Unheaded :=
  unheaded_ofChunk (good.putLines _ _ _)

theorem unheaded_element (n : Syntax.Node) (tag kind : String) (parent : Option String) :
    (p.element n tag kind parent).Unheaded := by
  apply (unheaded_ofSymbol _).append
  apply unheaded_chunk
  constructor
  · rw [Metadata.putStr, Metadata.find?_put_ne (by decide)]
    simp only [List.foldl_cons, List.foldl_nil]
    rw [find?_putSome_ne (by decide), find?_putSome_ne (by decide),
      Metadata.find?_putLines_ne (by decide) (by decide), Metadata.putStr,
      Metadata.find?_put_ne (by decide)]
    rfl
  · rw [Metadata.putStr, Metadata.put, SortedMap.find?_insert_self]
    decide

theorem unheaded_inlineText {n : Syntax.Node} (other : n.kind ≠ "section") :
    (p.inlineText n parent).Unheaded := by
  unfold inlineText
  dsimp only
  split
  · exact unheaded_nothing
  · exact unheaded_chunk (Metadata.unheaded_kind other)

theorem inline_ne (kind : String) : "inline_" ++ kind ≠ "section" := by
  intro same
  have first := congrArg (fun s => s.toList.head?) same
  simp at first

theorem unheaded_plainInline (raw : Syntax.Node) (kind : String) (body : List Char) (symbolId : String)
    (delegate : Option String) : (p.plainInline raw kind body symbolId delegate).Unheaded := by
  apply unheaded_chunk
  have good := Metadata.unheaded_kind (inline_ne kind)
  cases delegate with
  | none => exact good
  | some d => exact (good.putStr (by decide) _).putStr (by decide) d

theorem unheaded_delegateBody (below : UnheadedBelow p.read p.reading p.path) (n raw : Syntax.Node)
    (tag : String) {kind delegate : String} (body : List Char) (section' : kind ≠ "section")
    (other : delegate ≠ "markdown") : (p.delegateBody n raw tag kind delegate body).Unheaded := by
  unfold delegateBody
  split
  · exact (unheaded_plainInline _ _ _ _ _).append (unheaded_ofWarning _)
  · exact unheaded_delegate below other ((Metadata.unheaded_kind section').putStr (by decide) _)

theorem unheaded_embedded (below : UnheadedBelow p.read p.reading p.path) (n : Syntax.Node)
    {kind : String} (section' : kind ≠ "section") : (p.embedded n kind parent).Unheaded := by
  unfold embedded
  dsimp only
  apply (unheaded_element _ _ _ _).append
  split
  · exact unheaded_nothing
  · split
    · exact unheaded_nothing
    · split
      · split
        · rename_i delegate found
          exact unheaded_delegateBody below _ _ _ _ section' (scriptDelegate_ne found)
        · exact unheaded_plainInline _ _ _ _ _
      · exact unheaded_delegateBody below _ _ _ _ section' (by decide)

mutual

theorem unheaded_visit (p : Page) (below : UnheadedBelow p.read p.reading p.path)
    (parent : Option String) : ∀ n : Syntax.Node, (p.visit parent n).Unheaded
  | ⟨kind, named, field, start, stop, failing, children⟩ => by
    unfold visit
    split
    · exact unheaded_embedded below _ (by decide)
    · split
      · exact unheaded_embedded below _ (by decide)
      · split
        · split
          · split
            · exact (unheaded_element _ _ _ _).append (unheaded_visitNamed p below _ children)
            · exact unheaded_visitNamed p below parent children
          · exact unheaded_visitNamed p below parent children
        · split
          · rename_i inline
            apply unheaded_inlineText
            rintro rfl
            revert inline
            decide
          · exact unheaded_visitNamed p below parent children

theorem unheaded_visitNamed (p : Page) (below : UnheadedBelow p.read p.reading p.path)
    (parent : Option String) : ∀ l : List Syntax.Node, (p.visitNamed parent l).Unheaded
  | [] => unheaded_nothing
  | n :: rest => by
    unfold visitNamed
    apply Unheaded.append ?_ (unheaded_visitNamed p below parent rest)
    split
    · exact unheaded_visit p below parent n
    · exact unheaded_nothing

end

end Page

theorem unheaded_read {readSource : ReadSource} {r : Reading} {path : String}
    (below : Delegation.UnheadedBelow readSource r path) :
    (read readSource r path).output.Unheaded := by
  unfold read
  split
  · exact unheaded_nothing
  · rename_i source _
    let page : Page :=
      ⟨path, source.text, LineIndex.ofText source.text, r, r.maxTokens "html", readSource⟩
    exact ((unheaded_top _).append (unheaded_trouble _ _)).append
      (Page.unheaded_visitNamed page below _ _)

end Html

/-! ### Script languages -/

namespace Script

namespace Module

variable {m : Module}

theorem unheaded_chunk {label kind : String} {start stop : Nat} {parent : Option String} {name : String}
    (other : kind ≠ "section") : (m.chunk label kind start stop parent name).Unheaded :=
  unheaded_ofChunk ((Metadata.unheaded_kind other).putLines _ _ _)

/-- A symbol with the chunk that belongs to it. -/
theorem unheaded_pair {name kind : String} {before : Option Syntax.Node} {n : Syntax.Node} {e : Export}
    {d : Metadata} {label kind' : String} {start stop : Nat} {parent : Option String} {name' : String}
    (other : kind' ≠ "section") :
    (m.symbol name kind before n e d ++ m.chunk label kind' start stop parent name').Unheaded :=
  (unheaded_ofSymbol _).append (unheaded_chunk other)

theorem unheaded_method (className classId : String) (n : Syntax.Node) :
    (m.method className classId n).Unheaded := by
  intro c mem
  obtain ⟨p, made, rfl⟩ := List.mem_map.1 mem
  have own : p.metadata.Unheaded := unheaded_chunk (by decide) p made
  exact (own.putStr (by decide) _).putStr (by decide) _

theorem unheaded_class (p : Placed) (outer : Syntax.Node) (e : Export) :
    (m.class' p outer e).Unheaded := by
  unfold class'
  dsimp only
  apply (unheaded_ofSymbol _).append
  split
  · exact unheaded_chunk (by decide)
  · apply Unheaded.append
    · split
      · exact unheaded_chunk (by decide)
      · exact unheaded_nothing
    · apply unheaded_join
      intro o mem
      obtain ⟨n, -, rfl⟩ := List.mem_map.1 mem
      exact unheaded_method _ _ n

theorem unheaded_variableSymbols (n outer : Syntax.Node) (e : Export) :
    (m.variableSymbols n outer e).Unheaded := by
  apply unheaded_join
  intro o mem
  obtain ⟨p, -, rfl⟩ := List.mem_map.1 mem
  apply unheaded_pair
  split <;> decide

theorem plainLabel_ne {kind label : String} (found : plainLabel? kind = some label) :
    label ≠ "section" := by
  unfold plainLabel? at found
  split at found
  · cases found
    decide
  · split at found
    · cases found
      decide
    · split at found
      · cases found
        decide
      · cases found

theorem unheaded_declaration {p : Placed} {outer : Syntax.Node} {e : Export} {o : Output}
    (found : m.declaration? p outer e = some o) : o.Unheaded := by
  unfold declaration? at found
  dsimp only at found
  split at found
  · cases found
    exact unheaded_class p outer e
  · split at found
    · cases found
      exact unheaded_pair (by decide)
    · split at found
      · cases found
        exact unheaded_variableSymbols p.node outer e
      · obtain ⟨label, plain, rfl⟩ := Option.map_eq_some_iff.1 found
        exact unheaded_pair (plainLabel_ne plain)

theorem unheaded_export {p : Placed} {o : Output} (found : m.export? p = some o) : o.Unheaded := by
  unfold export? at found
  dsimp only at found
  split at found
  · rename_i inner _
    cases found
    cases declared : m.declaration? inner p.node ⟨true, p.node.children.any (·.kind == "default")⟩ with
    | none => exact unheaded_chunk (by decide)
    | some o => exact unheaded_declaration declared
  · split at found
    · cases found
      apply unheaded_join
      intro o mem
      obtain ⟨q, -, rfl⟩ := List.mem_map.1 mem
      exact unheaded_pair (by decide)
    · split at found
      · cases found
        exact unheaded_pair (by decide)
      · split at found
        · cases found
          exact unheaded_pair (by decide)
        · cases found

theorem unheaded_statement {p : Placed} {o : Output} (found : m.statement? p = some o) :
    o.Unheaded := by
  unfold statement? at found
  split at found
  · exact unheaded_export found
  · exact unheaded_declaration found

theorem unheaded_looseCode (pending : Option (Nat × Nat)) : (m.looseCode pending).Unheaded := by
  cases pending with
  | none => exact unheaded_nothing
  | some span => exact unheaded_chunk (by decide)

theorem unheaded_topLevel (l : List Placed) (pending : Option (Nat × Nat)) :
    (m.topLevel pending l).Unheaded := by
  induction l generalizing pending with
  | nil => exact unheaded_looseCode pending
  | cons p rest ih =>
    unfold topLevel
    split
    · rename_i found
      exact ((unheaded_looseCode pending).append (unheaded_statement found)).append (ih none)
    · exact ih _

theorem unheaded_docstringChunk (block : List Placed) (doc : List Char) :
    (m.docstringChunk block doc).Unheaded := by
  unfold docstringChunk
  split
  · split
    · exact unheaded_nothing
    · exact unheaded_chunk (by decide)
  · exact unheaded_nothing

theorem unheaded_delegateMarkup (below : Delegation.UnheadedBelow m.read m.reading m.path)
    (l : List Syntax.Node) {found : Output} (good : found.Unheaded) :
    (m.delegateMarkup l found).Unheaded := by
  induction l generalizing found with
  | nil => exact good
  | cons n rest ih =>
    have other : "html" ≠ "markdown" := by decide
    apply ih
    apply good.append
    exact Delegation.unheaded_delegate below other (Metadata.unheaded_kind (by decide))

end Module

theorem unheaded_read {dialect : Dialect} {readSource : ReadSource} {r : Reading} {path : String}
    (below : Delegation.UnheadedBelow readSource r path) :
    (read dialect readSource r path).output.Unheaded := by
  unfold read
  dsimp only
  split
  · exact unheaded_nothing
  · rename_i source _
    let m : Module := ⟨dialect.name, path, source.text, LineIndex.ofText source.text, r,
      r.maxTokens dialect.name,
      if r.depth = 0 then some (dialect.name ++ ":module:" ++ Path.dottedName source.file.path) else none,
      readSource⟩
    have found {trouble top : Output} (quiet : trouble.Unheaded) (own : top.Unheaded)
        (block rest : List Module.Placed) (doc : List Char) :
        (trouble ++ top ++ m.docstringChunk block doc ++ m.topLevel none rest).Unheaded :=
      ((quiet.append own).append (Module.unheaded_docstringChunk _ _)).append
        (Module.unheaded_topLevel _ _)
    dsimp only [HandlerResult.output, Output.toResult]
    split
    · apply Module.unheaded_delegateMarkup (m := m) below
      exact found (unheaded_trouble _ _) (unheaded_top _) _ _ _
    · exact found (unheaded_trouble _ _) (unheaded_top _) _ _ _

end Script

/-! ### All languages but Markdown -/

theorem not_markdown {r : Registry} (languages : r.descriptors = Descriptor.defaults) {name : String}
    {h : Handler} (other : name ≠ "markdown") (found : r.instantiate name = .ok h) : h ≠ .markdown := by
  unfold Registry.instantiate at found
  split at found
  · rename_i d there
    cases found
    have named : d.name = name := by simpa using List.find?_some there
    have listed : d ∈ Descriptor.defaults := languages ▸ List.mem_of_find?_eq_some there
    intro same
    apply other
    rw [← named]
    simp only [Descriptor.defaults, List.mem_cons, List.not_mem_nil, or_false] at listed
    rcases listed with rfl | rfl | rfl | rfl | rfl | rfl | rfl <;> first | rfl | cases same
  · cases found

/-- However many delegations are allowed below it, no language but Markdown names a heading. -/
theorem unheaded_readWithin (fuel : Nat) {h : Handler}
    (language : h ∈ Descriptor.defaults.map (·.handler)) (other : h ≠ .markdown) {r : Reading}
    (languages : r.registry.descriptors = Descriptor.defaults) (path : String) :
    (readWithin fuel h r path).output.Unheaded := by
  induction fuel generalizing h r path with
  | zero =>
    cases h with
    | text => exact Plain.unheaded_read r path
    | css => exact Css.unheaded_read r path
    | python => exact Python.unheaded_read r path
    | fixed => simp [Descriptor.defaults] at language
    | _ => exact unheaded_nothing
  | succ n ih =>
    have below : Delegation.UnheadedBelow (readWithin n) r path := by
      intro name h text different found
      exact ih (mem_languages languages found) (not_markdown languages different found)
        (r := r.delegated text) languages path
    cases h with
    | text => exact Plain.unheaded_read r path
    | css => exact Css.unheaded_read r path
    | python => exact Python.unheaded_read r path
    | fixed => simp [Descriptor.defaults] at language
    | markdown => exact absurd rfl other
    | html => exact Html.unheaded_read below
    | javascript => exact Script.unheaded_read below
    | typescript => exact Script.unheaded_read below

end SourceSlices
