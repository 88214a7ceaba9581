import SourceSlices.Proofs.EmbeddedLines
import SourceSlices.Proofs.LinkedResults
import SourceSlices.Proofs.SymbolRanges

/-!
The owners of markup in a script. Each outermost piece is handed over once, in the order of the text, under the
smallest symbol around it. The symbols that earlier pieces bring in count their offsets within their piece, so
none of them reaches as far as a later piece. The symbol of the module comes first, and a declaration that is
as long as the whole text does not displace it.
-/
namespace SourceSlices

open Text Syntax Delegation Output

namespace Script

/-! ### Outermost markup -/

/-- Markup that is reached through named nodes which are none. -/
inductive Outermost (d : Node) : Node → Prop
  | self : markupKinds.contains d.kind = true → Outermost d d
  | inside {n c : Node} : markupKinds.contains n.kind = false → c ∈ n.namedChildren → Outermost d c →
      Outermost d n

namespace Module

theorem markup_eq (n : Node) : markup n = if markupKinds.contains n.kind then [n] else markupIn n.children := by
  cases n
  rw [markup]

theorem mem_markupIn {d : Node} (l : List Node) : d ∈ markupIn l ↔ ∃ c ∈ l, c.named = true ∧ d ∈ markup c := by
  induction l with
  | nil => simp [markupIn]
  | cons n rest ih =>
    rw [markupIn, List.mem_append, ih]
    cases named : n.named <;> simp [named]

theorem outermost_of_mem {text : List Char} {n d : Node} (fits : n.Fits text) (mem : d ∈ markup n) :
    Outermost d n := by
  induction fits with
  | @mk n first last ordered inside apart children ih =>
    rw [markup_eq] at mem
    split at mem
    · rename_i kind
      rw [List.mem_singleton.1 mem]
      exact .self kind
    · rename_i kind
      obtain ⟨c, there, named, mem⟩ := (mem_markupIn n.children).1 mem
      exact .inside (Bool.eq_false_iff.2 kind) (List.mem_filter.2 ⟨there, named⟩) (ih c there mem)

theorem mem_of_outermost {n d : Node} (outermost : Outermost d n) : d ∈ markup n := by
  induction outermost with
  | self kind =>
    rw [markup_eq, if_pos kind]
    exact List.mem_singleton_self d
  | @inside n c kind mem _ ih =>
    obtain ⟨there, named⟩ := List.mem_filter.1 mem
    rw [markup_eq, if_neg (Bool.eq_false_iff.1 kind)]
    exact (mem_markupIn n.children).2 ⟨c, there, named, ih⟩

/-- Two pieces of markup lie in the same node, or in two of which one ends before the other begins. -/
theorem markupIn_ordered {l : List Node} (apart : l.Pairwise fun a b => a.stop ≤ b.start)
    (inside : ∀ c ∈ l, ∀ d ∈ markup c, c.start ≤ d.start ∧ d.stop ≤ c.stop)
    (each : ∀ c ∈ l, (markup c).Pairwise fun a b => a.stop ≤ b.start) :
    (markupIn l).Pairwise fun a b => a.stop ≤ b.start := by
  induction l with
  | nil => exact .nil
  | cons n rest ih =>
    obtain ⟨behind, apart⟩ := List.pairwise_cons.1 apart
    have later := ih apart (fun c mem => inside c (List.mem_cons_of_mem n mem))
      fun c mem => each c (List.mem_cons_of_mem n mem)
    rw [markupIn]
    split
    · apply List.pairwise_append.2
      refine ⟨each n List.mem_cons_self, later, ?_⟩
      intro a first b second
      obtain ⟨c, there, -, second⟩ := (mem_markupIn rest).1 second
      have upper := inside n List.mem_cons_self a first
      have lower := inside c (List.mem_cons_of_mem n there) b second
      have between := behind c there
      omega
    · exact later

/-- Markup inside a node lies in it, and one piece behind the other. -/
theorem markup_ordered {text : List Char} {n : Node} (fits : n.Fits text) :
    (∀ d ∈ markup n, d.Fits text ∧ n.start ≤ d.start ∧ d.stop ≤ n.stop) ∧
      (markup n).Pairwise fun a b => a.stop ≤ b.start := by
  induction fits with
  | @mk n first last ordered inside apart children ih =>
    rw [markup_eq]
    split
    · refine ⟨?_, List.pairwise_singleton _ _⟩
      intro d mem
      rw [List.mem_singleton.1 mem]
      exact ⟨.mk first last ordered inside apart children, Nat.le_refl _, Nat.le_refl _⟩
    · constructor
      · intro d mem
        obtain ⟨c, there, -, mem⟩ := (mem_markupIn n.children).1 mem
        obtain ⟨fits, start, stop⟩ := (ih c there).1 d mem
        have := inside c there
        exact ⟨fits, by omega, by omega⟩
      · apply markupIn_ordered apart
        · intro c there d mem
          exact ((ih c there).1 d mem).2
        · intro c there
          exact (ih c there).2

/-! ### The symbol around a piece of markup -/

end Module

end Script

/-- A span lies within the span of a symbol. -/
def Symbol.Around (y : Symbol) (start stop : Nat) : Prop := y.startOffset ≤ start ∧ stop ≤ y.endOffset

instance (y : Symbol) (start stop : Nat) : Decidable (y.Around start stop) :=
  inferInstanceAs (Decidable (_ ∧ _))

def Symbol.length (y : Symbol) : Nat := y.endOffset - y.startOffset

namespace Script.Module

/-- The first among the shortest symbols around a span. -/
structure Innermost (symbols : List Symbol) (start stop : Nat) (before : List Symbol) (s : Symbol)
    (after : List Symbol) : Prop where
  split : symbols = before ++ s :: after
  around : s.Around start stop
  shorter : ∀ t ∈ before, t.Around start stop → s.length < t.length
  least : ∀ t ∈ after, t.Around start stop → s.length ≤ t.length

/-- A step of the search: the next symbol displaces one that is longer. -/
def closer (best : Option Symbol) (s : Symbol) : Option Symbol :=
  match best with
  | none => some s
  | some b => if s.endOffset - s.startOffset < b.endOffset - b.startOffset then some s else best

variable {symbols : List Symbol} {start stop : Nat}

theorem enclosing_eq (m : Module) (symbols : List Symbol) (start stop : Nat) :
    m.enclosing symbols start stop =
      ((((symbols.filter fun s => s.startOffset ≤ start && stop ≤ s.endOffset).foldl closer none).map
        (·.symbolId)).orElse fun _ => m.symbolId) := rfl

theorem foldl_closer (l : List Symbol) (b : Symbol) : ∃ before s after, b :: l = before ++ s :: after ∧
    l.foldl closer (some b) = some s ∧ (∀ t ∈ before, s.length < t.length) ∧
      ∀ t ∈ after, s.length ≤ t.length := by
  induction l generalizing b with
  | nil => exact ⟨[], b, [], rfl, rfl, by simp, by simp⟩
  | cons a rest ih =>
    by_cases shorter : a.length < b.length
    · have step : closer (some b) a = some a := if_pos shorter
      obtain ⟨before, s, after, split, found, first, last⟩ := ih a
      refine ⟨b :: before, s, after, congrArg (b :: ·) split, by rw [List.foldl_cons, step, found], ?_, last⟩
      apply List.forall_mem_cons.2 ⟨_, first⟩
      -- The one that is found is the new one or shorter.
      cases before with
      | nil =>
        rw [← (List.cons.inj split).1]
        exact shorter
      | cons c others =>
        have own := first c List.mem_cons_self
        rw [← (List.cons.inj split).1] at own
        omega
    · have step : closer (some b) a = some b := if_neg shorter
      obtain ⟨before, s, after, split, found, first, last⟩ := ih b
      cases before with
      | nil =>
        obtain ⟨rfl, rfl⟩ := List.cons.inj split
        refine ⟨[], b, a :: rest, rfl, by rw [List.foldl_cons, step, found], by simp, ?_⟩
        exact List.forall_mem_cons.2 ⟨by omega, last⟩
      | cons c others =>
        obtain ⟨rfl, behind⟩ := List.cons.inj split
        refine ⟨b :: a :: others, s, after, by rw [behind]; rfl, by rw [List.foldl_cons, step, found], ?_, last⟩
        obtain ⟨own, others⟩ := List.forall_mem_cons.1 first
        exact List.forall_mem_cons.2 ⟨own, List.forall_mem_cons.2 ⟨by omega, others⟩⟩

theorem around_iff {y : Symbol} :
    (decide (y.startOffset ≤ start) && decide (stop ≤ y.endOffset)) = true ↔ y.Around start stop := by
  rw [Bool.and_eq_true, decide_eq_true_iff, decide_eq_true_iff]
  rfl

variable {m : Module}

theorem enclosing_none (none : ∀ y ∈ symbols, ¬ y.Around start stop) :
    m.enclosing symbols start stop = m.symbolId := by
  have nothing : (symbols.filter fun s => s.startOffset ≤ start && stop ≤ s.endOffset) = [] := by
    rw [List.filter_eq_nil_iff]
    intro y mem
    exact mt around_iff.1 (none y mem)
  rw [enclosing_eq, nothing]
  rfl

theorem enclosing_some (some : ∃ y ∈ symbols, y.Around start stop) : ∃ before s after,
    Innermost symbols start stop before s after ∧ m.enclosing symbols start stop = .some s.symbolId := by
  obtain ⟨y, mem, around⟩ := some
  have there : y ∈ symbols.filter fun s => s.startOffset ≤ start && stop ≤ s.endOffset :=
    List.mem_filter.2 ⟨mem, around_iff.2 around⟩
  obtain ⟨b, rest, filtered⟩ := List.exists_cons_of_ne_nil (List.ne_nil_of_mem there)
  obtain ⟨before, s, after, split, found, first, last⟩ := foldl_closer rest b
  rw [← filtered] at split
  obtain ⟨front, back, rfl, own, behind⟩ := List.filter_eq_append_iff.1 split
  obtain ⟨skipped, others, rfl, out, inside, later⟩ := List.filter_eq_cons_iff.1 behind
  have name : m.enclosing (front ++ (skipped ++ s :: others)) start stop = .some s.symbolId := by
    rw [enclosing_eq, filtered, List.foldl_cons]
    exact congrArg (fun best => (Option.map (·.symbolId) best).orElse fun _ => m.symbolId) found
  refine ⟨front ++ skipped, s, others, ⟨by simp, around_iff.1 inside, ?_, ?_⟩, name⟩
  · intro t mem around
    rcases List.mem_append.1 mem with mem | mem
    · exact first t (own ▸ List.mem_filter.2 ⟨mem, around_iff.2 around⟩)
    · exact absurd (around_iff.2 around) (out t mem)
  · intro t mem around
    exact last t (later ▸ List.mem_filter.2 ⟨mem, around_iff.2 around⟩)

/-! ### Handing over -/

/-- A piece of markup as it is handed over under an owner. -/
def request (m : Module) (n : Node) (owner : Option String) : Delegation.Request :=
  { delegate := "html", parentHandler := m.name, component := some "jsx", text := m.slice n
    startOffset := n.start, endOffset := n.stop, startLine := m.lines.line n.start, parentSymbol := owner
    metadata := kindOnly "jsx" }

/-- What comes back. -/
def handed (m : Module) (q : Delegation.Request) : Output := (delegate m.read m.reading m.path q).output

/-- Pieces of markup, each under the innermost of some symbols. -/
def requests (m : Module) (own : List Symbol) (l : List Node) : List Delegation.Request :=
  l.map fun n => m.request n (m.enclosing own n.start n.stop)

theorem delegateMarkup_cons (n : Node) (rest : List Node) (found : Output) :
    m.delegateMarkup (n :: rest) found = m.delegateMarkup rest
      (found ++ m.handed (m.request n (m.enclosing found.symbols n.start n.stop))) := rfl

theorem handed_ends (genuine : Genuine m.reading.registry) (below : EndsBelow m.read m.reading m.path) {n : Node}
    (fits : n.Fits m.text) (owner : Option String) : (m.handed (m.request n owner)).EndBy n.stop := by
  have html : Handler.html ∈ webHandlers := by simp [webHandlers]
  have ends := endBy_delegate (q := m.request n owner) genuine below html rfl
  apply ends.mono
  cases fits with
  | mk first last ordered =>
    obtain ⟨-, -, -, -, stop⟩ := first.around last ordered
    change byteLength (Text.slice m.text n.start n.stop) ≤ n.stop
    omega

theorem not_around_of_end {y : Symbol} {low : Nat} (ends : y.endOffset ≤ low) (later : low ≤ start)
    (some : start < stop) : ¬ y.Around start stop := by
  rintro ⟨-, last⟩
  omega

theorem enclosing_append {own merged : List Symbol} (apart : ∀ y ∈ merged, ¬ y.Around start stop) :
    m.enclosing (own ++ merged) start stop = m.enclosing own start stop := by
  have nothing : (merged.filter fun s => s.startOffset ≤ start && stop ≤ s.endOffset) = [] := by
    rw [List.filter_eq_nil_iff]
    intro y mem
    exact mt around_iff.1 (apart y mem)
  rw [enclosing_eq, List.filter_append, nothing, List.append_nil]
  rfl

/-- What earlier pieces bring in ends before the next piece begins, so the search only finds own symbols. -/
theorem delegateMarkup_eq (genuine : Genuine m.reading.registry) (below : EndsBelow m.read m.reading m.path)
    {l : List Node} (fits : ∀ n ∈ l, n.Fits m.text) (solid : ∀ n ∈ l, n.start < n.stop)
    (apart : l.Pairwise fun a b => a.stop ≤ b.start) {own merged : List Symbol} {found : Output}
    (symbols : found.symbols = own ++ merged) {low : Nat} (early : ∀ y ∈ merged, y.endOffset ≤ low)
    (later : ∀ n ∈ l, low ≤ n.start) :
    m.delegateMarkup l found = found ++ .join ((m.requests own l).map m.handed) := by
  induction l generalizing merged found low with
  | nil => exact (append_empty found).symm
  | cons n rest ih =>
    obtain ⟨behind, apart⟩ := List.pairwise_cons.1 apart
    obtain ⟨own', fits⟩ := List.forall_mem_cons.1 fits
    obtain ⟨some, solid⟩ := List.forall_mem_cons.1 solid
    obtain ⟨first, -⟩ := List.forall_mem_cons.1 later
    have owner : m.enclosing found.symbols n.start n.stop = m.enclosing own n.start n.stop := by
      rw [symbols]
      apply enclosing_append
      intro y mem
      exact not_around_of_end (early y mem) first some
    have brought := handed_ends genuine below own' (m.enclosing own n.start n.stop)
    rw [delegateMarkup_cons, owner, requests, List.map_cons, List.map_cons, Output.join, ← append_assoc]
    generalize m.handed (m.request n (m.enclosing own n.start n.stop)) = out at brought ⊢
    have symbols' : (found ++ out).symbols = own ++ (merged ++ out.symbols) := by
      rw [symbols_append, symbols, List.append_assoc]
    have early' : ∀ y ∈ merged ++ out.symbols, y.endOffset ≤ n.stop := by
      intro y mem
      rcases List.mem_append.1 mem with mem | mem
      · have := early y mem
        omega
      · exact brought y mem
    exact ih fits solid apart symbols' early' behind

/-- Nothing that an earlier piece brings in is around a later one. -/
theorem handed_apart (genuine : Genuine m.reading.registry) (below : EndsBelow m.read m.reading m.path)
    {l : List Node} (fits : ∀ n ∈ l, n.Fits m.text) (solid : ∀ n ∈ l, n.start < n.stop)
    (apart : l.Pairwise fun a b => a.stop ≤ b.start) (own : List Symbol) :
    (m.requests own l).Pairwise fun q q' =>
      ∀ y ∈ (m.handed q).symbols, ¬ y.Around q'.startOffset q'.endOffset := by
  rw [requests, List.pairwise_map]
  apply apart.imp_of_mem
  intro a b first second between y mem
  exact not_around_of_end (handed_ends genuine below (fits a first) _ y mem) between (solid b second)

/-! ### Owners -/

/-- The shortest declaration around a span, or what stands around all of them. -/
inductive Nearest (declared : List Symbol) (start stop : Nat) (outer : Option String) : Option String → Prop
  | own {y : Symbol} : y ∈ declared → y.Around start stop →
      (∀ z ∈ declared, z.Around start stop → y.length ≤ z.length) →
      Nearest declared start stop outer (some y.symbolId)
  | outer : (∀ y ∈ declared, ¬ y.Around start stop) → Nearest declared start stop outer outer

/-- The declarations around a span are as long as the whole text. -/
def Filled (declared : List Symbol) (start stop size : Nat) : Prop :=
  (∃ y ∈ declared, y.Around start stop) ∧ ∀ y ∈ declared, y.Around start stop → size ≤ y.length

/-- A piece goes to the nearest declaration, but to the module if only one as long as the text is around. -/
def Owned (m : Module) (declared : List Symbol) (q : Delegation.Request) : Prop :=
  (m.reading.depth = 0 ∧ Filled declared q.startOffset q.endOffset (byteLength m.text) →
      q.parentSymbol = m.symbolId) ∧
    (¬ (m.reading.depth = 0 ∧ Filled declared q.startOffset q.endOffset (byteLength m.text)) →
      Nearest declared q.startOffset q.endOffset m.symbolId q.parentSymbol)

theorem nearest_enclosing (m : Module) (declared : List Symbol) (start stop : Nat) :
    Nearest declared start stop m.symbolId (m.enclosing declared start stop) := by
  by_cases some : ∃ y ∈ declared, y.Around start stop
  · obtain ⟨before, s, after, inner, name⟩ := enclosing_some (m := m) some
    rw [name]
    apply Nearest.own (by simp [inner.split]) inner.around
    intro z mem around
    rw [inner.split] at mem
    rcases List.mem_append.1 mem with mem | mem
    · exact Nat.le_of_lt (inner.shorter z mem around)
    · rcases List.mem_cons.1 mem with rfl | mem
      · exact Nat.le_refl _
      · exact inner.least z mem around
  · have none : ∀ y ∈ declared, ¬ y.Around start stop := fun y mem around => some ⟨y, mem, around⟩
    rw [enclosing_none none]
    exact .outer none

/-- A symbol around the whole text comes first, so nothing of its length takes its place. -/
theorem enclosing_under (declared : List Symbol) (start : Nat) {whole : Symbol} (name : m.symbolId = some whole.symbolId)
    (first : whole.startOffset = 0) (last : whole.endOffset = byteLength m.text)
    (inside : stop ≤ byteLength m.text) :
    (Filled declared start stop (byteLength m.text) →
        m.enclosing (whole :: declared) start stop = m.symbolId) ∧
      (¬ Filled declared start stop (byteLength m.text) →
        Nearest declared start stop m.symbolId (m.enclosing (whole :: declared) start stop)) := by
  have around : whole.Around start stop := ⟨by omega, by omega⟩
  have length : whole.length = byteLength m.text := by
    rw [Symbol.length]
    omega
  obtain ⟨before, s, after, inner, found⟩ := enclosing_some (m := m) ⟨whole, List.mem_cons_self, around⟩
  rw [found]
  -- Nothing stands before the whole symbol, so it is found itself or something declared is found.
  cases before with
  | nil =>
    obtain ⟨rfl, rfl⟩ := List.cons.inj inner.split
    have long : ∀ y ∈ declared, y.Around start stop → byteLength m.text ≤ y.length := by
      intro y mem there
      exact length ▸ inner.least y mem there
    constructor
    · intro _
      exact name.symm
    · intro unfilled
      rw [← name]
      apply Nearest.outer
      intro y mem there
      exact unfilled ⟨⟨y, mem, there⟩, long⟩
  | cons c others =>
    obtain ⟨rfl, split⟩ := List.cons.inj inner.split
    have short := inner.shorter whole List.mem_cons_self around
    have mem : s ∈ declared := by simp [split]
    constructor
    · rintro ⟨-, long⟩
      have := long s mem inner.around
      omega
    · intro _
      apply Nearest.own mem inner.around
      intro z mem there
      rw [split] at mem
      rcases List.mem_append.1 mem with mem | mem
      · exact Nat.le_of_lt (inner.shorter z (List.mem_cons_of_mem _ mem) there)
      · rcases List.mem_cons.1 mem with rfl | mem
        · exact Nat.le_refl _
        · exact inner.least z mem there

end Script.Module

namespace Script

open SourceSlices.Script.Module

variable {dialect : Dialect} {read : ReadSource} {r : Reading} {path : String} {source : LoadedSource}

theorem symbols_docstringChunk (m : Module) (block : List Module.Placed) (doc : List Char) :
    (m.docstringChunk block doc).symbols = [] := by
  unfold docstringChunk
  split
  · split <;> rfl
  · rfl

/-- The symbols that a script makes itself: those of its declarations, under that of the module, if it has one. -/
theorem symbols_ownOutput (dialect : Dialect) (read : ReadSource) (r : Reading) (path : String)
    (source : LoadedSource) : ∃ whole : Symbol, whole.symbolId = moduleId dialect source ∧
      whole.startOffset = 0 ∧ whole.endOffset = byteLength source.text ∧
      (ownOutput dialect read r path source).symbols = (if r.depth = 0 then [whole] else []) ++
        ((moduleOf dialect read r path source).declared (rootOf dialect r path source)).symbols := by
  unfold ownOutput
  extract_lets root m block doc
  have trouble : (if root.failing then Output.ofWarning (path ++ ": " ++ dialect.name ++
      " source contains syntax errors") else {}).symbols = [] := by
    split <;> rfl
  obtain ⟨whole, made⟩ : ∃ whole, m.moduleSymbol (moduleId dialect source)
      (Path.dottedName source.file.path) doc = .ofSymbol whole := ⟨_, rfl⟩
  have same := congrArg Output.symbols made
  refine ⟨whole, ?_, ?_, ?_, ?_⟩
  · exact (congrArg Symbol.symbolId (List.cons.inj same).1).symm
  · exact (congrArg Symbol.startOffset (List.cons.inj same).1).symm
  · exact (congrArg Symbol.endOffset (List.cons.inj same).1).symm
  · rw [symbols_append, symbols_append, symbols_append, trouble, symbols_docstringChunk, made]
    by_cases top : r.depth = 0
    · rw [if_pos top, if_pos top]
      exact List.append_nil _ ▸ rfl
    · rw [if_neg top, if_neg top]
      rfl

theorem owned_request (read : ReadSource) {n : Node} (inside : n.stop ≤ byteLength source.text) :
    let m := moduleOf dialect read r path source
    m.Owned (m.declared (rootOf dialect r path source)).symbols
      (m.request n (m.enclosing (ownOutput dialect read r path source).symbols n.start n.stop)) := by
  intro m
  obtain ⟨whole, name, first, last, symbols⟩ := symbols_ownOutput dialect read r path source
  rw [symbols]
  by_cases top : r.depth = 0
  · have own : m.symbolId = some whole.symbolId := by
      rw [name]
      exact if_pos top
    obtain ⟨filled, free⟩ := enclosing_under (m.declared (rootOf dialect r path source)).symbols n.start own
      first last inside
    rw [if_pos top, List.singleton_append]
    constructor
    · rintro ⟨-, there⟩
      exact filled there
    · intro other
      exact free fun there => other ⟨top, there⟩
  · rw [if_neg top, List.nil_append]
    constructor
    · rintro ⟨zero, -⟩
      exact absurd zero top
    · intro _
      exact nearest_enclosing m _ _ _

def Dialect.handler : Dialect → Handler
  | .javascript => .javascript
  | .typescript => .typescript

/-- Markup in a file of this suffix is handed over. -/
def Dialect.ReadsMarkup (dialect : Dialect) (path : String) : Prop :=
  (dialect = .javascript ∧ Path.extension? path = some "jsx") ∨
    (dialect = .typescript ∧ Path.extension? path = some "tsx")

theorem delegates_markup (suffix : dialect.ReadsMarkup path) (readers : Readers) :
    (grammarFor readers dialect path).2 = true := by
  rcases suffix with ⟨rfl, ext⟩ | ⟨rfl, ext⟩
  · simp [grammarFor, ext]
  · simp [grammarFor, ext]

theorem genuine_defaults {registry : Registry} (languages : registry.descriptors = Descriptor.defaults) :
    Genuine registry := by
  intro h known h' found
  rw [Registry.instantiate, Registry.find?, languages] at found
  simp only [webHandlers, List.mem_cons, List.not_mem_nil, or_false] at known
  rcases known with rfl | rfl | rfl | rfl <;> exact (Except.ok.inj found).symm

theorem contains_html {registry : Registry} (languages : registry.descriptors = Descriptor.defaults) :
    registry.contains "html" = true := by
  rw [Registry.contains, Registry.find?, languages]
  rfl

/-- The pieces of outermost markup in a script, one behind the other, and what each is handed over with: the
text of the piece, under the nearest declaration or, if only one as long as the whole text is around, under
the module. Nothing that comes back for one of them is around a later one. -/
theorem markup_handed_over (languages : r.registry.descriptors = Descriptor.defaults) (fit : r.readers.Fit)
    (suffix : dialect.ReadsMarkup path) (loaded : r.load path dialect.name = .ok source)
    (solid : ∀ n, Outermost n (rootOf dialect r path source) → n.start < n.stop) :
    let m := moduleOf dialect (readWithin (r.config.maxDelegationDepth - r.depth)) r path source
    let root := rootOf dialect r path source
    ∃ pieces requests, (∀ n, n ∈ pieces ↔ Outermost n root) ∧
      pieces.Pairwise (fun a b => a.stop ≤ b.start) ∧
      readSource dialect.handler r path =
        (ownOutput dialect m.read r path source ++ .join (requests.map m.handed)).toResult source ∧
      List.Forall₂ (fun n q => q = m.request n q.parentSymbol ∧ m.Owned (m.declared root).symbols q)
        pieces requests ∧
      requests.Pairwise fun q q' => ∀ y ∈ (m.handed q).symbols, ¬ y.Around q'.startOffset q'.endOffset := by
  intro m root
  have genuine := genuine_defaults languages
  have fits : root.Fits m.text := fits_rootOf fit
  have below : EndsBelow m.read m.reading m.path := endsBelow_readWithin _ fit genuine path
  obtain ⟨inside, apart⟩ := markup_ordered fits
  have pieces : ∀ n, n ∈ markup root ↔ Outermost n root := fun n =>
    ⟨outermost_of_mem fits, mem_of_outermost⟩
  have solid' : ∀ n ∈ markup root, n.start < n.stop := fun n mem => solid n ((pieces n).1 mem)
  have fits' : ∀ n ∈ markup root, n.Fits m.text := fun n mem => (inside n mem).1
  have result : readSource dialect.handler r path =
      (m.delegateMarkup (markup root) (ownOutput dialect m.read r path source)).toResult source := by
    have step : readSource dialect.handler r path = Script.read dialect m.read r path := by
      cases dialect <;> rfl
    rw [step, read_eq loaded, delegates_markup suffix, contains_html languages]
    rfl
  have joined := delegateMarkup_eq genuine below fits' solid' apart
    (List.append_nil (ownOutput dialect m.read r path source).symbols).symm (List.forall_mem_nil _)
    fun n _ => Nat.zero_le n.start
  refine ⟨markup root, m.requests (ownOutput dialect m.read r path source).symbols (markup root), pieces, apart,
    by rw [result, joined], ?_, handed_apart genuine below fits' solid' apart _⟩
  rw [requests, List.forall₂_map_right_iff, List.forall₂_same]
  intro n mem
  exact ⟨rfl, owned_request m.read (fits' n mem).stop_le⟩

/-! Two components, the first with a page in it. -/

def leaf (kind : String) (start stop : Nat) : Node := ⟨kind, true, none, start, stop, false, []⟩

/-- One text is read as a tree, and one page in it. -/
def scriptReading (text : List Char) (script : Node) (page : List Char) (tree : Node) : Reading :=
  { Staging.guideReading with
    readers := {
      css _ := default
      html t := if t = page then tree else default
      python _ := default
      javascript t := if t = text then script else default
      typescript _ := default
      tsx _ := default
      markdown _ := [] }
    view := some text }

theorem fit_scriptReading {text page : List Char} {script tree : Node} (script_fits : script.Fits text)
    (page_fits : tree.Fits page) : (scriptReading text script page tree).readers.Fit where
  css t := .empty t
  html t := by
    simp only [scriptReading]
    split
    · rename_i same
      exact same ▸ page_fits
    · exact .empty t
  javascript t := by
    simp only [scriptReading]
    split
    · rename_i same
      exact same ▸ script_fits
    · exact .empty t
  typescript t := .empty t
  tsx t := .empty t

/-- The text of a reading that has one. -/
def sourceOf (r : Reading) (path : String) (text : List Char) : LoadedSource :=
  ⟨r.describe path "javascript" (Hashing.checksum (encodeUtf8 (String.ofList text))) text, text, []⟩

def twoText : List Char := "const A = () => <div>x</div>;\nconst B = () => <b/>;\n".toList

def twoComponents : Reading :=
  scriptReading twoText
    ⟨"program", true, none, 0, 52, false,
      [⟨"lexical_declaration", true, none, 0, 29, false, [⟨"variable_declarator", true, none, 6, 28, false,
          [⟨"identifier", true, some "name", 6, 7, false, []⟩, leaf "jsx_element" 16 28]⟩]⟩,
        ⟨"lexical_declaration", true, none, 30, 51, false, [⟨"variable_declarator", true, none, 36, 50, false,
          [⟨"identifier", true, some "name", 36, 37, false, []⟩, leaf "jsx_self_closing_element" 46 50]⟩]⟩]⟩
    "<div>x</div>".toList
    ⟨"document", true, none, 0, 12, false, [⟨"element", true, none, 0, 12, false,
      [⟨"start_tag", true, none, 0, 5, false, [leaf "tag_name" 1 4]⟩, leaf "text" 5 6]⟩]⟩

theorem two_components_handed_over :
    let source := sourceOf twoComponents "App.jsx" twoText
    let m := moduleOf .javascript (readWithin 3) twoComponents "App.jsx" source
    let root := rootOf .javascript twoComponents "App.jsx" source
    ∃ pieces requests, (∀ n, n ∈ pieces ↔ Outermost n root) ∧
      List.Forall₂ (fun n q => q = m.request n q.parentSymbol ∧ m.Owned (m.declared root).symbols q)
        pieces requests ∧
      (readSource .javascript twoComponents "App.jsx").chunks.filterMap
          (fun c => c.delegate.bind fun _ => c.parentSymbolId) =
        ["javascript:A:6:28", "javascript:B:36:50"] := by
  intro source m root
  have fit : twoComponents.readers.Fit := fit_scriptReading (by decide +kernel) (by decide +kernel)
  have suffix : Dialect.javascript.ReadsMarkup "App.jsx" := .inl ⟨rfl, by decide +kernel⟩
  have loaded : twoComponents.load "App.jsx" Dialect.javascript.name = .ok source := rfl
  have solid : ∀ n ∈ markup root, n.start < n.stop := by
    decide +kernel
  obtain ⟨pieces, requests, all, -, -, owned, -⟩ := markup_handed_over rfl fit suffix loaded
    fun n outermost => solid n (mem_of_outermost outermost)
  exact ⟨pieces, requests, all, owned, by decide +kernel⟩

/-! One component that is as long as its file. -/

def loneText : List Char := "function App() { return <b/>; }".toList

def loneComponent : Reading :=
  scriptReading loneText
    ⟨"program", true, none, 0, 31, false, [⟨"function_declaration", true, none, 0, 31, false,
      [⟨"identifier", true, some "name", 9, 12, false, []⟩, ⟨"statement_block", true, some "body", 15, 31, false,
        [⟨"return_statement", true, none, 17, 29, false, [leaf "jsx_self_closing_element" 24 28]⟩]⟩]⟩]⟩
    [] default

/-- Its markup goes to the module, though the component is around it. -/
theorem lone_component_loses_markup :
    let m := moduleOf .javascript (readWithin 3) loneComponent "App.jsx" (sourceOf loneComponent "App.jsx" loneText)
    let root := rootOf .javascript loneComponent "App.jsx" (sourceOf loneComponent "App.jsx" loneText)
    (m.declared root).symbols.map (fun y => (y.symbolId, y.startOffset, y.endOffset)) =
        [("javascript:App:0:31", 0, 31)] ∧
      (readSource .javascript loneComponent "App.jsx").chunks.map (fun c => (c.chunkId, c.parentSymbolId)) =
        [("javascript:function:0:31", some "javascript:App:0:31"),
          ("html:delegate:javascript:jsx:24:28", some "javascript:module:App")] ∧
      ¬ Nearest (m.declared root).symbols 24 28 m.symbolId (some "javascript:module:App") := by
  intro m root
  have names : ∀ y ∈ (m.declared root).symbols, y.symbolId ≠ "javascript:module:App" := by decide +kernel
  have around : ∃ y ∈ (m.declared root).symbols, y.Around 24 28 := by decide +kernel
  refine ⟨by decide +kernel, by decide +kernel, ?_⟩
  generalize owner : some "javascript:module:App" = o
  intro nearest
  cases nearest with
  | own mem _ _ => exact names _ mem (Option.some.inj owner).symm
  | outer none =>
    obtain ⟨y, mem, there⟩ := around
    exact none y mem there

end Script

end SourceSlices
