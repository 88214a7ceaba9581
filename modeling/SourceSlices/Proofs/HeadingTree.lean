import SourceSlices.Proofs.LinkedResults

/-!
Headings as a tree. The parent of a heading is the innermost of the open ones, which a stack holds; the
end of its range comes from a search in the headings behind it. Both find the same tree: ranges are
nested or apart, and a parent is the innermost heading around its child.
-/
namespace SourceSlices

/-- The range of a symbol lies in the range of another one. -/
def Symbol.Encloses (a b : Symbol) : Prop := a.startOffset ≤ b.startOffset ∧ b.endOffset ≤ a.endOffset

namespace Markdown

/-- The nearest heading before a place that is less deep than a level. -/
def above? (level : Nat) (before : List Heading) : Option Heading :=
  before.reverse.find? (·.level < level)

theorem above?_concat (level : Nat) (before : List Heading) (h : Heading) :
    above? level (before ++ [h]) = if h.level < level then some h else above? level before := by
  simp only [above?, List.reverse_append, List.reverse_singleton, List.singleton_append, List.find?_cons]
  by_cases less : h.level < level <;> simp [less]

/-- The headings that stand before a place and are still open there, for a heading of any level. -/
def Follows (open' : List (Nat × String)) (before : List Heading) : Prop :=
  ∀ level, ((Document.ancestors level open').head?).map (·.2) =
    (above? level before).map Document.headingId

namespace Document

variable {d : Document} {before mid rest : List Heading} {h a b : Heading}

theorem ancestors_ancestors {level deeper : Nat} (le : level ≤ deeper) (open' : List (Nat × String)) :
    ancestors level (ancestors deeper open') = ancestors level open' := by
  induction open' with
  | nil => rfl
  | cons e rest ih =>
    simp only [ancestors, List.dropWhile_cons, decide_eq_true_eq] at ih ⊢
    by_cases closed : deeper ≤ e.1
    · rw [if_pos closed, if_pos (by omega : level ≤ e.1)]
      exact ih
    · rw [if_neg closed, List.dropWhile_cons]
      simp only [decide_eq_true_eq]

theorem follows_nil : Follows [] [] := fun _ => rfl

/-- A heading closes those that are as deep as it is and then is open itself. -/
theorem follows_step {open' : List (Nat × String)} (follows : Follows open' before) (h : Heading) :
    Follows ((h.level, headingId h) :: ancestors h.level open') (before ++ [h]) := by
  intro level
  rw [above?_concat]
  by_cases less : h.level < level
  · rw [if_pos less, ancestors, List.dropWhile_cons, if_neg (by simpa using less)]
    rfl
  · rw [if_neg less, ancestors, List.dropWhile_cons, if_pos (by simpa using less), ← follows level,
      ← ancestors_ancestors (Nat.le_of_not_lt less) open']
    rfl

/-! ### Where a heading ends -/

/-- Where the first heading that is no deeper than a level begins, or the end of the text. -/
def stopOf (d : Document) (level : Nat) (rest : List Heading) : Nat :=
  ((rest.find? (·.level ≤ level)).map (·.start)).getD d.size

/-- Headings one behind the other, none of them at the end of the text. -/
structure Placed (d : Document) (headings : List Heading) : Prop where
  ascending : headings.Pairwise (·.start < ·.start)
  inside : ∀ h ∈ headings, h.start < d.size

theorem Placed.tail (placed : d.Placed (h :: rest)) : d.Placed rest :=
  ⟨(List.pairwise_cons.1 placed.ascending).2, fun h mem => placed.inside h (List.mem_cons_of_mem _ mem)⟩

theorem Placed.suffix (placed : d.Placed (before ++ rest)) : d.Placed rest :=
  ⟨(List.pairwise_append.1 placed.ascending).2.1,
    fun h mem => placed.inside h (List.mem_append_right _ mem)⟩

theorem stopOf_cons (level : Nat) (h : Heading) (rest : List Heading) :
    d.stopOf level (h :: rest) = if h.level ≤ level then h.start else d.stopOf level rest := by
  simp only [stopOf, List.find?_cons]
  by_cases le : h.level ≤ level <;> simp [le]

theorem lt_stopOf (level : Nat) {start : Nat} (behind : ∀ h ∈ rest, start < h.start)
    (size : start < d.size) : start < d.stopOf level rest := by
  induction rest with
  | nil => exact size
  | cons h rest ih =>
    rw [stopOf_cons]
    split
    · exact behind h List.mem_cons_self
    · exact ih fun h mem => behind h (List.mem_cons_of_mem _ mem)

theorem stopOf_anti {level deeper : Nat} (le : level ≤ deeper) (placed : d.Placed rest) :
    d.stopOf deeper rest ≤ d.stopOf level rest := by
  induction rest with
  | nil => exact Nat.le_refl _
  | cons h rest ih =>
    rw [stopOf_cons, stopOf_cons]
    split
    · split
      · exact Nat.le_refl _
      · exact Nat.le_of_lt (lt_stopOf level (List.pairwise_cons.1 placed.ascending).1
          (placed.inside h List.mem_cons_self))
    · rw [if_neg (by omega)]
      exact ih placed.tail

/-- Deeper headings do not end a heading. -/
theorem stopOf_append {level : Nat} (deeper : ∀ h ∈ mid, level < h.level) :
    d.stopOf level (mid ++ rest) = d.stopOf level rest := by
  induction mid with
  | nil => rfl
  | cons h mid ih =>
    obtain ⟨own, others⟩ := List.forall_mem_cons.1 deeper
    rw [List.cons_append, stopOf_cons, if_neg (by omega), ih others]

/-- A heading that is no deeper ends it, so that what begins there or later is outside. -/
theorem stopOf_le {level : Nat} (placed : d.Placed (mid ++ b :: rest)) {c : Heading}
    (mem : c ∈ mid ++ [b]) (le : c.level ≤ level) : d.stopOf level (mid ++ b :: rest) ≤ b.start := by
  induction mid with
  | nil =>
    obtain rfl := List.mem_singleton.1 mem
    rw [List.nil_append, stopOf_cons, if_pos le]
  | cons h mid ih =>
    have ahead : h.start < b.start := (List.pairwise_cons.1 placed.ascending).1 b (by simp)
    rw [List.cons_append, stopOf_cons]
    split
    · omega
    · rcases List.mem_cons.1 mem with rfl | later
      · omega
      · exact ih placed.tail later

/-! ### The symbols of headings -/

/-- The symbol of a heading between others. -/
def headingAt (d : Document) (before : List Heading) (h : Heading) (rest : List Heading) : Symbol where
  symbolId := headingId h
  name := h.title
  kind := "heading"
  startOffset := h.start
  endOffset := d.stopOf h.level rest
  parentId := (above? h.level before).map headingId
  metadata := (Metadata.empty.putNat "level" h.level).putNat "line" (d.lines.line h.start)

/-- The symbols of headings that follow others. -/
def headingsFrom (d : Document) : List Heading → List Heading → List Symbol
  | _, [] => []
  | before, h :: rest => d.headingAt before h rest :: d.headingsFrom (before ++ [h]) rest

theorem getElem?_headingsFrom (d : Document) (before headings : List Heading) (i : Nat) :
    (d.headingsFrom before headings)[i]? =
      headings[i]?.map fun h => d.headingAt (before ++ headings.take i) h (headings.drop (i + 1)) := by
  induction headings generalizing before i with
  | nil => rfl
  | cons h rest ih =>
    cases i with
    | zero => simp [headingsFrom]
    | succ i => simp [headingsFrom, ih]

theorem mem_headingsFrom {headings : List Heading} {s : Symbol} :
    s ∈ d.headingsFrom before headings ↔
      ∃ mid h rest, headings = mid ++ h :: rest ∧ s = d.headingAt (before ++ mid) h rest := by
  induction headings generalizing before with
  | nil => simp [headingsFrom]
  | cons h rest ih =>
    rw [headingsFrom, List.mem_cons, ih]
    constructor
    · rintro (rfl | ⟨mid, b, behind, rfl, rfl⟩)
      · exact ⟨[], h, rest, rfl, by rw [List.append_nil]⟩
      · exact ⟨h :: mid, b, behind, rfl, by rw [List.append_assoc, List.singleton_append]⟩
    · rintro ⟨mid, b, behind, split, rfl⟩
      cases mid with
      | nil =>
        obtain ⟨rfl, rfl⟩ := List.cons.inj split
        exact .inl (by rw [List.append_nil])
      | cons c mid =>
        obtain ⟨rfl, rfl⟩ := List.cons.inj split
        exact .inr ⟨mid, b, behind, rfl, by rw [List.append_assoc, List.singleton_append]⟩

theorem encloses_of_deeper (placed : d.Placed (a :: (mid ++ b :: rest)))
    (deeper : ∀ h ∈ mid ++ [b], a.level < h.level) (before before' : List Heading) :
    (d.headingAt before a (mid ++ b :: rest)).Encloses (d.headingAt before' b rest) := by
  have ahead : a.start < b.start := (List.pairwise_cons.1 placed.ascending).1 b (by simp)
  have less : a.level < b.level := deeper b (by simp)
  refine ⟨Nat.le_of_lt ahead, ?_⟩
  show d.stopOf b.level rest ≤ d.stopOf a.level (mid ++ b :: rest)
  rw [← List.singleton_append, ← List.append_assoc, stopOf_append deeper]
  exact stopOf_anti (Nat.le_of_lt less) placed.tail.suffix.tail

/-- A heading ends before a later one begins, unless all from there on, up to that one, are deeper. -/
theorem apart_of_not_deeper (placed : d.Placed (a :: (mid ++ b :: rest)))
    (closed : ¬ ∀ h ∈ mid ++ [b], a.level < h.level) (before before' : List Heading) :
    (d.headingAt before a (mid ++ b :: rest)).endOffset ≤ (d.headingAt before' b rest).startOffset := by
  obtain ⟨c, mem, le⟩ : ∃ c ∈ mid ++ [b], c.level ≤ a.level := by
    simpa only [not_forall, exists_prop, Nat.not_lt] using closed
  exact stopOf_le placed.tail mem le

end Document

/-! ### The tree -/

/-- The innermost of some symbols that encloses another of them. -/
structure Innermost (symbols : List Symbol) (s a : Symbol) : Prop where
  mem : a ∈ symbols
  other : a ≠ s
  encloses : a.Encloses s
  least : ∀ b ∈ symbols, b ≠ s → b.Encloses s → b.Encloses a

/-- Symbols that hold headings as a tree. -/
structure HeadingTree (headings : List Heading) (symbols : List Symbol) : Prop where
  ids : symbols.map (·.symbolId) = headings.map Document.headingId
  starts : symbols.map (·.startOffset) = headings.map (·.start)
  nonempty : ∀ s ∈ symbols, s.startOffset < s.endOffset
  parents : ∀ i h s, headings[i]? = some h → symbols[i]? = some s → s.parentId =
    ((headings.take i).reverse.find? (·.level < h.level)).map Document.headingId
  laminar : symbols.Pairwise fun a b => a.endOffset ≤ b.startOffset ∨ a.Encloses b
  innermost : ∀ s ∈ symbols, ∀ p, s.parentId = some p ↔ ∃ a, Innermost symbols s a ∧ a.symbolId = p
  roots : ∀ s ∈ symbols, s.parentId = none ↔ ∀ a ∈ symbols, a ≠ s → ¬ a.Encloses s

/-- Of two members of a list one stands before the other, unless they are at the same place. -/
theorem places {α : Type} {l r l' r' : List α} {a a' : α} (same : l ++ a :: r = l' ++ a' :: r') :
    (l = l' ∧ a = a' ∧ r = r') ∨ (∃ mid, l' = l ++ a :: mid ∧ r = mid ++ a' :: r') ∨
      ∃ mid, l = l' ++ a' :: mid ∧ r' = mid ++ a :: r := by
  rcases List.append_eq_append_iff.1 same with ⟨mid, rfl, behind⟩ | ⟨mid, rfl, behind⟩
  · cases mid with
    | nil =>
      obtain ⟨rfl, rfl⟩ := List.cons.inj behind
      exact .inl ⟨(List.append_nil _).symm, rfl, rfl⟩
    | cons c mid =>
      obtain ⟨rfl, rfl⟩ := List.cons.inj behind
      exact .inr (.inl ⟨mid, rfl, rfl⟩)
  · cases mid with
    | nil =>
      obtain ⟨rfl, rfl⟩ := List.cons.inj behind
      exact .inl ⟨List.append_nil _, rfl, rfl⟩
    | cons c mid =>
      obtain ⟨rfl, rfl⟩ := List.cons.inj behind
      exact .inr (.inr ⟨mid, rfl, rfl⟩)

namespace Document

variable {d : Document} {headings before mid rest : List Heading} {h a b : Heading}

/-- What encloses a heading is a heading before it, and all from there on are deeper than that. -/
theorem encloses_iff (placed : d.Placed headings) (here : headings = before ++ h :: rest) {s : Symbol} :
    s ∈ d.headingsFrom [] headings ∧ s ≠ d.headingAt before h rest ∧
        s.Encloses (d.headingAt before h rest) ↔
      ∃ front a mid, before = front ++ a :: mid ∧ (∀ b ∈ mid ++ [h], a.level < b.level) ∧
        s = d.headingAt front a (mid ++ h :: rest) := by
  constructor
  · rintro ⟨mem, other, encloses⟩
    obtain ⟨front, a, behind, there, rfl⟩ := mem_headingsFrom.1 mem
    rw [List.nil_append] at other encloses
    rw [here] at there
    rcases places there with ⟨rfl, rfl, rfl⟩ | ⟨mid, rfl, rfl⟩ | ⟨mid, rfl, rfl⟩
    · exact absurd rfl other
    · have late : h.start < a.start :=
        (List.pairwise_cons.1 (here ▸ placed).suffix.ascending).1 a (by simp)
      exact absurd encloses.1 (Nat.not_le.2 late)
    · refine ⟨front, a, mid, rfl, ?_, rfl⟩
      rw [here, List.append_assoc] at placed
      -- A heading that is not deeper ends the section of the earlier one before this one begins.
      by_contra closed
      have apart := apart_of_not_deeper placed.suffix closed front (front ++ a :: mid)
      have stop : h.start < d.stopOf h.level rest :=
        lt_stopOf _ (List.pairwise_cons.1 placed.suffix.tail.suffix.ascending).1
          (placed.suffix.tail.suffix.inside h List.mem_cons_self)
      have := encloses.2
      simp only [headingAt] at apart this
      omega
  · rintro ⟨front, a, mid, rfl, deeper, rfl⟩
    rw [List.append_assoc] at here
    have own : d.Placed (a :: (mid ++ h :: rest)) := (here ▸ placed).suffix
    have ahead : a.start < h.start := (List.pairwise_cons.1 own.ascending).1 h (by simp)
    refine ⟨mem_headingsFrom.2 ⟨front, a, mid ++ h :: rest, here, rfl⟩, fun same => ?_,
      encloses_of_deeper own deeper _ _⟩
    have : a.start = h.start := congrArg Symbol.startOffset same
    omega

/-- The nearest heading that is less deep is the innermost that encloses. -/
theorem innermost_above (placed : d.Placed headings) (here : headings = before ++ h :: rest)
    (nearest : above? h.level before = some a) :
    ∃ s, Innermost (d.headingsFrom [] headings) (d.headingAt before h rest) s ∧
      s.symbolId = headingId a := by
  obtain ⟨less, after, front, split, others⟩ := List.find?_eq_some_iff_append.1 nearest
  have shape : before = front.reverse ++ a :: after.reverse := by
    rw [← List.reverse_reverse before, split]
    simp
  have deeper : ∀ b ∈ after.reverse ++ [h], a.level < b.level := by
    intro b mem
    rcases List.mem_append.1 mem with mem | mem
    · have := others b (List.mem_reverse.1 mem)
      simp only [decide_eq_true_eq, Bool.not_eq_true', decide_eq_false_iff_not] at less this
      omega
    · obtain rfl := List.mem_singleton.1 mem
      simpa using less
  obtain ⟨mem, other, encloses⟩ := (encloses_iff placed here).2 ⟨front.reverse, a, after.reverse, shape,
    deeper, rfl⟩
  refine ⟨_, ⟨mem, other, encloses, fun s mem' other' encloses' => ?_⟩, rfl⟩
  obtain ⟨front', c, mid, shape', deeper', rfl⟩ := (encloses_iff placed here).1 ⟨mem', other', encloses'⟩
  rcases places (shape.symm.trans shape') with ⟨rfl, rfl, rfl⟩ | ⟨mid', rfl, later⟩ | ⟨mid', first, rfl⟩
  · exact ⟨Nat.le_refl _, Nat.le_refl _⟩
  · -- a heading between the nearest one and `h` is no less deep than `h`
    have less := deeper' h (by simp)
    have := others c (List.mem_reverse.1 (later ▸ by simp))
    simp only [Bool.not_eq_true', decide_eq_false_iff_not] at this
    exact absurd less this
  · rw [here, shape, first, List.append_assoc, List.append_assoc] at placed
    rw [List.append_assoc]
    exact encloses_of_deeper placed.suffix (fun b mem => deeper' b (by
      rcases List.mem_append.1 mem with mem | mem <;> simp_all)) _ _

theorem symbolId_headingsFrom {before : List Heading} {s : Symbol}
    (mem : s ∈ d.headingsFrom before headings) :
    s.symbolId = "markdown:heading:" ++ toString s.startOffset := by
  obtain ⟨mid, h, rest, -, rfl⟩ := mem_headingsFrom.1 mem
  rfl

theorem map_headingsFrom {α : Type} {before : List Heading} {f : Symbol → α} {g : Heading → α}
    (same : ∀ before h rest, f (d.headingAt before h rest) = g h) (headings : List Heading) :
    (d.headingsFrom before headings).map f = headings.map g := by
  induction headings generalizing before with
  | nil => rfl
  | cons h rest ih => rw [headingsFrom, List.map_cons, List.map_cons, same, ih]

theorem pairwise_headingsFrom (placed : d.Placed headings) :
    (d.headingsFrom before headings).Pairwise fun a b => a.endOffset ≤ b.startOffset ∨ a.Encloses b := by
  induction headings generalizing before with
  | nil => exact .nil
  | cons h rest ih =>
    refine List.pairwise_cons.2 ⟨fun s mem => ?_, ih placed.tail⟩
    obtain ⟨mid, b, behind, rfl, rfl⟩ := mem_headingsFrom.1 mem
    by_cases deeper : ∀ c ∈ mid ++ [b], h.level < c.level
    · exact .inr (encloses_of_deeper placed deeper _ _)
    · exact .inl (apart_of_not_deeper placed deeper _ _)

/-- The parent of a heading is the innermost that encloses it. -/
theorem named_iff_innermost (placed : d.Placed headings) (here : headings = before ++ h :: rest) (p : String) :
    (above? h.level before).map headingId = some p ↔
      ∃ s, Innermost (d.headingsFrom [] headings) (d.headingAt before h rest) s ∧ s.symbolId = p := by
  constructor
  · intro named
    obtain ⟨a, nearest, rfl⟩ := Option.map_eq_some_iff.1 named
    exact innermost_above placed here nearest
  · rintro ⟨s, inner, rfl⟩
    obtain ⟨front, a, mid, rfl, deeper, -⟩ :=
      (encloses_iff placed here).1 ⟨inner.mem, inner.other, inner.encloses⟩
    obtain ⟨c, nearest⟩ : ∃ c, above? h.level (front ++ a :: mid) = some c := by
      refine Option.isSome_iff_exists.1 (List.find?_isSome.2 ⟨a, by simp, ?_⟩)
      simpa using deeper h (by simp)
    obtain ⟨s', inner', named⟩ := innermost_above placed here nearest
    -- two innermost symbols enclose each other, and the start gives the id
    have start : s.startOffset = s'.startOffset :=
      Nat.le_antisymm (inner'.least s inner.mem inner.other inner.encloses).1
        (inner.least s' inner'.mem inner'.other inner'.encloses).1
    rw [nearest, Option.map_some, ← named, symbolId_headingsFrom inner.mem,
      symbolId_headingsFrom inner'.mem, start]

theorem no_parent_iff (placed : d.Placed headings) (here : headings = before ++ h :: rest) :
    (above? h.level before).map headingId = none ↔
      ∀ s ∈ d.headingsFrom [] headings, s ≠ d.headingAt before h rest →
        ¬ s.Encloses (d.headingAt before h rest) := by
  constructor
  · intro root s mem other encloses
    obtain ⟨front, a, mid, rfl, deeper, -⟩ := (encloses_iff placed here).1 ⟨mem, other, encloses⟩
    have shallow := List.find?_eq_none.1 (Option.map_eq_none_iff.1 root) a (by simp)
    exact shallow (by simpa using deeper h (by simp))
  · intro free
    by_contra parent
    obtain ⟨a, nearest⟩ := Option.isSome_iff_exists.1 (Option.isSome_map.symm.trans
      (Option.isSome_iff_ne_none.2 parent))
    obtain ⟨s, inner, -⟩ := innermost_above placed here nearest
    exact free s inner.mem inner.other inner.encloses

theorem headingTree_headingsFrom (placed : d.Placed headings) :
    HeadingTree headings (d.headingsFrom [] headings) where
  ids := map_headingsFrom (fun _ _ _ => rfl) headings
  starts := map_headingsFrom (fun _ _ _ => rfl) headings
  nonempty s mem := by
    obtain ⟨before, h, rest, rfl, rfl⟩ := mem_headingsFrom.1 mem
    exact lt_stopOf _ (List.pairwise_cons.1 placed.suffix.ascending).1
      (placed.suffix.inside h List.mem_cons_self)
  parents i h s there found := by
    rw [getElem?_headingsFrom, there] at found
    obtain rfl := Option.some.inj found
    rfl
  laminar := pairwise_headingsFrom placed
  innermost s mem p := by
    obtain ⟨before, h, rest, here, rfl⟩ := mem_headingsFrom.1 mem
    exact named_iff_innermost placed here p
  roots s mem := by
    obtain ⟨before, h, rest, here, rfl⟩ := mem_headingsFrom.1 mem
    exact no_parent_iff placed here

/-! ### The symbols of a document -/

/-- Byte behind the front matter. -/
def bodyStart (d : Document) : Nat := ((frontMatter? d.text).map (·.stop)).getD 0

/-- Headings and fences of what follows the front matter. -/
def outline (d : Document) : Outline :=
  Outline.ofEvents d.bodyStart (d.reading.readers.markdown (Text.dropBytes d.bodyStart d.text))

/-- What the front matter gives. -/
def frontOutput (d : Document) : Output :=
  match frontMatter? d.text with
  | some f => d.frontChunk f
  | none => {}

/-- Where the section of the first heading begins, if something stands before the heading. -/
def introStart? (d : Document) (h : Heading) : Option Nat :=
  if !Text.isAllBlank (Text.slice d.text d.bodyStart h.start) then some d.bodyStart else none

theorem output_plain (headings : d.outline.headings = []) :
    d.output = d.frontOutput ++ d.bodyChunk d.bodyStart := by
  unfold outline bodyStart at headings
  simp only [output, headings]
  rfl

theorem output_sections (headings : d.outline.headings = h :: rest) : d.output =
    d.frontOutput ++ d.sections d.outline.fences (d.introStart? h) [] (h :: rest) := by
  unfold outline bodyStart at headings
  simp only [output, headings]
  rfl

theorem symbols_frontOutput (d : Document) : d.frontOutput.symbols = [] := by
  unfold frontOutput frontChunk
  split
  · dsimp only
    split <;> rfl
  · rfl

theorem symbols_bodyChunk (d : Document) (start : Nat) : (d.bodyChunk start).symbols = [] := by
  unfold bodyChunk
  split <;> rfl

theorem headingSymbol_eq {open' : List (Nat × String)} (follows : Follows open' before) (h : Heading)
    (rest : List Heading) :
    d.headingSymbol (ancestors h.level open') h rest = Output.ofSymbol (d.headingAt before h rest) := by
  simp only [headingSymbol, headingAt, stopOf, follows h.level]

theorem mem_symbols_join {outputs : List Output} {y : Symbol} :
    y ∈ (Output.join outputs).symbols ↔ ∃ o ∈ outputs, y ∈ o.symbols := by
  rw [Output.symbols_join, List.mem_flatMap]

/-- Each heading is followed by what its fences hold. -/
theorem symbols_sections (fences : List Fence) (intro : Option Nat) {open' : List (Nat × String)}
    (follows : Follows open' before) (headings : List Heading) :
    ∃ nested : List (List Symbol), nested.length = headings.length ∧
      (∀ l ∈ nested, ∀ y ∈ l, ∃ f ∈ fences, ∃ symbolId sectionId,
        y ∈ (d.fence symbolId sectionId f).symbols) ∧
      (d.sections fences intro open' headings).symbols =
        (List.zipWith List.cons (d.headingsFrom before headings) nested).flatten := by
  induction headings generalizing intro open' before with
  | nil => exact ⟨[], rfl, by simp, rfl⟩
  | cons h rest ih =>
    obtain ⟨nested, length, made, all⟩ := ih none (follows_step follows h)
    let fenced := d.sectionOutput fences intro.isSome (intro.getD h.start)
      (((rest.head?).map (·.start)).getD d.size) h
    refine ⟨fenced.symbols :: nested, congrArg (· + 1) length, ?_, ?_⟩
    · refine List.forall_mem_cons.2 ⟨fun y mem => ?_, made⟩
      obtain ⟨o, among, there⟩ := mem_symbols_join.1 mem
      obtain ⟨f, found, rfl⟩ := List.mem_map.1 among
      exact ⟨f, (List.mem_filter.1 found).1, _, _, there⟩
    · have own := headingSymbol_eq (d := d) follows h rest
      show (d.headingSymbol (ancestors h.level open') h rest).symbols ++ fenced.symbols ++
        (d.sections fences none _ rest).symbols = _
      rw [own, all]
      rfl

/-- The headings of a document are a tree, with what the fences hold behind each of them. -/
theorem output_headingTree (placed : d.Placed d.outline.headings) :
    ∃ (own : List Symbol) (nested : List (List Symbol)), nested.length = own.length ∧
      (∀ l ∈ nested, ∀ y ∈ l, ∃ f ∈ d.outline.fences, ∃ symbolId sectionId,
        y ∈ (d.fence symbolId sectionId f).symbols) ∧
      d.output.symbols = (List.zipWith List.cons own nested).flatten ∧
      HeadingTree d.outline.headings own := by
  cases headings : d.outline.headings with
  | nil =>
    refine ⟨[], [], rfl, by simp, ?_, headingTree_headingsFrom (d := d) ⟨.nil, by simp⟩⟩
    rw [output_plain headings]
    show d.frontOutput.symbols ++ (d.bodyChunk d.bodyStart).symbols = []
    rw [symbols_frontOutput, symbols_bodyChunk]
    rfl
  | cons h rest =>
    obtain ⟨nested, length, made, all⟩ :=
      d.symbols_sections d.outline.fences (d.introStart? h) follows_nil (h :: rest)
    have tree := headingTree_headingsFrom (headings ▸ placed)
    have count : nested.length = (d.headingsFrom [] (h :: rest)).length := by
      rw [length, ← List.length_map headingId, ← tree.ids, List.length_map]
    refine ⟨_, nested, count, made, ?_, tree⟩
    rw [output_sections headings]
    show d.frontOutput.symbols ++ (d.sections _ _ _ _).symbols = _
    rw [symbols_frontOutput, List.nil_append, all]

/-- Headings that begin deep, skip levels, and come back up. -/
def levels : Document where
  path := "a.md"
  text := "## A\n#### B\n### C\n# D\n## E\n".toList
  lines := LineIndex.ofText "## A\n#### B\n### C\n# D\n## E\n".toList
  reading := { Staging.guideReading with readers := { Staging.guideReading.readers with
    markdown _ := [⟨.headingStart 2, 0, 5⟩, ⟨.text "A", 3, 4⟩, ⟨.headingEnd, 0, 5⟩,
      ⟨.headingStart 4, 5, 12⟩, ⟨.text "B", 10, 11⟩, ⟨.headingEnd, 5, 12⟩,
      ⟨.headingStart 3, 12, 18⟩, ⟨.text "C", 16, 17⟩, ⟨.headingEnd, 12, 18⟩,
      ⟨.headingStart 1, 18, 22⟩, ⟨.text "D", 20, 21⟩, ⟨.headingEnd, 18, 22⟩,
      ⟨.headingStart 2, 22, 27⟩, ⟨.text "E", 25, 26⟩, ⟨.headingEnd, 22, 27⟩] } }
  budget := 100
  read := readSource

theorem levels_headingTree : levels.Placed levels.outline.headings ∧
    levels.output.symbols.map (fun s => (s.startOffset, s.endOffset, s.parentId)) =
      [(0, 18, none), (5, 12, some "markdown:heading:0"), (12, 18, some "markdown:heading:0"),
        (18, 27, none), (22, 27, some "markdown:heading:18")] ∧
    ∃ (own : List Symbol) (nested : List (List Symbol)), nested.length = own.length ∧
      levels.output.symbols = (List.zipWith List.cons own nested).flatten ∧
      HeadingTree levels.outline.headings own := by
  have placed : levels.Placed levels.outline.headings := ⟨by decide +kernel, by decide +kernel⟩
  obtain ⟨own, nested, count, -, all, tree⟩ := output_headingTree placed
  exact ⟨placed, by decide +kernel, own, nested, count, all, tree⟩

end Document
end Markdown
end SourceSlices
