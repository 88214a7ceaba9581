import Mathlib.Data.List.Nodup
import SourceSlices.Css.Rules
import SourceSlices.Proofs.ExactParts
import SourceSlices.Proofs.TextResult

/-!
Selector lists against their grammar. A comma separates selectors if what stands before it is balanced:
every parenthesis and bracket is closed, and so is every string, in which brackets are plain
characters. The cut counts brackets alone, so it is right exactly for the lists in which at every comma
the count says what the grammar says.
-/

/-! ### Balanced texts -/

namespace SourceSlices.Css

inductive Quote where
  | single
  | double
  deriving DecidableEq

def Quote.char : Quote → Char
  | .single => '\''
  | .double => '"'

/-- Where a scan stands: the brackets that must be closed, innermost first, and the string that is
open, with whether its next character is escaped. -/
structure Place where
  closers : List Char := []
  string : Option (Quote × Bool) := none
  deriving DecidableEq

namespace Place

def step (p : Place) (c : Char) : Option Place :=
  match p.string with
  | some (q, true) => some { p with string := some (q, false) }
  | some (q, false) =>
    if c = q.char then some { p with string := none }
    else some { p with string := some (q, c == '\\') }
  | none =>
    if c = '\'' then some { p with string := some (.single, false) }
    else if c = '"' then some { p with string := some (.double, false) }
    else if c = '(' then some { p with closers := ')' :: p.closers }
    else if c = '[' then some { p with closers := ']' :: p.closers }
    else if c = ')' ∨ c = ']' then
      if p.closers.head? = some c then some { p with closers := p.closers.tail } else none
    else some p

/-- Reads a text from a place; nothing if a bracket closes that is not open. -/
def scan (p : Place) (cs : List Char) : Option Place := cs.foldlM step p

/-- The same place with an escape used up. -/
def settle (p : Place) : Place := { p with string := p.string.map fun s => (s.1, false) }

variable {p q : Place} {c : Char} {a b cs : List Char}

@[simp] theorem scan_nil (p : Place) : p.scan [] = some p := rfl

theorem scan_cons (p : Place) (c : Char) (cs : List Char) :
    p.scan (c :: cs) = (p.step c).bind fun q => q.scan cs := by
  unfold scan
  exact List.foldlM_cons

theorem scan_append (p : Place) (a b : List Char) :
    p.scan (a ++ b) = (p.scan a).bind fun q => q.scan b := by
  unfold scan
  exact List.foldlM_append

theorem scan_singleton (p : Place) (c : Char) : p.scan [c] = p.step c := by
  rw [scan_cons]
  cases p.step c <;> rfl

theorem settle_settle (p : Place) : p.settle.settle = p.settle := by
  cases p with
  | mk closers string => cases string <;> rfl

theorem eq_of_settle (done : p.settle = {}) : p = {} := by
  cases p with
  | mk closers string =>
    simp only [settle, Place.mk.injEq, Option.map_eq_none_iff] at done
    rw [done.1, done.2]

/-- A character that has no meaning of its own. -/
def Plain (c : Char) : Prop := c ∉ ['\'', '"', '\\', '(', ')', '[', ']']

theorem plain_of_isBlank (blank : Text.isBlank c = true) : Plain c := by
  intro mem
  revert blank
  simp only [List.mem_cons, List.not_mem_nil, or_false] at mem
  obtain rfl | rfl | rfl | rfl | rfl | rfl | rfl := mem <;> decide

theorem plain_comma : Plain ',' := by
  unfold Plain
  decide

/-- A plain character at most uses up an escape. -/
theorem step_plain (plain : Plain c) (p : Place) : p.step c = some p.settle := by
  simp only [Plain, List.mem_cons, List.not_mem_nil, or_false, not_or] at plain
  obtain ⟨single, double, escape, open₁, close₁, open₂, close₂⟩ := plain
  cases p with
  | mk closers string =>
    cases string with
    | none => simp [step, settle, single, double, open₁, close₁, open₂, close₂]
    | some s =>
      obtain ⟨quote, escaped⟩ := s
      cases escaped with
      | true => rfl
      | false =>
        have inside : c ≠ quote.char := by
          cases quote
          · exact single
          · exact double
        simp [step, settle, inside, escape]

end Place

/-- Every bracket and every string is closed. -/
def Balanced (cs : List Char) : Prop := ({} : Place).scan cs = some {}

instance (cs : List Char) : Decidable (Balanced cs) := inferInstanceAs (Decidable (_ = _))

variable {a b cs : List Char} {c : Char}

theorem balanced_nil : Balanced [] := rfl

theorem Balanced.append_iff (done : Balanced a) : Balanced (a ++ b) ↔ Balanced b := by
  unfold Balanced at *
  rw [Place.scan_append, done, Option.bind_some]

theorem Balanced.snoc (done : Balanced a) (plain : Place.Plain c) : Balanced (a ++ [c]) := by
  rw [done.append_iff]
  unfold Balanced
  rw [Place.scan_singleton, Place.step_plain plain]
  rfl

/-! ### Collapsing blanks -/

theorem join_cons (sep : Char) (word : List Char) (others : List (List Char)) :
    Text.join [sep] (word :: others) =
      word ++ if others = [] then [] else sep :: Text.join [sep] others := by
  cases others with
  | nil => exact (List.append_nil word).symm
  | cons next others => simp [Text.join]

/-- Runs of blanks only matter for what they end, and one space ends the same. -/
theorem scan_words (p : Place) (cs word : List Char) (begun : word ≠ [] ∨ p.settle = p) :
    (p.scan (Text.join [' '] (Text.words.go cs word))).map Place.settle =
      (p.scan (word.reverse ++ cs)).map Place.settle := by
  -- Blanks end a word wherever they stand, and more of them change nothing.
  induction cs generalizing p word with
  | nil =>
    rw [List.append_nil, Text.words.go]
    cases word with
    | nil => rfl
    | cons w word => rfl
  | cons c rest ih =>
    rw [Text.words.go]
    by_cases blank : Text.isBlank c = true
    · have plain := Place.plain_of_isBlank blank
      rw [if_pos blank]
      cases word with
      | nil =>
        have settled := begun.resolve_left (absurd rfl)
        rw [List.isEmpty_nil, if_pos rfl, ih p [] (Or.inr settled), List.reverse_nil, List.nil_append,
          List.nil_append, Place.scan_cons, Place.step_plain plain, settled, Option.bind_some]
      | cons w word =>
        rw [List.isEmpty_cons, if_neg Bool.false_ne_true]
        cases read : p.scan (w :: word).reverse with
        | none =>
          have none (more : List Char) : p.scan ((w :: word).reverse ++ more) = none := by
            rw [Place.scan_append, read, Option.bind_none]
          rw [join_cons, none, none]
        | some q =>
          have after (d : Char) (settles : Place.Plain d) (more : List Char) :
              p.scan ((w :: word).reverse ++ d :: more) = q.settle.scan more := by
            rw [Place.scan_append, read, Option.bind_some, Place.scan_cons, Place.step_plain settles,
              Option.bind_some]
          have same := ih q.settle [] (Or.inr q.settle_settle)
          rw [List.reverse_nil, List.nil_append] at same
          rw [after c plain, ← same, join_cons]
          split
          · rename_i last
            rw [List.append_nil, read, last, Text.join, Place.scan_nil, Option.map_some,
              Option.map_some, q.settle_settle]
          · rw [after ' ' (Place.plain_of_isBlank (by decide))]
    · have longer : word.reverse ++ c :: rest = (c :: word).reverse ++ rest := by simp
      rw [if_neg blank, ih p (c :: word) (Or.inl (List.cons_ne_nil c word)), longer]

theorem Balanced.collapse (done : Balanced cs) : Balanced (Text.collapse cs) := by
  have same := scan_words {} cs [] (Or.inr rfl)
  rw [List.reverse_nil, List.nil_append, done] at same
  obtain ⟨p, read, settled⟩ := Option.map_eq_some_iff.1 same
  have start : p = {} := Place.eq_of_settle settled
  rw [start] at read
  exact read

/-- What a text holds besides blanks. -/
def ink (cs : List Char) : List Char := cs.filter fun c => !Text.isBlank c

theorem ink_append (a b : List Char) : ink (a ++ b) = ink a ++ ink b := by
  unfold ink
  exact List.filter_append a b

theorem ink_of_isBlank (blank : Text.isBlank c = true) (cs : List Char) : ink (c :: cs) = ink cs := by
  unfold ink
  exact List.filter_cons_of_neg (by simp [blank])

theorem ink_of_not_isBlank (solid : ¬ Text.isBlank c = true) (cs : List Char) :
    ink (c :: cs) = c :: ink cs := by
  unfold ink
  exact List.filter_cons_of_pos (by simp [solid])

theorem ink_words (cs word : List Char) :
    ink (Text.join [' '] (Text.words.go cs word)) = ink word.reverse ++ ink cs := by
  induction cs generalizing word with
  | nil =>
    rw [Text.words.go]
    cases word with
    | nil => rfl
    | cons w word =>
      rw [List.isEmpty_cons, if_neg Bool.false_ne_true, join_cons, if_pos rfl, List.append_nil]
      exact (List.append_nil _).symm
  | cons c rest ih =>
    rw [Text.words.go]
    by_cases blank : Text.isBlank c = true
    · rw [if_pos blank, ink_of_isBlank blank]
      cases word with
      | nil => exact ih []
      | cons w word =>
        have more : ink (Text.join [' '] (Text.words.go rest [])) = ink rest := ih []
        rw [List.isEmpty_cons, if_neg Bool.false_ne_true, join_cons, ink_append, ← more]
        split
        · rename_i last
          rw [last]
          rfl
        · rw [ink_of_isBlank (by decide)]
    · rw [if_neg blank, ih, List.reverse_cons, ink_append, ink_of_not_isBlank blank,
        ink_of_not_isBlank blank, List.append_assoc]
      rfl

theorem ink_collapse (cs : List Char) : ink (Text.collapse cs) = ink cs := ink_words cs []

theorem words_of_no_ink (none : ink cs = []) : Text.words.go cs [] = [] := by
  induction cs with
  | nil => rfl
  | cons c rest ih =>
    by_cases blank : Text.isBlank c = true
    · rw [ink_of_isBlank blank] at none
      rw [Text.words.go, if_pos blank, List.isEmpty_nil, if_pos rfl]
      exact ih none
    · rw [ink_of_not_isBlank blank] at none
      cases none

theorem collapse_eq_nil_iff : Text.collapse cs = [] ↔ ink cs = [] := by
  constructor
  · intro nothing
    rw [← ink_collapse, nothing]
    rfl
  · intro none
    rw [Text.collapse, Text.words, words_of_no_ink none]
    rfl

/-! ### Cutting at commas -/

/-- Cuts a text at the commas before which a condition holds of all that was read. -/
def cutWhere (outside : List Char → Prop) [DecidablePred outside] (read piece : List Char) :
    List Char → List (List Char)
  | [] => [piece]
  | c :: cs =>
    if c = ',' ∧ outside read then piece :: cutWhere outside (read ++ [c]) [] cs
    else cutWhere outside (read ++ [c]) (piece ++ [c]) cs

/-- How many more brackets are opened than closed, those in strings included. -/
def bracketDepth (cs : List Char) : Int :=
  cs.foldl (fun depth c =>
    if c = '(' ∨ c = '[' then depth + 1 else if c = ')' ∨ c = ']' then depth - 1 else depth) 0

theorem bracketDepth_snoc (read : List Char) (c : Char) : bracketDepth (read ++ [c]) =
    if c = '(' ∨ c = '[' then bracketDepth read + 1
    else if c = ')' ∨ c = ']' then bracketDepth read - 1
    else bracketDepth read := by
  unfold bracketDepth
  rw [List.foldl_append, List.foldl_cons, List.foldl_nil]

theorem bracketDepth_snoc_plain (read : List Char) (plain : Place.Plain c) :
    bracketDepth (read ++ [c]) = bracketDepth read := by
  simp only [Place.Plain, List.mem_cons, List.not_mem_nil, or_false, not_or] at plain
  obtain ⟨-, -, -, open₁, close₁, open₂, close₂⟩ := plain
  rw [bracketDepth_snoc]
  simp only [open₁, close₁, open₂, close₂, or_self, if_false]

/-- The cut of the handler goes by the depth of brackets. -/
theorem cutSelectors_eq (read piece cs : List Char) :
    cutSelectors (bracketDepth read) piece.reverse cs =
      cutWhere (fun read => bracketDepth read ≤ 0) read piece cs := by
  -- The handler keeps the depth as a number and the piece in reverse.
  induction cs generalizing read piece with
  | nil => rw [cutSelectors, cutWhere, List.reverse_reverse]
  | cons c rest ih =>
    have longer : c :: piece.reverse = (piece ++ [c]).reverse := by simp
    have depth := bracketDepth_snoc read c
    rw [cutSelectors, cutWhere]
    by_cases opens : c = '(' ∨ c = '['
    · have other : c ≠ ',' := by
        obtain rfl | rfl := opens <;> decide
      rw [if_pos opens] at depth
      rw [if_pos opens, if_neg (fun both => other both.1), ← depth, longer]
      exact ih (read ++ [c]) (piece ++ [c])
    · rw [if_neg opens] at depth
      rw [if_neg opens]
      by_cases closes : c = ')' ∨ c = ']'
      · have other : c ≠ ',' := by
          obtain rfl | rfl := closes <;> decide
        rw [if_pos closes] at depth
        rw [if_pos closes, if_neg (fun both => other both.1), ← depth, longer]
        exact ih (read ++ [c]) (piece ++ [c])
      · rw [if_neg closes] at depth
        rw [if_neg closes, ← depth]
        split
        · rw [List.reverse_reverse]
          exact congrArg (piece :: ·) (ih (read ++ [c]) [])
        · rw [longer]
          exact ih (read ++ [c]) (piece ++ [c])

/-- What is returned of pieces: without the empty ones, blanks collapsed. -/
def shown (pieces : List (List Char)) : List (List Char) :=
  (pieces.map Text.collapse).filter (!·.isEmpty)

/-- What pieces hold besides blanks, without the empty ones. -/
def inked (pieces : List (List Char)) : List (List Char) :=
  (pieces.map ink).filter (!·.isEmpty)

theorem inked_cons_of_ink {piece : List Char} (solid : ink piece ≠ []) (others : List (List Char)) :
    inked (piece :: others) = ink piece :: inked others := by
  unfold inked
  rw [List.map_cons, List.filter_cons_of_pos]
  simpa using solid

theorem inked_cons_of_no_ink {piece : List Char} (none : ink piece = [])
    (others : List (List Char)) : inked (piece :: others) = inked others := by
  unfold inked
  rw [List.map_cons, none]
  rfl

theorem inked_cons_inj (piece : List Char) (a b : List (List Char)) :
    inked (piece :: a) = inked (piece :: b) ↔ inked a = inked b := by
  by_cases none : ink piece = []
  · rw [inked_cons_of_no_ink none, inked_cons_of_no_ink none]
  · rw [inked_cons_of_ink none, inked_cons_of_ink none]
    simp

theorem map_ink_shown (pieces : List (List Char)) : (shown pieces).map ink = inked pieces := by
  induction pieces with
  | nil => rfl
  | cons piece others ih =>
    unfold shown at *
    by_cases none : ink piece = []
    · rw [inked_cons_of_no_ink none, ← ih, List.map_cons, collapse_eq_nil_iff.2 none]
      rfl
    · have solid : Text.collapse piece ≠ [] := mt collapse_eq_nil_iff.1 none
      rw [inked_cons_of_ink none, ← ih, List.map_cons, List.filter_cons_of_pos, List.map_cons,
        ink_collapse]
      simpa using solid

/-- Commas and blanks after a cut are read as the cut was. -/
def Steady (outside : List Char → Prop) : Prop :=
  ∀ read c, Place.Plain c → outside read → outside (read ++ [c])

theorem steady_depth : Steady fun read => bracketDepth read ≤ 0 := by
  intro read c plain shallow
  rwa [bracketDepth_snoc_plain read plain]

theorem steady_balanced : Steady Balanced := by
  intro read c plain balanced
  exact balanced.snoc plain

section Comparison

variable {f g : List Char → Prop} {read piece : List Char}

/-- Two conditions on what was read that agree at each comma. -/
def SameCuts (f g : List Char → Prop) (read cs : List Char) : Prop :=
  ∀ pre post, cs = pre ++ ',' :: post → (f (read ++ pre) ↔ g (read ++ pre))

theorem sameCuts_cons {cs : List Char} : SameCuts f g read (c :: cs) ↔
    (c = ',' → (f read ↔ g read)) ∧ SameCuts f g (read ++ [c]) cs := by
  constructor
  · intro same
    constructor
    · intro comma
      have here := same [] cs (by rw [comma]; rfl)
      rwa [List.append_nil] at here
    · intro pre post split
      have later := same (c :: pre) post (by rw [split]; rfl)
      rwa [List.append_cons] at later
  · intro same pre post split
    cases pre with
    | nil =>
      obtain ⟨comma, -⟩ := List.cons.inj split
      rw [List.append_nil]
      exact same.1 comma
    | cons d pre =>
      obtain ⟨rfl, rest⟩ := List.cons.inj split
      rw [List.append_cons]
      exact same.2 pre post rest

variable [DecidablePred f] [DecidablePred g]

theorem cutWhere_comma (cut : f read) (cs : List Char) :
    cutWhere f read piece (',' :: cs) = piece :: cutWhere f (read ++ [',']) [] cs := by
  rw [cutWhere, if_pos ⟨rfl, cut⟩]

theorem cutWhere_skip (goes : ¬ (c = ',' ∧ f read)) (cs : List Char) :
    cutWhere f read piece (c :: cs) = cutWhere f (read ++ [c]) (piece ++ [c]) cs := by
  rw [cutWhere, if_neg goes]

/-- A piece that holds something is the beginning of the first one. -/
theorem inked_cutWhere (solid : ink piece ≠ []) (read cs : List Char) : ∃ more others,
    inked (cutWhere f read piece cs) = (ink piece ++ more) :: others := by
  induction cs generalizing read piece with
  | nil =>
    refine ⟨[], [], ?_⟩
    rw [cutWhere, inked_cons_of_ink solid, List.append_nil]
    rfl
  | cons c rest ih =>
    rw [cutWhere]
    split
    · refine ⟨[], inked (cutWhere f (read ++ [c]) [] rest), ?_⟩
      rw [inked_cons_of_ink solid, List.append_nil]
    · have longer : ink (piece ++ [c]) ≠ [] := by
        rw [ink_append]
        exact List.append_ne_nil_of_left_ne_nil solid _
      obtain ⟨more, others, same⟩ := ih longer (read ++ [c])
      rw [ink_append, List.append_assoc] at same
      exact ⟨_, others, same⟩

/-- After a cut no piece begins with a comma: that comma would have been cut at. -/
theorem no_leading_comma (steady : Steady f) (cut : f read) (none : ink piece = [])
    {cs first : List Char} {others : List (List Char)}
    (found : inked (cutWhere f read piece cs) = first :: others) : first.head? ≠ some ',' := by
  induction cs generalizing read piece with
  | nil =>
    rw [cutWhere, inked_cons_of_no_ink none] at found
    cases found
  | cons c rest ih =>
    by_cases comma : c = ','
    · rw [comma, cutWhere_comma cut, inked_cons_of_no_ink none] at found
      exact ih (steady read ',' Place.plain_comma cut) rfl found
    · rw [cutWhere_skip fun both => comma both.1] at found
      by_cases blank : Text.isBlank c = true
      · have still : ink (piece ++ [c]) = [] := by
          rw [ink_append, none, ink_of_isBlank blank]
          rfl
        exact ih (steady read c (Place.plain_of_isBlank blank) cut) still found
      · have begun : ink (piece ++ [c]) = [c] := by
          rw [ink_append, none, ink_of_not_isBlank blank]
          rfl
        obtain ⟨more, others', same⟩ :=
          inked_cutWhere (f := f) (by rw [begun]; exact List.cons_ne_nil c []) (read ++ [c]) rest
        rw [begun, found] at same
        rw [(List.cons.inj same).1]
        intro first
        exact comma (Option.some.inj first)

/-- Two cuts of which only one is made at a comma show different pieces. -/
theorem inked_ne_of_cut (steady : Steady f) (cut : f read) (stays : ¬ g read) (cs : List Char) :
    inked (cutWhere f read piece (',' :: cs)) ≠ inked (cutWhere g read piece (',' :: cs)) := by
  have joined : ink (piece ++ [',']) = ink piece ++ [','] := by
    rw [ink_append]
    rfl
  have solid : ink (piece ++ [',']) ≠ [] := by
    rw [joined]
    exact List.append_ne_nil_of_right_ne_nil _ (List.cons_ne_nil ',' [])
  obtain ⟨more, others, kept⟩ := inked_cutWhere (f := g) solid (read ++ [',']) cs
  rw [cutWhere_comma cut, cutWhere_skip fun both => stays both.2, kept, joined]
  intro same
  by_cases none : ink piece = []
  · rw [inked_cons_of_no_ink none, none] at same
    exact no_leading_comma steady (steady read ',' Place.plain_comma cut) rfl same rfl
  · rw [inked_cons_of_ink none] at same
    have length := congrArg List.length (List.cons.inj same).1
    simp only [List.length_append, List.length_singleton] at length
    omega

/-- Cuts show the same pieces exactly if they are made at the same commas. -/
theorem inked_eq_iff (steadyF : Steady f) (steadyG : Steady g) (read piece cs : List Char) :
    inked (cutWhere f read piece cs) = inked (cutWhere g read piece cs) ↔ SameCuts f g read cs := by
  induction cs generalizing read piece with
  | nil =>
    refine iff_of_true rfl ?_
    intro pre post split
    cases pre <;> cases split
  | cons c rest ih =>
    rw [sameCuts_cons]
    by_cases comma : c = ','
    · rw [comma]
      by_cases cutF : f read
      · by_cases cutG : g read
        · rw [cutWhere_comma cutF, cutWhere_comma cutG, inked_cons_inj, ih]
          simp [cutF, cutG]
        · refine iff_of_false (inked_ne_of_cut steadyF cutF cutG rest) ?_
          intro same
          exact cutG ((same.1 rfl).1 cutF)
      · by_cases cutG : g read
        · refine iff_of_false (inked_ne_of_cut steadyG cutG cutF rest).symm ?_
          intro same
          exact cutF ((same.1 rfl).2 cutG)
        · rw [cutWhere_skip fun both => cutF both.2, cutWhere_skip fun both => cutG both.2, ih]
          simp [cutF, cutG]
    · rw [cutWhere_skip fun both => comma both.1, cutWhere_skip fun both => comma both.1, ih]
      simp [comma]

theorem cutWhere_congr (same : SameCuts f g read cs) (piece : List Char) :
    cutWhere f read piece cs = cutWhere g read piece cs := by
  induction cs generalizing read piece with
  | nil => rfl
  | cons c rest ih =>
    obtain ⟨here, later⟩ := sameCuts_cons.1 same
    have cuts : c = ',' ∧ f read ↔ c = ',' ∧ g read := and_congr_right here
    rw [cutWhere, cutWhere, ih later, ih later]
    simp only [cuts]

end Comparison

/-! ### Selectors -/

/-- The selectors of a list: pieces between commas, each of them balanced, and none with a comma
before which it is balanced. -/
structure TopLevel (list : List Char) (pieces : List (List Char)) : Prop where
  some : pieces ≠ []
  joined : Text.join [','] pieces = list
  balanced : ∀ piece ∈ pieces, Balanced piece
  whole : ∀ piece ∈ pieces, ∀ pre post, piece = pre ++ ',' :: post → ¬ Balanced pre

/-- At every comma, the depth of brackets tells whether what stands before is balanced. -/
def Aligned (list : List Char) : Prop :=
  ∀ pre post, list = pre ++ ',' :: post → (bracketDepth pre ≤ 0 ↔ Balanced pre)

/-- Commas can be looked at by their places. -/
theorem aligned_iff_getElem? (list : List Char) : Aligned list ↔ ∀ i < list.length,
    list[i]? = some ',' → (bracketDepth (list.take i) ≤ 0 ↔ Balanced (list.take i)) := by
  constructor
  · intro aligned i bound comma
    obtain ⟨_, same⟩ := List.getElem?_eq_some_iff.1 comma
    apply aligned (list.take i) (list.drop (i + 1))
    rw [← same, ← List.drop_eq_getElem_cons bound, List.take_append_drop]
  · intro each pre post split
    have long : pre.length < list.length := by simp [split]
    have here := each pre.length long (by simp [split])
    rwa [split, List.take_left] at here

instance (list : List Char) : Decidable (Aligned list) :=
  decidable_of_iff _ (aligned_iff_getElem? list).symm

theorem aligned_iff (list : List Char) :
    Aligned list ↔ SameCuts (fun read => bracketDepth read ≤ 0) Balanced [] list := Iff.rfl

/-- A piece is passed over as a whole. -/
theorem cutWhere_whole {done : List Char} (closed : Balanced done) (piece rest tail : List Char)
    (whole : ∀ pre post, piece ++ rest = pre ++ ',' :: post → ¬ Balanced pre) :
    cutWhere Balanced (done ++ piece) piece (rest ++ tail) =
      cutWhere Balanced (done ++ (piece ++ rest)) (piece ++ rest) tail := by
  induction rest generalizing piece with
  | nil => rw [List.nil_append, List.append_nil]
  | cons c rest ih =>
    have goes : ¬ (c = ',' ∧ Balanced (done ++ piece)) := by
      intro both
      apply whole piece rest (by rw [both.1])
      exact closed.append_iff.1 both.2
    rw [List.cons_append, cutWhere_skip goes, List.append_assoc, List.append_cons piece c rest]
    apply ih
    intro pre post split
    exact whole pre post (by rw [← split, List.append_cons])

theorem TopLevel.single {piece : List Char} (balanced : Balanced piece)
    (whole : ∀ pre post, piece = pre ++ ',' :: post → ¬ Balanced pre) : TopLevel piece [piece] where
  some := List.cons_ne_nil piece []
  joined := rfl
  balanced := by
    intro p mem
    rw [List.mem_singleton.1 mem]
    exact balanced
  whole := by
    intro p mem
    rw [List.mem_singleton.1 mem]
    exact whole

theorem TopLevel.cons {piece list : List Char} {others : List (List Char)} (balanced : Balanced piece)
    (whole : ∀ pre post, piece = pre ++ ',' :: post → ¬ Balanced pre) (top : TopLevel list others) :
    TopLevel (piece ++ ',' :: list) (piece :: others) where
  some := List.cons_ne_nil piece others
  joined := by rw [join_cons, if_neg top.some, top.joined]
  balanced := List.forall_mem_cons.2 ⟨balanced, top.balanced⟩
  whole := List.forall_mem_cons.2 ⟨whole, top.whole⟩

theorem TopLevel.eq_cutWhere {list : List Char} {pieces : List (List Char)}
    (top : TopLevel list pieces) {done : List Char} (closed : Balanced done) :
    pieces = cutWhere Balanced done [] list := by
  induction pieces generalizing list done with
  | nil => exact absurd rfl top.some
  | cons piece others ih =>
    obtain ⟨own, balanced⟩ := List.forall_mem_cons.1 top.balanced
    obtain ⟨unbroken, whole⟩ := List.forall_mem_cons.1 top.whole
    have passed (tail : List Char) : cutWhere Balanced done [] (piece ++ tail) =
        cutWhere Balanced (done ++ piece) piece tail := by
      have all := cutWhere_whole closed [] piece tail unbroken
      rwa [List.append_nil, List.nil_append] at all
    have joined := top.joined
    rw [join_cons] at joined
    by_cases last : others = []
    · rw [if_pos last] at joined
      rw [← joined, passed, last]
      rfl
    · rw [if_neg last] at joined
      have closed' : Balanced (done ++ piece) := closed.append_iff.2 own
      have more := ih ⟨last, rfl, balanced, whole⟩ (closed'.snoc Place.plain_comma)
      rw [← joined, passed, cutWhere_comma closed', ← more]

/-- Every balanced list has selectors. -/
theorem topLevel_cutWhere {done cs : List Char} (closed : Balanced done) (piece : List Char)
    (whole : ∀ pre post, piece = pre ++ ',' :: post → ¬ Balanced pre)
    (balanced : Balanced (piece ++ cs)) :
    TopLevel (piece ++ cs) (cutWhere Balanced (done ++ piece) piece cs) := by
  induction cs generalizing done piece with
  | nil =>
    rw [List.append_nil] at *
    exact .single balanced whole
  | cons c rest ih =>
    have next : Balanced (piece ++ [c] ++ rest) := by rwa [← List.append_cons]
    rw [cutWhere]
    split
    · rename_i cut
      obtain ⟨rfl, before⟩ := cut
      have own : Balanced piece := closed.append_iff.1 before
      have after : Balanced rest := (own.snoc Place.plain_comma).append_iff.1 next
      have more := ih (before.snoc Place.plain_comma) [] (by simp) after
      rw [List.append_nil, List.nil_append] at more
      exact .cons own whole more
    · rename_i goes
      -- A comma that is not cut at stands within brackets.
      have longer : ∀ pre post, piece ++ [c] = pre ++ ',' :: post → ¬ Balanced pre := by
        intro pre post split
        obtain rfl | ⟨init, last, rfl⟩ := List.eq_nil_or_concat' post
        · obtain ⟨rfl, comma⟩ := List.append_inj' split rfl
          intro before
          exact goes ⟨(List.cons.inj comma).1, closed.append_iff.2 before⟩
        · rw [← List.cons_append, ← List.append_assoc] at split
          exact whole pre init (List.append_inj' split rfl).1
      have more := ih closed (piece ++ [c]) longer next
      rwa [← List.append_cons, ← List.append_assoc] at more

theorem topLevel_iff {list : List Char} (balanced : Balanced list) (pieces : List (List Char)) :
    TopLevel list pieces ↔ pieces = cutWhere Balanced [] [] list := by
  have made : TopLevel list (cutWhere Balanced [] [] list) :=
    topLevel_cutWhere balanced_nil [] (by simp) balanced
  constructor
  · intro top
    exact top.eq_cutWhere balanced_nil
  · intro same
    rw [same]
    exact made

theorem splitSelectors_eq (list : List Char) :
    splitSelectors list = shown (cutWhere (fun read => bracketDepth read ≤ 0) [] [] list) := by
  rw [splitSelectors, shown, ← cutSelectors_eq]
  rfl

theorem splitSelectors_eq_iff (list : List Char) :
    splitSelectors list = shown (cutWhere Balanced [] [] list) ↔ Aligned list := by
  rw [splitSelectors_eq]
  constructor
  · intro same
    have inks := congrArg (List.map ink) same
    rw [map_ink_shown, map_ink_shown, inked_eq_iff steady_depth steady_balanced] at inks
    exact inks
  · intro aligned
    rw [cutWhere_congr ((aligned_iff list).1 aligned)]

theorem balanced_of_shown {pieces : List (List Char)} (balanced : ∀ p ∈ pieces, Balanced p)
    {selector : List Char} (mem : selector ∈ shown pieces) : Balanced selector := by
  obtain ⟨piece, there, rfl⟩ := List.mem_map.1 (List.mem_filter.1 mem).1
  exact (balanced piece there).collapse

/-! ### Strings without brackets -/

/-- No string holds a bracket, and a string that holds a comma stands within brackets. -/
def QuietStrings (list : List Char) : Prop :=
  ∀ pre c post p, list = pre ++ c :: post → ({} : Place).scan pre = some p → p.string ≠ none →
    c ∉ ['(', ')', '[', ']'] ∧ (c = ',' → p.closers ≠ [])

theorem step_in_string {closers : List Char} {s : Quote × Bool} {p : Place}
    (moved : Place.step ⟨closers, some s⟩ c = some p) : p.closers = closers := by
  obtain ⟨quote, escaped⟩ := s
  cases escaped with
  | true =>
    cases moved
    rfl
  | false =>
    simp only [Place.step] at moved
    split at moved
    all_goals
      cases moved
      rfl

theorem step_opens {closers : List Char} {p : Place}
    (moved : Place.step ⟨closers, none⟩ c = some p) (opens : c = '(' ∨ c = '[') :
    p.closers.length = closers.length + 1 := by
  simp only [Place.step] at moved
  obtain rfl | rfl := opens
  all_goals
    cases moved
    rfl

theorem step_closes {closers : List Char} {p : Place}
    (moved : Place.step ⟨closers, none⟩ c = some p) (closes : c = ')' ∨ c = ']') :
    p.closers.length + 1 = closers.length := by
  simp only [Place.step] at moved
  obtain rfl | rfl := closes
  all_goals
    simp only [Char.reduceEq, if_false, or_true, true_or, if_true] at moved
    split at moved
    · rename_i top
      cases moved
      cases closers with
      | nil => cases top
      | cons d rest => rfl
    · cases moved

theorem step_elsewhere {closers : List Char} {p : Place}
    (moved : Place.step ⟨closers, none⟩ c = some p) (opens : ¬ (c = '(' ∨ c = '['))
    (closes : ¬ (c = ')' ∨ c = ']')) : p.closers = closers := by
  obtain ⟨round, square⟩ := not_or.1 opens
  simp only [Place.step] at moved
  rw [if_neg round, if_neg square, if_neg closes] at moved
  split at moved
  · cases moved
    rfl
  · split at moved
    all_goals
      cases moved
      rfl

/-- Outside of strings a step moves the depth as the count does. -/
theorem length_step {p q : Place} (moved : q.step c = some p)
    (quiet : q.string ≠ none → c ∉ ['(', ')', '[', ']']) : (p.closers.length : Int) =
      if c = '(' ∨ c = '[' then (q.closers.length : Int) + 1
      else if c = ')' ∨ c = ']' then (q.closers.length : Int) - 1
      else q.closers.length := by
  obtain ⟨closers, string⟩ := q
  cases string with
  | some s =>
    have other := quiet (Option.some_ne_none s)
    simp only [List.mem_cons, List.not_mem_nil, or_false, not_or] at other
    simp [other, step_in_string moved]
  | none =>
    by_cases opens : c = '(' ∨ c = '['
    · rw [if_pos opens, step_opens moved opens]
      rfl
    rw [if_neg opens]
    by_cases closes : c = ')' ∨ c = ']'
    · rw [if_pos closes, ← step_closes moved closes]
      simp
    · rw [if_neg closes, step_elsewhere moved opens closes]

theorem depth_eq_length {list : List Char} (quiet : QuietStrings list) {p : Place} {pre : List Char}
    (before : pre <+: list) (read : ({} : Place).scan pre = some p) :
    bracketDepth pre = p.closers.length := by
  induction pre using List.reverseRecOn generalizing p with
  | nil =>
    cases read
    rfl
  | append_singleton pre c ih =>
    obtain ⟨post, split⟩ := before
    rw [List.append_assoc, List.singleton_append] at split
    rw [Place.scan_append] at read
    obtain ⟨q, start, last⟩ := Option.bind_eq_some_iff.1 read
    rw [Place.scan_singleton] at last
    have depth := ih ⟨c :: post, split⟩ start
    have moved := length_step last fun inside => (quiet pre c post q split.symm start inside).1
    rw [bracketDepth_snoc, depth, moved]

/-- For lists with such strings the cut is right. -/
theorem aligned_of_quietStrings {list : List Char} (balanced : Balanced list)
    (quiet : QuietStrings list) : Aligned list := by
  intro pre post split
  unfold Balanced at *
  rw [split, Place.scan_append] at balanced
  obtain ⟨p, read, -⟩ := Option.bind_eq_some_iff.1 balanced
  have depth := depth_eq_length quiet ⟨',' :: post, split.symm⟩ read
  rw [depth, read]
  constructor
  · intro shallow
    have closed : p.closers = [] := List.length_eq_zero_iff.1 (by omega)
    have outside : p.string = none := by
      by_contra inside
      exact (quiet pre ',' post p split read inside).2 rfl closed
    have start : p = {} := by
      cases p with
      | mk closers string => rw [show closers = [] from closed, show string = none from outside]
    rw [start]
  · intro done
    cases done
    rfl

/-! ### Chunks of a rule -/

def selectorId (n : Syntax.Node) (index : Nat) : String :=
  "css:rule:" ++ Sheet.span n ++ ":" ++ toString index

theorem selectorId_injective (n : Syntax.Node) : Function.Injective (selectorId n) := by
  intro i j same
  have texts := congrArg String.toList same
  simp only [selectorId, String.toList_append, List.append_cancel_left_eq] at texts
  apply Json.toDigits_injective
  rwa [← Nat.toList_repr, ← Nat.toList_repr]

namespace Sheet

variable {s : Sheet} {n block : Syntax.Node} {at' : Scope}

/-- The chunk of a selector in one or more parts. -/
theorem selector_parts (noText : s.count [] = 0) (n : Syntax.Node) (id : String) (body : List Char)
    (cascade : Option String) (total index : Nat) (sel : List Char) :
    (s.selector n id body cascade total index sel).chunks ≠ [] ∧
      ∀ p ∈ (s.selector n id body cascade total index sel).chunks, p.chunkId = selectorId n index ∧
        p.metadata.find? "selector" = some (.str (String.ofList sel)) := by
  let m := Metadata.ofList [("kind", .str "rule"), ("selector", .str (String.ofList sel)),
    ("selector_index", .nat index), ("selector_total", .nat total),
    ("body", .str (String.ofList body))]
  have listed : m.find? "selector" = some (.str (String.ofList sel)) := SortedMap.find?_ofList _ _
  have named : (putCascade m cascade).find? "selector" = some (.str (String.ofList sel)) := by
    cases cascade with
    | none => exact listed
    | some c => rw [putCascade, Metadata.putStr, Metadata.find?_put_ne (by decide), listed]
  have parts (exact : Bool) (c : Chunk) (own : c.chunkId = selectorId n index)
      (holds : c.metadata.find? "selector" = some (.str (String.ofList sel))) :
      (s.chunk exact c).chunks ≠ [] ∧ ∀ p ∈ (s.chunk exact c).chunks,
        p.chunkId = selectorId n index ∧
          p.metadata.find? "selector" = some (.str (String.ofList sel)) := by
    constructor
    · exact Split.chunk_ne_nil noText _ _ _
    · intro p mem
      obtain ⟨i, part, -, rfl⟩ := Split.mem_chunk mem
      constructor
      · exact own
      · rw [Split.find?_partChunk (by decide),
          Metadata.find?_putLines_ne (by decide) (by decide), holds]
  unfold selector
  dsimp only
  split
  · exact parts true _ rfl named
  · exact parts false _ rfl named

/-- The selectors of a rule. -/
def selectorsOf (s : Sheet) (n : Syntax.Node) : List (List Char) :=
  splitSelectors (((n.childOfKind? "selectors").map s.slice).getD [])

/-- Chunks that belong to selectors, one chunk to each, in their order. -/
structure OnePer (selectors : List (List Char)) (n : Syntax.Node) (chunks : List Chunk) : Prop where
  ids : ChunkGroup.idsOf chunks = (List.range selectors.length).map (selectorId n)
  each : ∀ p ∈ chunks, ∃ i sel, selectors[i]? = some sel ∧ p.chunkId = selectorId n i ∧
    p.metadata.find? "selector" = some (.str (String.ofList sel))

theorem ruleHead_onePer (noText : s.count [] = 0) (at' : Scope) (n block : Syntax.Node) :
    OnePer (s.selectorsOf n) n (s.ruleHead at' n block).chunks := by
  let made (x : List Char × Nat) := s.selector n ("css:rule:" ++ toString n.start) (s.slice block)
    at'.cascade (s.selectorsOf n).length x.2 x.1
  have parts (x : List Char × Nat) := selector_parts noText n ("css:rule:" ++ toString n.start)
    (s.slice block) at'.cascade (s.selectorsOf n).length x.2 x.1
  have chunks : (s.ruleHead at' n block).chunks =
      (s.selectorsOf n).zipIdx.flatMap fun x => (made x).chunks := by
    have joined := (Plain.join_chunks ((s.selectorsOf n).zipIdx.map made)).1
    have placed : (s.selectorsOf n).zipIdx.map made =
        (s.selectorsOf n).mapIdx fun i sel => made (sel, i) := List.mapIdx_eq_zipIdx_map.symm
    rw [List.flatMap_map, placed] at joined
    exact joined
  have ids : (s.selectorsOf n).zipIdx.map (fun x => selectorId n x.2) =
      (List.range (s.selectorsOf n).length).map (selectorId n) := by
    rw [List.range_eq_range', ← List.zipIdx_map_snd 0 (s.selectorsOf n), List.map_map]
    rfl
  constructor
  · rw [chunks, ← ids]
    apply ChunkGroup.idsOf_flatMap
    · rw [ids]
      exact List.Nodup.map (selectorId_injective n) List.nodup_range
    · intro x _
      exact (parts x).1
    · intro x _ p mem
      exact ((parts x).2 p mem).1
  · intro p mem
    rw [chunks] at mem
    obtain ⟨⟨sel, i⟩, there, part⟩ := List.mem_flatMap.1 mem
    exact ⟨i, sel, List.mem_zipIdx_iff_getElem?.1 there, (parts (sel, i)).2 p part⟩

end Sheet

/-- A balanced list has one cut into selectors. The handler returns these exactly if brackets in
strings mislead it at no comma; a rule has one chunk for each selector that is returned. -/
theorem selectors_split_iff {list : List Char} (balanced : Balanced list) :
    ∃ pieces, (∀ others, TopLevel list others ↔ others = pieces) ∧
      (splitSelectors list = (pieces.map Text.collapse).filter (!·.isEmpty) ↔ Aligned list) ∧
      (∀ selector ∈ (pieces.map Text.collapse).filter (!·.isEmpty), Balanced selector) ∧
      ∀ (s : Sheet) (at' : Scope) (n head block : Syntax.Node), s.count [] = 0 →
        n.childOfKind? "selectors" = some head → s.slice head = list →
        Sheet.OnePer (splitSelectors list) n (s.ruleHead at' n block).chunks := by
  refine ⟨cutWhere Balanced [] [] list, topLevel_iff balanced, splitSelectors_eq_iff list, ?_, ?_⟩
  · intro selector mem
    exact balanced_of_shown ((topLevel_iff balanced _).2 rfl).balanced mem
  · intro s at' n head block noText named text
    have selectors : s.selectorsOf n = splitSelectors list := by
      rw [Sheet.selectorsOf, named, Option.map_some, Option.getD_some, text]
    rw [← selectors]
    exact Sheet.ruleHead_onePer noText at' n block

/-- Commas in brackets, and in a string within brackets, are passed over. -/
theorem attribute_list_splits :
    let list := "a:not(.x, .y),\n  b[data-k=\"1,2\"]".toList
    Balanced list ∧ Aligned list ∧
      splitSelectors list = ["a:not(.x, .y)".toList, "b[data-k=\"1,2\"]".toList] ∧
      ∃ pieces, (∀ others, TopLevel list others ↔ others = pieces) ∧
        splitSelectors list = (pieces.map Text.collapse).filter (!·.isEmpty) ∧
        ∀ selector ∈ splitSelectors list, Balanced selector := by
  intro list
  have balanced : Balanced list := by decide +kernel
  have aligned : Aligned list := by decide +kernel
  obtain ⟨pieces, unique, split, own, -⟩ := selectors_split_iff balanced
  have right := split.2 aligned
  refine ⟨balanced, aligned, by decide +kernel, pieces, unique, right, ?_⟩
  rw [right]
  exact own

/-- A bracket in a string hides the comma after it. -/
theorem bracket_in_string_hides_comma :
    let list := "a[title=\"(\"], b".toList
    Balanced list ∧ TopLevel list ["a[title=\"(\"]".toList, " b".toList] ∧
      splitSelectors list = [list] := by
  intro list
  have balanced : Balanced list := by decide +kernel
  refine ⟨balanced, (topLevel_iff balanced _).2 ?_, ?_⟩
  · decide +kernel
  · decide +kernel

end SourceSlices.Css
