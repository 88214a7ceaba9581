import Mathlib.Data.List.Forall2
import Mathlib.Data.List.TakeWhile
import SourceSlices.Proofs.ByteRanges
import SourceSlices.Proofs.HandlerChoice
import SourceSlices.Proofs.RecordedPaths
import SourceSlices.Text.Dedent

/-!
Removing the common indentation of lines. What is left are the lines from the first to the last one that is
not blank, each without some of the blanks at its ends. One of them is left without indentation, so that a
second removal finds nothing.
-/
namespace SourceSlices.Text

/-! ### Cutting at both ends -/

variable {α : Type} {p : α → Bool}

/-- A list is what stands between the members at its ends that are cut off. -/
theorem exists_between (p : α → Bool) (l : List α) : ∃ before kept after, l = before ++ kept ++ after ∧
    (∀ a ∈ before, p a = true) ∧ (∀ a ∈ after, p a = true) ∧ (∀ a ∈ kept.head?, p a = false) ∧
      ∀ a ∈ kept.getLast?, p a = false := by
  induction l with
  | nil => exact ⟨[], [], [], rfl, by simp, by simp, by simp, by simp⟩
  | cons a l ih =>
    obtain ⟨before, kept, after, rfl, first, last, head, foot⟩ := ih
    cases own : p a with
    | true =>
      exact ⟨a :: before, kept, after, rfl, List.forall_mem_cons.2 ⟨own, first⟩, last, head, foot⟩
    | false =>
      -- All that stands before the last member that stays is kept.
      cases back : kept.getLast? with
      | none =>
        obtain rfl := List.getLast?_eq_none_iff.1 back
        refine ⟨[], [a], before ++ after, by simp, by simp, ?_, by simpa using own, by simpa using own⟩
        intro b mem
        rcases List.mem_append.1 mem with mem | mem
        · exact first b mem
        · exact last b mem
      | some b =>
        have foot' : p b = false := foot b back
        refine ⟨[], a :: (before ++ kept), after, by simp, by simp, last, by simpa using own, ?_⟩
        intro c there
        rw [← List.cons_append, List.getLast?_append, back] at there
        exact Option.some.inj there ▸ foot'

theorem trimWhere_between {p : Char → Bool} {before kept after : List Char}
    (first : ∀ c ∈ before, p c = true) (last : ∀ c ∈ after, p c = true)
    (head : ∀ c ∈ kept.head?, p c = false) (foot : ∀ c ∈ kept.getLast?, p c = false) :
    trimWhere p (before ++ kept ++ after) = kept := by
  rw [trimWhere, trimStartWhere, List.append_assoc, List.dropWhile_append_of_pos first]
  cases kept with
  | nil =>
    rw [List.nil_append, List.dropWhile_eq_nil_iff.2 last]
    rfl
  | cons c rest =>
    have stays : ¬ p c = true := by
      rw [head c rfl]
      exact Bool.false_ne_true
    rw [List.cons_append, List.dropWhile_cons_of_neg stays]
    apply trimEndWhere_iff.2
    refine ⟨after, rfl, last, ?_⟩
    intro d there
    rw [foot d there]
    exact Bool.false_ne_true

theorem trimWhere_trimWhere (p : Char → Bool) (cs : List Char) :
    trimWhere p (trimWhere p cs) = trimWhere p cs := by
  obtain ⟨before, kept, after, rfl, first, last, head, foot⟩ := exists_between p cs
  have all : trimWhere p ([] ++ kept ++ []) = kept := trimWhere_between (by simp) (by simp) head foot
  rw [List.nil_append, List.append_nil] at all
  rw [trimWhere_between first last head foot, all]

theorem trimEnd_ended (cs : List Char) : ∀ c ∈ (trimEnd cs).getLast?, isBlank c = false := by
  obtain ⟨-, -, -, ended⟩ := trimEndWhere_iff.1 (Eq.refl (trimEndWhere isBlank cs))
  intro c last
  exact Bool.eq_false_iff.2 (ended c last)

theorem trimEnd_of_ended {cs : List Char} (ended : ∀ c ∈ cs.getLast?, isBlank c = false) :
    trimEnd cs = cs := by
  apply trimEndWhere_iff.2
  refine ⟨[], (List.append_nil cs).symm, by simp, ?_⟩
  intro c last
  exact Bool.eq_false_iff.1 (ended c last)

/-! ### Lines and their text -/

theorem join_cons_cons (sep a b : List Char) (rest : List (List Char)) :
    join sep (a :: b :: rest) = a ++ sep ++ join sep (b :: rest) := rfl

theorem join_eq (sep : List Char) (pieces : List (List Char)) :
    join sep pieces = sep.intercalate pieces := by
  induction pieces with
  | nil => rfl
  | cons piece rest ih =>
    cases rest with
    | nil => simp [join]
    | cons next rest => rw [join_cons_cons, ih, List.intercalate_cons_cons]

variable {lines : List (List Char)}

theorem join_splitOn (cs : List Char) : join ['\n'] (splitOn '\n' cs) = cs := by
  rw [join_eq, splitOn_eq, List.intercalate_splitOn]

theorem splitOn_join (free : ∀ l ∈ lines, '\n' ∉ l) (some : lines ≠ []) :
    splitOn '\n' (join ['\n'] lines) = lines := by
  rw [join_eq, splitOn_eq, List.splitOn_intercalate '\n' free some]

theorem join_append {a b : List (List Char)} (first : a ≠ []) (second : b ≠ []) :
    join ['\n'] (a ++ b) = join ['\n'] a ++ '\n' :: join ['\n'] b := by
  induction a with
  | nil => exact absurd rfl first
  | cons line rest ih =>
    cases rest with
    | nil =>
      obtain ⟨next, others, rfl⟩ := List.exists_cons_of_ne_nil second
      simp [join]
    | cons next rest =>
      have more := ih (List.cons_ne_nil next rest)
      simp only [List.cons_append] at more ⊢
      rw [join_cons_cons, more, join_cons_cons]
      simp

/-- Empty lines are as many line feeds before or behind others. -/
theorem join_padded (some : lines ≠ []) (m n : Nat) :
    join ['\n'] (List.replicate m [] ++ lines ++ List.replicate n []) =
      List.replicate m '\n' ++ join ['\n'] lines ++ List.replicate n '\n' := by
  have before : ∀ l : List (List Char), l ≠ [] →
      join ['\n'] (List.replicate m [] ++ l) = List.replicate m '\n' ++ join ['\n'] l := by
    intro l filled
    induction m with
    | zero => rfl
    | succ m ih =>
      obtain ⟨line, rest, there⟩ := List.exists_cons_of_ne_nil
        (List.append_ne_nil_of_right_ne_nil (List.replicate m []) filled)
      rw [List.replicate_succ, List.cons_append, there, join_cons_cons, ← there, ih]
      rfl
  have after : join ['\n'] (lines ++ List.replicate n []) = join ['\n'] lines ++ List.replicate n '\n' := by
    induction n with
    | zero => simp
    | succ n ih =>
      have snoc : lines ++ List.replicate (n + 1) [] = (lines ++ List.replicate n []) ++ [[]] := by
        rw [List.replicate_succ', List.append_assoc]
      rw [snoc, join_append (by simp [some]) (List.cons_ne_nil _ _), ih, List.replicate_succ']
      simp [join]
  rw [List.append_assoc, before _ (by simp [some]), after, List.append_assoc]

theorem join_empty (n : Nat) : ∀ c ∈ join ['\n'] (List.replicate n []), c = '\n' := by
  induction n with
  | zero => simp [join]
  | succ n ih =>
    cases n with
    | zero => simp [join]
    | succ n =>
      intro c mem
      simp only [List.replicate_succ, join, List.nil_append, List.mem_append, List.mem_singleton] at mem ih
      rcases mem with rfl | mem
      · rfl
      · exact ih c mem

theorem mem_join {c : Char} (mem : c ∈ join ['\n'] lines) : c = '\n' ∨ ∃ l ∈ lines, c ∈ l := by
  induction lines with
  | nil => cases mem
  | cons line rest ih =>
    cases rest with
    | nil => exact .inr ⟨line, List.mem_cons_self, mem⟩
    | cons next rest =>
      rw [join_cons_cons, List.append_assoc] at mem
      rcases List.mem_append.1 mem with own | mem
      · exact .inr ⟨line, List.mem_cons_self, own⟩
      · rcases List.mem_append.1 mem with feed | mem
        · exact .inl (List.mem_singleton.1 feed)
        · obtain same | ⟨l, there, inside⟩ := ih mem
          · exact .inl same
          · exact .inr ⟨l, List.mem_cons_of_mem _ there, inside⟩

theorem mem_of_mem_lines {cs line : List Char} (mem : line ∈ splitOn '\n' cs) {c : Char}
    (inside : c ∈ line) : c ∈ cs := by
  have held : ∀ lines : List (List Char), line ∈ lines → c ∈ join ['\n'] lines := by
    intro lines mem
    induction lines with
    | nil => cases mem
    | cons first rest ih =>
      cases rest with
      | nil => exact List.mem_singleton.1 mem ▸ inside
      | cons next rest =>
        rw [join_cons_cons, List.append_assoc]
        rcases List.mem_cons.1 mem with rfl | mem
        · exact List.mem_append_left _ inside
        · exact List.mem_append_right _ (List.mem_append_right _ (ih mem))
  exact join_splitOn cs ▸ held _ mem

/-- What a text holds besides blanks. -/
def solids (cs : List Char) : List Char := cs.filter fun c => !isBlank c

@[simp] theorem solids_append (a b : List Char) : solids (a ++ b) = solids a ++ solids b :=
  List.filter_append a b

theorem solids_eq_nil_iff {cs : List Char} : solids cs = [] ↔ ∀ c ∈ cs, isBlank c = true := by
  simp [solids]

theorem solids_join (lines : List (List Char)) :
    solids (join ['\n'] lines) = (lines.map solids).flatten := by
  induction lines with
  | nil => rfl
  | cons line rest ih =>
    have feed : solids ['\n'] = [] := by decide
    cases rest with
    | nil => simp [join]
    | cons next rest =>
      rw [join_cons_cons, solids_append, solids_append, feed, ih]
      simp

/-! ### Line ends -/

theorem solids_unifyLineEnds (cs : List Char) : solids (unifyLineEnds cs) = solids cs := by
  fun_induction unifyLineEnds cs with
  | case1 => rfl
  | case2 cs ih => simpa [solids, isBlank] using ih
  | case3 c cs other ih =>
    have same : isBlank (if c = '\r' then '\n' else c) = isBlank c := by
      split
      · rename_i feed
        subst feed
        rfl
      · rfl
    by_cases blank : isBlank c = true
    · simpa [solids, same, blank] using ih
    · have kept : c ≠ '\r' := by
        rintro rfl
        exact blank (by decide)
      simpa [solids, kept, blank] using ih

theorem no_return_unifyLineEnds (cs : List Char) : '\r' ∉ unifyLineEnds cs := by
  fun_induction unifyLineEnds cs with
  | case1 => exact List.not_mem_nil
  | case2 cs ih => simp [ih]
  | case3 c cs other ih =>
    intro mem
    rcases List.mem_cons.1 mem with same | mem
    · split at same
      · cases same
      · rename_i kept
        exact kept same.symm
    · exact ih mem

theorem unifyLineEnds_of_no_return {cs : List Char} (free : '\r' ∉ cs) : unifyLineEnds cs = cs := by
  fun_induction unifyLineEnds cs with
  | case1 => rfl
  | case2 cs ih => simp at free
  | case3 c cs other ih =>
    obtain ⟨kept, rest⟩ := not_or.1 (mt List.mem_cons.2 free)
    rw [if_neg (Ne.symm kept), ih rest]

/-! ### Indentation -/

/-- What is left of a line when blanks at its ends are cut off. -/
def CutFrom (line part : List Char) : Prop :=
  ∃ a b, line = a ++ part ++ b ∧ isAllBlank a = true ∧ isAllBlank b = true

theorem isAllBlank_iff {cs : List Char} : isAllBlank cs = true ↔ ∀ c ∈ cs, isBlank c = true :=
  List.all_eq_true

theorem isAllBlank_append {a b : List Char} :
    isAllBlank (a ++ b) = true ↔ isAllBlank a = true ∧ isAllBlank b = true := by
  rw [isAllBlank, List.all_append, Bool.and_eq_true]
  rfl

theorem exists_of_forall₂ {β : Type} {R : α → β → Prop} {l : List α} {m : List β} (each : List.Forall₂ R l m)
    {i : Nat} {b : β} (there : m[i]? = some b) : ∃ a, l[i]? = some a ∧ R a b := by
  induction each generalizing i with
  | nil => cases there
  | cons holds _ ih =>
    cases i with
    | zero =>
      obtain rfl := Option.some.inj there
      exact ⟨_, rfl, holds⟩
    | succ i => exact ih there

namespace CutFrom

variable {line part : List Char}

theorem solids_eq (cut : CutFrom line part) : solids part = solids line := by
  obtain ⟨a, b, rfl, first, last⟩ := cut
  rw [solids_append, solids_append, solids_eq_nil_iff.2 (isAllBlank_iff.1 first),
    solids_eq_nil_iff.2 (isAllBlank_iff.1 last)]
  simp

theorem isAllBlank_iff (cut : CutFrom line part) :
    isAllBlank part = true ↔ isAllBlank line = true := by
  rw [Text.isAllBlank_iff, Text.isAllBlank_iff, ← solids_eq_nil_iff, ← solids_eq_nil_iff, cut.solids_eq]

theorem mem (cut : CutFrom line part) {c : Char} (mem : c ∈ part) : c ∈ line := by
  obtain ⟨a, b, rfl, -, -⟩ := cut
  simp [mem]

theorem map_solids {made : List (List Char)} (each : List.Forall₂ CutFrom lines made) :
    made.map solids = lines.map solids := by
  induction each with
  | nil => rfl
  | cons cut _ ih => rw [List.map_cons, List.map_cons, cut.solids_eq, ih]

end CutFrom

theorem afterBytes?_some {n : Nat} {cs rest : List Char} (found : afterBytes? n cs = some rest) :
    ∃ a, cs = a ++ rest ∧ byteLength a = n := by
  induction n, cs using afterBytes?.induct with
  | case1 cs =>
    rw [afterBytes?] at found
    obtain rfl := Option.some.inj found
    exact ⟨[], rfl, rfl⟩
  | case2 n => cases found
  | case3 n c cs short => simp [afterBytes?, short] at found
  | case4 n c cs fits ih =>
    rw [afterBytes?, if_neg fits] at found
    obtain ⟨a, rfl, long⟩ := ih found
    refine ⟨c :: a, rfl, ?_⟩
    rw [byteLength_cons, long]
    omega

theorem afterBytes?_append (a rest : List Char) : afterBytes? (byteLength a) (a ++ rest) = some rest := by
  induction a with
  | nil => cases rest <;> rfl
  | cons c a ih =>
    have wide := c.utf8Size_pos
    obtain ⟨n, long⟩ : ∃ n, byteLength (c :: a) = n + 1 := by
      rw [byteLength_cons]
      exact ⟨c.utf8Size + byteLength a - 1, by omega⟩
    rw [long, List.cons_append, afterBytes?]
    rw [byteLength_cons] at long
    rw [if_neg (by omega), ← ih]
    congr 1
    omega

theorem trimEnd_cut (cs : List Char) : CutFrom cs (trimEnd cs) := by
  obtain ⟨b, same, blank, -⟩ := trimEndWhere_iff.1 (Eq.refl (trimEndWhere isBlank cs))
  exact ⟨[], b, by simpa [trimEnd] using same, rfl, isAllBlank_iff.2 blank⟩

/-- As many bytes as the indentation has, or fewer, are blank. -/
theorem isAllBlank_of_short {a rest : List Char} (short : byteLength a ≤ indentOf (a ++ rest)) :
    isAllBlank a = true := by
  induction a with
  | nil => rfl
  | cons c a ih =>
    cases blank : isBlank c with
    | true =>
      rw [indentOf, List.cons_append, List.takeWhile_cons_of_pos blank, byteLength_cons,
        byteLength_cons] at short
      have more := ih (by rw [indentOf]; omega)
      rw [isAllBlank, List.all_cons, blank]
      exact more
    | false =>
      have wide := byteLength_pos (List.cons_ne_nil c a)
      have stays : ¬ isBlank c = true := by simp [blank]
      rw [indentOf, List.cons_append, List.takeWhile_cons_of_neg stays] at short
      exact absurd (Nat.lt_of_lt_of_le wide short) (Nat.lt_irrefl 0)

theorem outdent_cut {n : Nat} {line : List Char} (short : isAllBlank line = false → n ≤ indentOf line) :
    CutFrom line (outdent n line) := by
  -- What goes first is blank, whether the bytes end at a character or not.
  have first : ∃ a, line = a ++ (afterBytes? n line).getD (trimStart line) ∧ isAllBlank a = true := by
    cases found : afterBytes? n line with
    | none =>
      refine ⟨line.takeWhile isBlank, List.takeWhile_append_dropWhile.symm, ?_⟩
      exact List.all_takeWhile
    | some rest =>
      obtain ⟨a, rfl, rfl⟩ := afterBytes?_some found
      refine ⟨a, rfl, ?_⟩
      cases blank : isAllBlank (a ++ rest) with
      | true => exact (isAllBlank_append.1 blank).1
      | false => exact isAllBlank_of_short (short blank)
  obtain ⟨a, same, front⟩ := first
  obtain ⟨a', b, same', front', back⟩ := trimEnd_cut ((afterBytes? n line).getD (trimStart line))
  refine ⟨a ++ a', b, ?_, isAllBlank_append.2 ⟨front, front'⟩, back⟩
  rw [outdent, List.append_assoc, List.append_assoc, ← List.append_assoc a', ← same', ← same]

theorem outdent_ended (n : Nat) (line : List Char) : ∀ c ∈ (outdent n line).getLast?, isBlank c = false :=
  trimEnd_ended _

theorem head?_trimEnd {c : Char} (solid : isBlank c = false) (rest : List Char) :
    (trimEnd (c :: rest)).head? = some c := by
  obtain ⟨b, same, blank, -⟩ := trimEndWhere_iff.1 (Eq.refl (trimEndWhere isBlank (c :: rest)))
  rw [trimEnd]
  cases stem : trimEndWhere isBlank (c :: rest) with
  | nil =>
    rw [stem, List.nil_append] at same
    have all := blank c (same ▸ List.mem_cons_self)
    rw [solid] at all
    cases all
  | cons d ds =>
    rw [stem, List.cons_append] at same
    rw [List.head?_cons, (List.cons.inj same).1]

/-- A line that is indented by just as much begins with what is not blank. -/
theorem outdent_flush {line : List Char} (solid : isAllBlank line = false) :
    ∃ c ∈ (outdent (indentOf line) line).head?, isBlank c = false := by
  have parts : line.takeWhile isBlank ++ line.dropWhile isBlank = line := List.takeWhile_append_dropWhile
  have found := afterBytes?_append (line.takeWhile isBlank) (line.dropWhile isBlank)
  rw [parts] at found
  have here : outdent (indentOf line) line = trimEnd (line.dropWhile isBlank) := by
    rw [outdent, indentOf, found]
    rfl
  have some : line.dropWhile isBlank ≠ [] := by
    intro none
    exact Bool.false_ne_true (solid ▸ isAllBlank_iff.2 (List.dropWhile_eq_nil_iff.1 none))
  have stays := List.head_dropWhile_not isBlank some
  obtain ⟨c, rest, there⟩ := List.exists_cons_of_ne_nil some
  simp only [there, List.head_cons] at stays
  rw [here, there]
  exact ⟨c, head?_trimEnd stays rest, stays⟩

theorem outdent_blank (n : Nat) {line : List Char} (blank : isAllBlank line = true) : outdent n line = [] := by
  have cut : CutFrom line (outdent n line) := outdent_cut (by simp [blank])
  have all := isAllBlank_iff.1 (cut.isAllBlank_iff.2 blank)
  cases last : (outdent n line).getLast? with
  | none => exact List.getLast?_eq_none_iff.1 last
  | some c =>
    have solid := outdent_ended n line c last
    rw [all c (List.mem_of_getLast? last)] at solid
    cases solid

theorem commonIndent_min? (solid : ∃ l ∈ lines, isAllBlank l = false) :
    ((lines.filter (!isAllBlank ·)).map indentOf).min? = some (commonIndent lines) := by
  obtain ⟨l, mem, blank⟩ := solid
  have kept : indentOf l ∈ (lines.filter (!isAllBlank ·)).map indentOf :=
    List.mem_map_of_mem (List.mem_filter.2 ⟨mem, by simp [blank]⟩)
  rw [commonIndent]
  split
  · rename_i none
    rw [none] at kept
    cases kept
  · rename_i n rest found
    rw [found, List.min?_cons']

theorem commonIndent_le {line : List Char} (mem : line ∈ lines) (solid : isAllBlank line = false) :
    commonIndent lines ≤ indentOf line := by
  apply (List.min?_eq_some_iff.1 (commonIndent_min? ⟨line, mem, solid⟩)).2
  exact List.mem_map_of_mem (List.mem_filter.2 ⟨mem, by simp [solid]⟩)

theorem exists_commonIndent (solid : ∃ l ∈ lines, isAllBlank l = false) :
    ∃ l ∈ lines, isAllBlank l = false ∧ indentOf l = commonIndent lines := by
  obtain ⟨l, mem, same⟩ := List.mem_map.1 (List.min?_eq_some_iff.1 (commonIndent_min? solid)).1
  obtain ⟨mem, filled⟩ := List.mem_filter.1 mem
  exact ⟨l, mem, by simpa using filled, same⟩

/-! ### The text that is left -/

/-- The lines of a text from the first to the last one that is not blank, and what is made of them. -/
structure Dedents (text : List Char) (before kept after made : List (List Char)) : Prop where
  lines : splitOn '\n' (unifyLineEnds text) = before ++ kept ++ after
  above : ∀ l ∈ before, isAllBlank l = true
  below : ∀ l ∈ after, isAllBlank l = true
  first : ∀ l ∈ kept.head?, isAllBlank l = false
  last : ∀ l ∈ kept.getLast?, isAllBlank l = false
  blank : kept = [] ↔ isAllBlank text = true
  cut : List.Forall₂ CutFrom kept made
  text_eq : dedent text = join ['\n'] made
  lines_eq : kept ≠ [] → splitOn '\n' (dedent text) = made
  ended : ∀ l ∈ made, ∀ c ∈ l.getLast?, isBlank c = false
  flush : kept ≠ [] → ∃ l ∈ made, ∃ c ∈ l.head?, isBlank c = false

theorem map_outdent_blank (n : Nat) {lines : List (List Char)} (blank : ∀ l ∈ lines, isAllBlank l = true) :
    lines.map (outdent n) = List.replicate lines.length [] := by
  rw [List.eq_replicate_iff]
  refine ⟨List.length_map _, ?_⟩
  intro l mem
  obtain ⟨line, there, rfl⟩ := List.mem_map.1 mem
  exact outdent_blank n (blank line there)

theorem head?_join (free : ∀ l ∈ lines, '\n' ∉ l) (first : ∀ l ∈ lines.head?, l ≠ []) :
    ∀ c ∈ (join ['\n'] lines).head?, (c == '\n') = false := by
  intro c there
  cases lines with
  | nil => cases there
  | cons line rest =>
    obtain ⟨d, ds, rfl⟩ := List.exists_cons_of_ne_nil (first line rfl)
    have same : c = d := by
      cases rest with
      | nil => exact (Option.some.inj there).symm
      | cons next rest => exact (Option.some.inj there).symm
    have other : d ≠ '\n' := by
      rintro rfl
      exact free _ List.mem_cons_self List.mem_cons_self
    rw [same]
    exact beq_eq_false_iff_ne.2 other

theorem getLast?_join (free : ∀ l ∈ lines, '\n' ∉ l) (last : ∀ l ∈ lines.getLast?, l ≠ []) :
    ∀ c ∈ (join ['\n'] lines).getLast?, (c == '\n') = false := by
  intro c there
  rcases List.eq_nil_or_concat lines with rfl | ⟨rest, line, rfl⟩
  · cases there
  · have filled : line ≠ [] := last line (by simp)
    have same : c ∈ line.getLast? := by
      cases rest with
      | nil => exact there
      | cons next rest =>
        rw [List.concat_eq_append, join_append (List.cons_ne_nil next rest) (List.cons_ne_nil line []),
          join, List.getLast?_append, List.getLast?_cons, Option.some_or] at there
        obtain ⟨d, foot⟩ := Option.ne_none_iff_exists'.1 (mt List.getLast?_eq_none_iff.1 filled)
        rw [foot] at there ⊢
        exact there
    have other : c ≠ '\n' := by
      rintro rfl
      exact free line (by simp) (List.mem_of_getLast? same)
    exact beq_eq_false_iff_ne.2 other

/-- Lines that begin and end with a filled one have no line feed at the ends of their text. -/
theorem trimWhere_padded (free : ∀ l ∈ lines, '\n' ∉ l) (first : ∀ l ∈ lines.head?, l ≠ [])
    (last : ∀ l ∈ lines.getLast?, l ≠ []) (m n : Nat) :
    trimWhere (· == '\n') (join ['\n'] (List.replicate m [] ++ lines ++ List.replicate n [])) =
      join ['\n'] lines := by
  by_cases none : lines = []
  · subst none
    have feeds : ∀ c ∈ join ['\n'] (List.replicate (m + n) []), (c == '\n') = true := by
      intro c mem
      exact beq_iff_eq.2 (join_empty (m + n) c mem)
    have trimmed : trimWhere (· == '\n') (join ['\n'] (List.replicate (m + n) []) ++ [] ++ []) = [] :=
      trimWhere_between feeds (by simp) (by simp) (by simp)
    rw [List.append_nil, List.append_nil] at trimmed
    rw [List.append_nil, List.replicate_append_replicate, trimmed, join]
  · rw [join_padded none]
    apply trimWhere_between
    · simp
    · simp
    · exact head?_join free first
    · exact getLast?_join free last

theorem isAllBlank_iff_lines (text : List Char) : isAllBlank text = true ↔
    ∀ l ∈ splitOn '\n' (unifyLineEnds text), isAllBlank l = true := by
  have same := solids_join (splitOn '\n' (unifyLineEnds text))
  rw [join_splitOn, solids_unifyLineEnds] at same
  rw [isAllBlank_iff, ← solids_eq_nil_iff, same, List.flatten_eq_nil_iff, List.forall_mem_map]
  simp only [solids_eq_nil_iff, isAllBlank_iff]

/-- The lines of a text between the blank ones at its ends. -/
structure Framed (text : List Char) (before kept after : List (List Char)) : Prop where
  lines : splitOn '\n' (unifyLineEnds text) = before ++ kept ++ after
  above : ∀ l ∈ before, isAllBlank l = true
  below : ∀ l ∈ after, isAllBlank l = true
  first : ∀ l ∈ kept.head?, isAllBlank l = false
  last : ∀ l ∈ kept.getLast?, isAllBlank l = false

theorem exists_framed (text : List Char) : ∃ before kept after, Framed text before kept after := by
  obtain ⟨before, kept, after, split, above, below, first, last⟩ :=
    exists_between isAllBlank (splitOn '\n' (unifyLineEnds text))
  exact ⟨before, kept, after, split, above, below, first, last⟩

def marginOf (text : List Char) : Nat := commonIndent (splitOn '\n' (unifyLineEnds text))

namespace Framed

variable {text : List Char} {before kept after : List (List Char)}

theorem mem_lines (f : Framed text before kept after) {l : List Char} (mem : l ∈ kept) :
    l ∈ splitOn '\n' (unifyLineEnds text) := by
  simp [f.lines, mem]

theorem blank_iff (f : Framed text before kept after) : kept = [] ↔ isAllBlank text = true := by
  rw [isAllBlank_iff_lines, f.lines]
  constructor
  · rintro rfl l mem
    rcases List.mem_append.1 mem with mem | mem
    · exact f.above l (by simpa using mem)
    · exact f.below l mem
  · intro all
    cases kept with
    | nil => rfl
    | cons line rest =>
      have blank := all line (by simp)
      rw [f.first line rfl] at blank
      cases blank

theorem cut (f : Framed text before kept after) {l : List Char} (mem : l ∈ kept) :
    CutFrom l (outdent (marginOf text) l) :=
  outdent_cut fun solid => commonIndent_le (f.mem_lines mem) solid

theorem filled (f : Framed text before kept after) {l : List Char} (mem : l ∈ kept)
    (solid : isAllBlank l = false) : outdent (marginOf text) l ≠ [] := by
  intro none
  have blank := (f.cut mem).isAllBlank_iff.1 (by rw [none]; rfl)
  rw [solid] at blank
  cases blank

theorem no_feed (f : Framed text before kept after) : ∀ l ∈ kept.map (outdent (marginOf text)), '\n' ∉ l := by
  intro l mem feed
  obtain ⟨line, there, rfl⟩ := List.mem_map.1 mem
  exact not_mem_of_mem_splitOn (f.mem_lines there) ((f.cut there).mem feed)

theorem dedent_eq (f : Framed text before kept after) :
    dedent text = join ['\n'] (kept.map (outdent (marginOf text))) := by
  rw [dedent, ← marginOf, f.lines, List.map_append, List.map_append, map_outdent_blank _ f.above,
    map_outdent_blank _ f.below]
  -- The blank lines around have become line feeds, which go; the outermost lines that are kept stop them.
  apply trimWhere_padded f.no_feed
  · intro l there
    rw [List.head?_map] at there
    obtain ⟨line, head, rfl⟩ := Option.map_eq_some_iff.1 there
    exact f.filled (List.mem_of_head? head) (f.first line head)
  · intro l there
    rw [List.getLast?_map] at there
    obtain ⟨line, foot, rfl⟩ := Option.map_eq_some_iff.1 there
    exact f.filled (List.mem_of_getLast? foot) (f.last line foot)

/-- The line that is indented least is one of those that are kept. -/
theorem flush (f : Framed text before kept after) (some : kept ≠ []) :
    ∃ l ∈ kept.map (outdent (marginOf text)), ∃ c ∈ l.head?, isBlank c = false := by
  obtain ⟨line, rest, rfl⟩ := List.exists_cons_of_ne_nil some
  obtain ⟨l, mem, solid, least⟩ :=
    exists_commonIndent ⟨line, f.mem_lines List.mem_cons_self, f.first line rfl⟩
  rw [f.lines] at mem
  have inside : l ∈ line :: rest := by
    rcases List.mem_append.1 mem with mem | mem
    · rcases List.mem_append.1 mem with mem | mem
      · rw [f.above l mem] at solid
        cases solid
      · exact mem
    · rw [f.below l mem] at solid
      cases solid
  refine ⟨outdent (marginOf text) l, List.mem_map_of_mem inside, ?_⟩
  rw [marginOf, ← least]
  exact outdent_flush solid

end Framed

theorem dedent_lines (text : List Char) : ∃ before kept after made, Dedents text before kept after made := by
  obtain ⟨before, kept, after, f⟩ := exists_framed text
  refine ⟨before, kept, after, kept.map (outdent (marginOf text)), f.lines, f.above, f.below, f.first, f.last,
    f.blank_iff, ?_, f.dedent_eq, ?_, ?_, f.flush⟩
  · rw [List.forall₂_map_right_iff, List.forall₂_same]
    exact fun l mem => f.cut mem
  · intro some
    rw [f.dedent_eq]
    exact splitOn_join f.no_feed (by simpa using some)
  · intro l mem
    obtain ⟨line, -, rfl⟩ := List.mem_map.1 mem
    exact outdent_ended _ line

theorem solids_blank {lines : List (List Char)} (blank : ∀ l ∈ lines, isAllBlank l = true) :
    (lines.map solids).flatten = [] := by
  rw [List.flatten_eq_nil_iff, List.forall_mem_map]
  intro l mem
  exact solids_eq_nil_iff.2 (isAllBlank_iff.1 (blank l mem))

theorem solids_dedent (text : List Char) : solids (dedent text) = solids text := by
  obtain ⟨before, kept, after, made, d⟩ := dedent_lines text
  have all := solids_join (splitOn '\n' (unifyLineEnds text))
  rw [join_splitOn, solids_unifyLineEnds, d.lines, List.map_append, List.map_append, List.flatten_append,
    List.flatten_append, solids_blank d.above, solids_blank d.below, List.nil_append, List.append_nil] at all
  rw [all, d.text_eq, solids_join, CutFrom.map_solids d.cut]

/-- The lines of a text and their line feeds, as if the last line had one. -/
theorem byteLength_join (some : lines ≠ []) :
    byteLength (join ['\n'] lines) + 1 = byteLength lines.flatten + lines.length := by
  induction lines with
  | nil => exact absurd rfl some
  | cons line rest ih =>
    cases rest with
    | nil =>
      rw [List.flatten_cons, List.flatten_nil, List.append_nil]
      rfl
    | cons next rest =>
      have more := ih (List.cons_ne_nil next rest)
      have feed : byteLength ['\n'] = 1 := by decide
      rw [join_cons_cons, List.flatten_cons, byteLength_append, byteLength_append, byteLength_append, feed,
        List.length_cons]
      omega

theorem byteLength_unifyLineEnds (cs : List Char) : byteLength (unifyLineEnds cs) ≤ byteLength cs := by
  induction cs using unifyLineEnds.induct with
  | case1 => exact Nat.le_refl _
  | case2 cs ih =>
    have wide := ('\r' : Char).utf8Size_pos
    rw [unifyLineEnds, byteLength_cons, byteLength_cons, byteLength_cons]
    omega
  | case3 c cs other ih =>
    have same : (if c = '\r' then '\n' else c).utf8Size = c.utf8Size := by
      split
      · rename_i feed
        subst feed
        rfl
      · rfl
    rw [unifyLineEnds.eq_3 _ _ other, byteLength_cons, byteLength_cons, same]
    omega

theorem CutFrom.byteLength_le {line part : List Char} (cut : CutFrom line part) :
    byteLength part ≤ byteLength line := by
  obtain ⟨a, b, rfl, -, -⟩ := cut
  rw [byteLength_append, byteLength_append]
  omega

theorem byteLength_cut_le {lines made : List (List Char)} (each : List.Forall₂ CutFrom lines made) :
    byteLength made.flatten + made.length ≤ byteLength lines.flatten + lines.length := by
  induction each with
  | nil => exact Nat.le_refl _
  | cons holds _ ih =>
    have own := holds.byteLength_le
    rw [List.flatten_cons, List.flatten_cons, byteLength_append, byteLength_append, List.length_cons,
      List.length_cons]
    omega

theorem byteLength_dedent_le (text : List Char) : byteLength (dedent text) ≤ byteLength text := by
  obtain ⟨before, kept, after, made, d⟩ := dedent_lines text
  by_cases none : kept = []
  · have cut := d.cut
    rw [none, List.forall₂_nil_left_iff] at cut
    rw [d.text_eq, cut]
    exact Nat.zero_le _
  · have some : made ≠ [] := by
      intro empty
      have cut := d.cut
      rw [empty, List.forall₂_nil_right_iff] at cut
      exact none cut
    have filled : splitOn '\n' (unifyLineEnds text) ≠ [] := by simp [d.lines, none]
    -- The lines that are cut off before and behind have bytes as well, and so do their line feeds.
    have whole := byteLength_join filled
    rw [join_splitOn, d.lines, List.flatten_append, List.flatten_append, byteLength_append, byteLength_append,
      List.length_append, List.length_append] at whole
    have shorter := byteLength_cut_le d.cut
    have length := byteLength_join some
    rw [← d.text_eq] at length
    have unified := byteLength_unifyLineEnds text
    omega

theorem outdent_zero {line : List Char} (ended : ∀ c ∈ line.getLast?, isBlank c = false) :
    outdent 0 line = line := by
  have all : afterBytes? 0 line = some line := afterBytes?_append [] line
  rw [outdent, all]
  exact trimEnd_of_ended ended

theorem commonIndent_flush (flush : ∃ l ∈ lines, ∃ c ∈ l.head?, isBlank c = false) :
    commonIndent lines = 0 := by
  obtain ⟨l, mem, c, head, solid⟩ := flush
  obtain ⟨rest, rfl⟩ : ∃ rest, l = c :: rest := List.head?_eq_some_iff.1 head
  have stays : ¬ isBlank c = true := by simp [solid]
  have least : commonIndent lines ≤ indentOf (c :: rest) := commonIndent_le mem (by simp [isAllBlank, solid])
  rw [indentOf, List.takeWhile_cons_of_neg stays] at least
  exact Nat.le_zero.1 least

/-- What is left has one line without indentation, so nothing more is cut off. -/
theorem dedent_dedent (text : List Char) : dedent (dedent text) = dedent text := by
  obtain ⟨before, kept, after, made, d⟩ := dedent_lines text
  by_cases none : kept = []
  · have cut := d.cut
    rw [none, List.forall₂_nil_left_iff] at cut
    rw [d.text_eq, cut]
    rfl
  · have free : '\r' ∉ dedent text := by
      intro mem
      rw [d.text_eq] at mem
      obtain feed | ⟨l, there, inside⟩ := mem_join mem
      · cases feed
      · obtain ⟨i, there⟩ := List.mem_iff_getElem?.1 there
        obtain ⟨line, here, cut⟩ := exists_of_forall₂ d.cut there
        have own : line ∈ splitOn '\n' (unifyLineEnds text) := by
          rw [d.lines]
          exact List.mem_append_left _ (List.mem_append_right _ (List.mem_of_getElem? here))
        exact no_return_unifyLineEnds text (mem_of_mem_lines own (cut.mem inside))
    have same : made.map (outdent 0) = made := by
      rw [List.map_congr_left fun l mem => outdent_zero (d.ended l mem), List.map_id']
    have again : dedent (dedent text) = trimWhere (· == '\n') (dedent text) := by
      rw [dedent, unifyLineEnds_of_no_return free, d.lines_eq none, commonIndent_flush (d.flush none), same,
        ← d.text_eq]
    rw [again, dedent, trimWhere_trimWhere]

end SourceSlices.Text
