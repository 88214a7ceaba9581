import SourceSlices.Proofs.ExactParts
import SourceSlices.Proofs.TextPipeline

/-!
Where the blocks of a plain text begin. Both ways of finding them group the lines of the text: a group
is closed by a line that a condition on the lines of the group so far picks out. The flags of the loops
are these conditions, kept up to date.
-/

/-! ### Groups of lines -/

namespace SourceSlices.Plain

open Text

/-- Groups consecutive lines; a line that is picked out closes the group of the lines held. -/
def groupLines (begins : List (List Char) → List Char → Bool) (held : List (List Char)) :
    List (List Char) → List (List (List Char))
  | [] => if held.isEmpty then [] else [held]
  | line :: rest =>
    if begins held line then held :: groupLines begins [line] rest
    else groupLines begins (held ++ [line]) rest

/-- Groups that begin exactly at the lines that are picked out. -/
structure CutAt (begins : List (List Char) → List Char → Bool) (groups : List (List (List Char))) :
    Prop where
  filled : ∀ g ∈ groups, g ≠ []
  within : ∀ g ∈ groups, ∀ held line more, g = held ++ line :: more → held ≠ [] →
    begins held line = false
  between : groups.IsChain fun g h => ∃ line more, h = line :: more ∧ begins g line = true

/-- Lines at the beginning of a group, after the lines of the groups before. -/
def Within (groups : List (List (List Char))) (earlier held : List (List Char)) : Prop :=
  held ≠ [] ∧ ∃ pre g post, groups = pre ++ g :: post ∧ pre.flatten = earlier ∧ held <+: g

section Grouping

variable {begins : List (List Char) → List Char → Bool} {held before : List (List Char)}
  {groups : List (List (List Char))} {line : List Char} {after : List (List Char)}

theorem flatten_groupLines (begins : List (List Char) → List Char → Bool)
    (held lines : List (List Char)) : (groupLines begins held lines).flatten = held ++ lines := by
  induction lines generalizing held with
  | nil =>
    rw [groupLines]
    cases held with
    | nil => rfl
    | cons l held => simp
  | cons line rest ih =>
    rw [groupLines]
    split
    · rw [List.flatten_cons, ih, List.singleton_append]
    · rw [ih, List.append_assoc, List.singleton_append]

theorem groupLines_head (begins : List (List Char) → List Char → Bool) (some : held ≠ [])
    (lines : List (List Char)) :
    ∃ more others, groupLines begins held lines = (held ++ more) :: others := by
  induction lines generalizing held with
  | nil =>
    have filled : held.isEmpty = false := by simpa using some
    refine ⟨[], [], ?_⟩
    rw [groupLines, filled, List.append_nil]
    rfl
  | cons line rest ih =>
    rw [groupLines]
    split
    · refine ⟨[], groupLines begins [line] rest, ?_⟩
      rw [List.append_nil]
    · obtain ⟨more, others, same⟩ := ih (List.append_ne_nil_of_left_ne_nil some [line])
      rw [List.append_assoc] at same
      exact ⟨_, others, same⟩

/-- A split of a longer list either ends in the new line or splits the old list. -/
theorem split_snoc {held a more : List (List Char)} {new : List Char}
    (split : held ++ [new] = a ++ line :: more) :
    a = held ∧ line = new ∨ ∃ more', held = a ++ line :: more' := by
  obtain rfl | ⟨init, last, rfl⟩ := List.eq_nil_or_concat' more
  · obtain ⟨same, own⟩ := List.append_inj' split rfl
    exact Or.inl ⟨same.symm, (List.cons.inj own).1.symm⟩
  · rw [← List.cons_append, ← List.append_assoc] at split
    exact Or.inr ⟨init, (List.append_inj' split rfl).1⟩

theorem cutAt_groupLines (never : ∀ line, begins [] line = false)
    (quiet : ∀ a line more, held = a ++ line :: more → a ≠ [] → begins a line = false)
    (lines : List (List Char)) : CutAt begins (groupLines begins held lines) := by
  induction lines generalizing held with
  | nil =>
    rw [groupLines]
    cases held with
    | nil => exact ⟨by simp, by simp, List.isChain_nil⟩
    | cons l held =>
      constructor
      · intro g mem
        rw [List.mem_singleton.1 mem]
        exact List.cons_ne_nil l held
      · intro g mem
        rw [List.mem_singleton.1 mem]
        exact quiet
      · exact List.isChain_singleton _
  | cons line rest ih =>
    -- A line that is picked out closes the group that is held; any other line joins it.
    rw [groupLines]
    split
    · rename_i picked
      have some : held ≠ [] := by
        rintro rfl
        rw [never] at picked
        cases picked
      have single : ∀ a l more, [line] = a ++ l :: more → a ≠ [] → begins a l = false := by
        intro a l more split some
        cases a with
        | nil => exact absurd rfl some
        | cons _ a =>
          have length := congrArg List.length split
          simp at length
      have later := ih single
      constructor
      · exact List.forall_mem_cons.2 ⟨some, later.filled⟩
      · exact List.forall_mem_cons.2 ⟨quiet, later.within⟩
      · obtain ⟨more, others, same⟩ :=
          groupLines_head begins (List.cons_ne_nil line []) rest
        have chain := later.between
        rw [same] at chain ⊢
        exact List.IsChain.cons_cons ⟨line, more, rfl, picked⟩ chain
    · rename_i passed
      apply ih
      intro a l more split some
      obtain ⟨rfl, rfl⟩ | ⟨more', split'⟩ := split_snoc split
      · exact Bool.eq_false_iff.2 passed
      · exact quiet a l more' split' some

/-- Lines that are not the last stand at the beginning of some group. -/
theorem exists_within (split : groups.flatten = before ++ line :: after) (some : before ≠ []) :
    ∃ earlier held, before = earlier ++ held ∧ Within groups earlier held := by
  induction groups generalizing before with
  | nil => simp at split
  | cons g rest ih =>
    rw [List.flatten_cons] at split
    have first (inside : before <+: g) : ∃ earlier held, before = earlier ++ held ∧
        Within (g :: rest) earlier held :=
      ⟨[], before, rfl, some, [], g, rest, rfl, rfl, inside⟩
    obtain ⟨c, long, short⟩ | ⟨c, long, -⟩ := List.append_eq_append_iff.1 split
    · cases c with
      | nil =>
        rw [List.append_nil] at long
        rw [long] at first some ⊢
        exact first (List.prefix_refl g)
      | cons l c =>
        obtain ⟨earlier, held, same, filled, pre, h, post, rfl, rfl, inside⟩ :=
          ih short (List.cons_ne_nil l c)
        refine ⟨g ++ pre.flatten, held, ?_, filled, g :: pre, h, post, rfl, rfl, inside⟩
        rw [long, same, List.append_assoc]
    · exact first ⟨c, long.symm⟩

/-- A line begins a group exactly if it is the first one, or the lines before it in the group that
is open there pick it out. -/
theorem CutAt.begins_iff (cut : CutAt begins groups) (split : groups.flatten = before ++ line :: after) :
    (∃ pre post, groups = pre ++ post ∧ pre.flatten = before) ↔
      before = [] ∨ ∃ earlier held, before = earlier ++ held ∧ Within groups earlier held ∧
        begins held line = true := by
  constructor
  · rintro ⟨pre, post, rfl, rfl⟩
    obtain rfl | ⟨init, g, rfl⟩ := List.eq_nil_or_concat' pre
    · exact Or.inl rfl
    · rw [List.flatten_append, List.append_cancel_left_eq] at split
      cases post with
      | nil => cases split
      | cons h post =>
        have filled := cut.filled h (by simp)
        have chain := cut.between
        rw [List.append_assoc, List.singleton_append] at chain
        obtain ⟨first, more, rfl, picked⟩ := (List.isChain_append_cons_cons.1 chain).2.1
        obtain ⟨rfl, -⟩ := List.cons.inj split
        refine Or.inr ⟨init.flatten, g, by simp, ⟨cut.filled g (by simp), init, g, (first :: more) :: post,
          ?_, rfl, List.prefix_refl g⟩, picked⟩
        rw [List.append_assoc, List.singleton_append]
  · rintro (rfl | ⟨earlier, held, rfl, ⟨some, pre, g, post, rfl, rfl, rest, rfl⟩, picked⟩)
    · exact ⟨[], groups, rfl, rfl⟩
    · cases rest with
      | nil => exact ⟨pre ++ [held], post, by simp, by simp⟩
      | cons next more =>
        have same : next = line := by
          simp only [List.flatten_append, List.flatten_cons, List.append_assoc,
            List.append_cancel_left_eq, List.cons_append] at split
          exact (List.cons.inj split).1
        -- Within its group no line is picked out by those before it.
        have quiet := cut.within (held ++ next :: more) (by simp) held next more rfl some
        rw [same, picked] at quiet
        cases quiet

end Grouping

/-! ### Offsets -/

/-- A block begins after the given lines. -/
def Begins (found : List (Nat × Nat)) (before : List (List Char)) : Prop :=
  ∃ b ∈ found, b.1 = byteLength before.flatten

theorem mem_ranges_iff {start : Nat} {pieces : List (List Char)} {b : Nat × Nat} :
    b ∈ ranges start pieces ↔ ∃ pre piece post, pieces = pre ++ piece :: post ∧
      b = (start + byteLength pre.flatten, start + byteLength pre.flatten + byteLength piece) := by
  induction pieces generalizing start with
  | nil => simp [ranges]
  | cons first rest ih =>
    rw [ranges, List.mem_cons, ih]
    constructor
    · rintro (rfl | ⟨pre, piece, post, rfl, rfl⟩)
      · exact ⟨[], first, rest, rfl, rfl⟩
      · refine ⟨first :: pre, piece, post, rfl, ?_⟩
        rw [List.flatten_cons, byteLength_append, Nat.add_assoc start]
    · rintro ⟨pre, piece, post, split, rfl⟩
      cases pre with
      | nil =>
        obtain ⟨rfl, rfl⟩ := List.cons.inj split
        exact Or.inl rfl
      | cons g pre =>
        obtain ⟨rfl, rfl⟩ := List.cons.inj split
        refine Or.inr ⟨pre, piece, post, rfl, ?_⟩
        rw [List.flatten_cons, byteLength_append, ← Nat.add_assoc start]

theorem eq_of_same_length {lines a b : List (List Char)} (whole : ∀ line ∈ lines, line ≠ [])
    (first : a <+: lines) (second : b <+: lines)
    (same : byteLength a.flatten = byteLength b.flatten) : a = b := by
  have longer {a b : List (List Char)} (inside : a <+: b) (second : b <+: lines)
      (same : byteLength a.flatten = byteLength b.flatten) : a = b := by
    obtain ⟨c, rfl⟩ := inside
    cases c with
    | nil => exact (List.append_nil a).symm
    | cons l c =>
      have held := byteLength_pos (whole l (second.subset (by simp)))
      rw [List.flatten_append, byteLength_append, List.flatten_cons, byteLength_append] at same
      omega
  obtain inside | inside := List.prefix_or_prefix_of_prefix first second
  · exact longer inside second same
  · exact (longer inside first same.symm).symm

theorem begins_ranges_iff {groups : List (List (List Char))} {before after : List (List Char)}
    {line : List Char} (whole : ∀ line ∈ groups.flatten, line ≠ [])
    (split : groups.flatten = before ++ line :: after) :
    Begins (ranges 0 (groups.map List.flatten)) before ↔
      ∃ pre post, groups = pre ++ post ∧ pre.flatten = before := by
  constructor
  · rintro ⟨b, mem, start⟩
    obtain ⟨pieces, piece, rest, same, rfl⟩ := mem_ranges_iff.1 mem
    obtain ⟨pre, post, rfl, rfl, -⟩ := List.map_eq_append_iff.1 same
    refine ⟨pre, post, rfl, eq_of_same_length whole ?_ ⟨line :: after, split.symm⟩ ?_⟩
    · exact ⟨post.flatten, by rw [List.flatten_append]⟩
    · rwa [Nat.zero_add, ← List.flatten_flatten] at start
  · rintro ⟨pre, post, rfl, rfl⟩
    cases post with
    | nil => simp at split
    | cons g post =>
      refine ⟨_, mem_ranges_iff.2 ⟨pre.map List.flatten, g.flatten, post.map List.flatten, ?_, rfl⟩, ?_⟩
      · rw [List.map_append, List.map_cons]
      · rw [Nat.zero_add, ← List.flatten_flatten]

theorem ranges_one (start : Nat) {held : List (List Char)} (whole : ∀ line ∈ held, line ≠ []) :
    closeBlock start (start + byteLength held.flatten) =
      ranges start ((if held.isEmpty then [] else [held]).map List.flatten) := by
  cases held with
  | nil => simp [closeBlock, byteLength, ranges]
  | cons line rest =>
    have long := byteLength_pos (whole line List.mem_cons_self)
    have filled : start < start + byteLength (line :: rest).flatten := by
      rw [List.flatten_cons, byteLength_append]
      omega
    rw [closeBlock, if_pos filled]
    rfl

theorem byteLength_snoc (held : List (List Char)) (line : List Char) :
    byteLength (held ++ [line]).flatten = byteLength held.flatten + byteLength line := by
  rw [List.flatten_append, byteLength_append, List.flatten_singleton]

/-! ### Paragraphs -/

def hasContent (held : List (List Char)) : Bool := held.any fun l => !isAllBlank l

def afterBlank (held : List (List Char)) : Bool := hasContent held && held.getLast?.any isAllBlank

def beginsParagraph (held : List (List Char)) (line : List Char) : Bool :=
  !isAllBlank line && afterBlank held

/-- A line with content after a blank one, with content somewhere before. -/
def BeginsParagraph (before : List (List Char)) (line : List Char) : Prop :=
  isAllBlank line = false ∧ (∃ last ∈ before.getLast?, isAllBlank last = true) ∧
    ∃ l ∈ before, isAllBlank l = false

theorem hasContent_iff {held : List (List Char)} :
    hasContent held = true ↔ ∃ l ∈ held, isAllBlank l = false := by
  simp [hasContent]

theorem beginsParagraph_iff {held : List (List Char)} {line : List Char} :
    beginsParagraph held line = true ↔ BeginsParagraph held line := by
  simp only [beginsParagraph, afterBlank, Bool.and_eq_true, Bool.not_eq_true', hasContent_iff,
    BeginsParagraph, Option.any_eq_true, Option.mem_def]
  exact and_congr_right fun _ => and_comm

theorem hasContent_snoc (held : List (List Char)) (line : List Char) :
    hasContent (held ++ [line]) = (hasContent held || !isAllBlank line) := by
  simp [hasContent]

theorem afterBlank_snoc (held : List (List Char)) (line : List Char) :
    afterBlank (held ++ [line]) = (hasContent held && isAllBlank line) := by
  rw [afterBlank, hasContent_snoc, List.getLast?_concat]
  cases hasContent held <;> cases blank : isAllBlank line <;> simp [blank]

/-- The flags of the loop tell of the lines that the current block holds. -/
theorem paragraphsFrom_eq (start : Nat) (held : List (List Char)) {lines : List (List Char)}
    (whole : ∀ line ∈ held ++ lines, line ≠ []) :
    paragraphsFrom start (start + byteLength held.flatten) (hasContent held) (afterBlank held) lines =
      ranges start ((groupLines beginsParagraph held lines).map List.flatten) := by
  induction lines generalizing start held with
  | nil =>
    rw [List.append_nil] at whole
    exact ranges_one start whole
  | cons line rest ih =>
    have longer : ∀ l ∈ held ++ [line] ++ rest, l ≠ [] := by rwa [← List.append_cons]
    have kept := ih start (held ++ [line]) longer
    rw [hasContent_snoc, afterBlank_snoc, byteLength_snoc, ← Nat.add_assoc] at kept
    rw [paragraphsFrom, groupLines, beginsParagraph]
    by_cases blank : isAllBlank line = true
    · simp only [blank, Bool.not_true, Bool.or_false, Bool.and_true] at kept
      simpa [blank] using kept
    · rw [Bool.not_eq_true] at blank
      simp only [blank, Bool.not_false, Bool.or_true, Bool.and_false] at kept
      by_cases closes : afterBlank held = true
      · have own := ih (start + byteLength held.flatten) [line] fun l mem =>
          longer l (by simpa using Or.inr mem)
        have content : hasContent [line] = true := by simp [hasContent, blank]
        have fresh : afterBlank [line] = false := by simp [afterBlank, blank]
        rw [content, fresh] at own
        simpa [ranges, blank, closes] using own
      · simpa [blank, closes] using kept

/-! ### Blocks that begin at the margin -/

def seenIndented (held : List (List Char)) : Bool := held.any fun l => !isAllBlank l && isIndented l

def beginsAtMargin (held : List (List Char)) (line : List Char) : Bool :=
  !isAllBlank line && !isIndented line && seenIndented held

/-- A line with content at the margin, with an indented one in the block so far. -/
def BeginsAtMargin (held : List (List Char)) (line : List Char) : Prop :=
  isAllBlank line = false ∧ isIndented line = false ∧
    ∃ l ∈ held, isAllBlank l = false ∧ isIndented l = true

theorem seenIndented_iff {held : List (List Char)} :
    seenIndented held = true ↔ ∃ l ∈ held, isAllBlank l = false ∧ isIndented l = true := by
  simp [seenIndented]

theorem beginsAtMargin_iff {held : List (List Char)} {line : List Char} :
    beginsAtMargin held line = true ↔ BeginsAtMargin held line := by
  simp only [beginsAtMargin, Bool.and_eq_true, Bool.not_eq_true', seenIndented_iff, BeginsAtMargin,
    and_assoc]

theorem seenIndented_snoc (held : List (List Char)) (line : List Char) :
    seenIndented (held ++ [line]) = (seenIndented held || !isAllBlank line && isIndented line) := by
  simp [seenIndented]

theorem indentsFrom_eq (start : Nat) (held : List (List Char)) {lines : List (List Char)}
    (whole : ∀ line ∈ held ++ lines, line ≠ []) :
    indentsFrom start (start + byteLength held.flatten) (seenIndented held) lines =
      ranges start ((groupLines beginsAtMargin held lines).map List.flatten) := by
  induction lines generalizing start held with
  | nil =>
    rw [List.append_nil] at whole
    exact ranges_one start whole
  | cons line rest ih =>
    have longer : ∀ l ∈ held ++ [line] ++ rest, l ≠ [] := by rwa [← List.append_cons]
    have kept := ih start (held ++ [line]) longer
    rw [seenIndented_snoc, byteLength_snoc, ← Nat.add_assoc] at kept
    rw [indentsFrom, groupLines, beginsAtMargin]
    by_cases blank : isAllBlank line = true
    · simp only [blank, Bool.not_true, Bool.or_false, Bool.false_and] at kept
      simpa [blank] using kept
    · rw [Bool.not_eq_true] at blank
      simp only [blank, Bool.not_false, Bool.true_and] at kept
      by_cases closes : isIndented line = false ∧ seenIndented held = true
      · obtain ⟨margin, seen⟩ := closes
        have own := ih (start + byteLength held.flatten) [line] fun l mem =>
          longer l (by simpa using Or.inr mem)
        have fresh : seenIndented [line] = false := by simp [seenIndented, margin]
        -- A block with an indented line holds something.
        have some : 0 < byteLength held.flatten := by
          obtain ⟨l, mem, -⟩ := seenIndented_iff.1 seen
          apply byteLength_pos
          intro none
          exact whole l (List.mem_append_left _ mem) (List.flatten_eq_nil_iff.1 none l mem)
        rw [fresh] at own
        simpa [ranges, blank, margin, seen, some] using own
      · have passed : (!isIndented line && seenIndented held) = false := by simpa using closes
        simpa [blank, passed] using kept

/-! ### The blocks of a text -/

/-- Blocks that tile a text from line to line and begin exactly at its first line and at the lines at
which a condition holds. -/
structure BlocksAt (text : List Char) (found : List (Nat × Nat))
    (begins : List (List Char) → List Char → Prop) : Prop where
  tiles : Tiles 0 (byteLength text) found
  lines : ∀ b ∈ found, ∃ before line after, linesInclusive text = before ++ line :: after ∧
    b.1 = byteLength before.flatten
  begins : ∀ before line after, linesInclusive text = before ++ line :: after →
    (Begins found before ↔ before = [] ∨ begins before line)

/-- The lines before some line in its block: a block begins before them and none among them. -/
def OpenBlock (found : List (Nat × Nat)) (earlier held : List (List Char)) : Prop :=
  held ≠ [] ∧ Begins found earlier ∧
    ∀ a b, held = a ++ b → a ≠ [] → b ≠ [] → ¬ Begins found (earlier ++ a)

section Placed

variable {text : List Char} {found : List (Nat × Nat)} {groups : List (List (List Char))}
  {begins : List (List Char) → List Char → Bool}

/-- Blocks that are the groups of the lines of a text. -/
structure Grouped (begins : List (List Char) → List Char → Bool) (text : List Char)
    (groups : List (List (List Char))) (found : List (Nat × Nat)) : Prop where
  ranges : found = Text.ranges 0 (groups.map List.flatten)
  joined : groups.flatten = linesInclusive text
  cut : CutAt begins groups

theorem Grouped.whole (grouped : Grouped begins text groups found) :
    ∀ line ∈ groups.flatten, line ≠ [] := by
  intro line mem
  rw [grouped.joined] at mem
  exact linesInclusive_ne_nil mem

theorem Grouped.starts_iff (grouped : Grouped begins text groups found)
    {before after : List (List Char)} {line : List Char}
    (split : linesInclusive text = before ++ line :: after) :
    Begins found before ↔ ∃ pre post, groups = pre ++ post ∧ pre.flatten = before := by
  rw [← grouped.joined] at split
  rw [grouped.ranges]
  exact begins_ranges_iff grouped.whole split

theorem Grouped.begins_iff (grouped : Grouped begins text groups found)
    {before after : List (List Char)} {line : List Char}
    (split : linesInclusive text = before ++ line :: after) : Begins found before ↔
      before = [] ∨ ∃ earlier held, before = earlier ++ held ∧ Within groups earlier held ∧
        begins held line = true := by
  rw [grouped.starts_iff split, grouped.cut.begins_iff (grouped.joined.trans split)]

theorem Grouped.tiles (grouped : Grouped begins text groups found) :
    Tiles 0 (byteLength text) found := by
  have filled : ∀ piece ∈ groups.map List.flatten, piece ≠ [] := by
    intro piece mem
    obtain ⟨g, there, rfl⟩ := List.mem_map.1 mem
    intro none
    obtain ⟨l, inside⟩ := List.exists_mem_of_ne_nil g (grouped.cut.filled g there)
    exact grouped.whole l (List.mem_flatten_of_mem there inside) (List.flatten_eq_nil_iff.1 none l inside)
  have tiles := tiles_ranges 0 filled
  rwa [← List.flatten_flatten, grouped.joined, flatten_linesInclusive, Nat.zero_add,
    ← grouped.ranges] at tiles

theorem Grouped.lines (grouped : Grouped begins text groups found) {b : Nat × Nat} (mem : b ∈ found) :
    ∃ before line after, linesInclusive text = before ++ line :: after ∧
      b.1 = byteLength before.flatten := by
  rw [grouped.ranges] at mem
  obtain ⟨pieces, piece, rest, same, rfl⟩ := mem_ranges_iff.1 mem
  obtain ⟨pre, post, rfl, rfl, tail⟩ := List.map_eq_append_iff.1 same
  obtain ⟨g, post, rfl, -, -⟩ := List.map_eq_cons_iff.1 tail
  obtain ⟨line, more, rfl⟩ := List.exists_cons_of_ne_nil (grouped.cut.filled g (by simp))
  refine ⟨pre.flatten, line, more ++ post.flatten, ?_, ?_⟩
  · rw [← grouped.joined]
    simp
  · rw [Nat.zero_add, ← List.flatten_flatten]

/-- No group begins inside a group. -/
theorem not_begins_within {pre post pre' post' : List (List (List Char))}
    {a b more : List (List Char)} (first : a ≠ []) (second : b ≠ [])
    (same : pre' ++ post' = pre ++ (a ++ b ++ more) :: post) : pre'.flatten ≠ pre.flatten ++ a := by
  intro joined
  have length := congrArg List.length joined
  have some := List.length_pos_iff.2 first
  obtain ⟨c, rfl, -⟩ | ⟨c, rfl, rest⟩ := List.append_eq_append_iff.1 same
  · simp only [List.flatten_append, List.length_append] at length
    omega
  · rw [List.flatten_append, List.append_cancel_left_eq] at joined
    cases c with
    | nil => exact first joined.symm
    | cons g c =>
      obtain ⟨rfl, -⟩ := List.cons.inj rest
      have some := List.length_pos_iff.2 second
      simp only [List.flatten_append, List.flatten_cons, List.length_append] at length
      omega

/-- The lines before a line in its block are those before it in its group. -/
theorem Grouped.openBlock_iff (grouped : Grouped begins text groups found)
    {earlier held after : List (List Char)} {line : List Char}
    (split : linesInclusive text = earlier ++ held ++ line :: after) :
    OpenBlock found earlier held ↔ Within groups earlier held := by
  constructor
  · rintro ⟨some, opens, quiet⟩
    obtain ⟨l, tail, rfl⟩ := List.exists_cons_of_ne_nil some
    have cut : linesInclusive text = earlier ++ l :: (tail ++ line :: after) := by
      rw [split, List.append_assoc, List.cons_append]
    obtain ⟨pre, post, rfl, rfl⟩ := (grouped.starts_iff cut).1 opens
    have rest := grouped.joined
    rw [cut, List.flatten_append, List.append_cancel_left_eq, ← List.cons_append] at rest
    cases post with
    | nil => cases rest
    | cons g post =>
      refine ⟨some, pre, g, post, rfl, rfl, ?_⟩
      rw [List.flatten_cons] at rest
      obtain ⟨c, inside, -⟩ | ⟨c, short, long⟩ := List.append_eq_append_iff.1 rest.symm
      · exact ⟨c, inside.symm⟩
      · cases c with
        | nil =>
          rw [List.append_nil] at short
          exact ⟨[], short ▸ List.append_nil _⟩
        | cons d c =>
          -- If the group ended before the line, the next one would begin among the lines in between.
          have filled := grouped.cut.filled g (by simp)
          refine absurd ?_ (quiet g (d :: c) short filled (List.cons_ne_nil d c))
          have next : linesInclusive text = pre.flatten ++ g ++ d :: (c ++ line :: after) := by
            rw [split, short]
            simp
          exact (grouped.starts_iff next).2 ⟨pre ++ [g], post, by simp, by simp⟩
  · rintro ⟨some, pre, g, post, rfl, rfl, more, rfl⟩
    obtain ⟨l, tail, rfl⟩ := List.exists_cons_of_ne_nil some
    refine ⟨some, ?_, ?_⟩
    · have cut : linesInclusive text = pre.flatten ++ l :: (tail ++ line :: after) := by
        rw [split, List.append_assoc, List.cons_append]
      exact (grouped.starts_iff cut).2 ⟨pre, _, rfl, rfl⟩
    · intro a b held first second begun
      obtain ⟨d, b, rfl⟩ := List.exists_cons_of_ne_nil second
      have cut : linesInclusive text = pre.flatten ++ a ++ d :: (b ++ line :: after) := by
        rw [split, held]
        simp
      obtain ⟨pre', post', same, joined⟩ := (grouped.starts_iff cut).1 begun
      rw [held] at same
      exact not_begins_within first second same.symm joined

end Placed

theorem grouped_paragraphBlocks (text : List Char) : Grouped beginsParagraph text
    (groupLines beginsParagraph [] (linesInclusive text)) (paragraphBlocks text) where
  ranges := paragraphsFrom_eq 0 [] fun _ mem => linesInclusive_ne_nil mem
  joined := flatten_groupLines _ _ _
  cut := by
    apply cutAt_groupLines
    · intro line
      simp [beginsParagraph, afterBlank, hasContent]
    · intro a line more split
      simp at split

theorem grouped_indentBlocks (text : List Char) : Grouped beginsAtMargin text
    (groupLines beginsAtMargin [] (linesInclusive text)) (indentBlocks text) where
  ranges := indentsFrom_eq 0 [] fun _ mem => linesInclusive_ne_nil mem
  joined := flatten_groupLines _ _ _
  cut := by
    apply cutAt_groupLines
    · intro line
      simp [beginsAtMargin, seenIndented]
    · intro a line more split
      simp at split

theorem CutAt.picked {begins : List (List Char) → List Char → Bool} {groups : List (List (List Char))}
    (cut : CutAt begins groups) {earlier held : List (List Char)}
    (inside : Within groups earlier held) :
    earlier = [] ∨ ∃ block line more, held = line :: more ∧ begins block line = true := by
  obtain ⟨some, pre, g, post, rfl, rfl, rest, rfl⟩ := inside
  obtain rfl | ⟨init, block, rfl⟩ := List.eq_nil_or_concat' pre
  · exact Or.inl rfl
  · have chain := cut.between
    rw [List.append_assoc, List.singleton_append] at chain
    obtain ⟨line, more, same, picked⟩ := (List.isChain_append_cons_cons.1 chain).2.1
    obtain ⟨l, held, rfl⟩ := List.exists_cons_of_ne_nil some
    obtain ⟨rfl, -⟩ := List.cons.inj same
    exact Or.inr ⟨block, l, held, rfl, picked⟩

/-- Content before a line is content in its block: later blocks begin with content. -/
theorem beginsParagraph_within {groups : List (List (List Char))}
    (cut : CutAt beginsParagraph groups) {earlier held : List (List Char)}
    (inside : Within groups earlier held) (line : List Char) :
    BeginsParagraph (earlier ++ held) line ↔ BeginsParagraph held line := by
  have last : (earlier ++ held).getLast? = held.getLast? :=
    List.getLast?_append_of_ne_nil _ inside.1
  have content : (∃ l ∈ earlier ++ held, isAllBlank l = false) ↔ ∃ l ∈ held, isAllBlank l = false := by
    constructor
    · intro some
      obtain rfl | ⟨block, first, more, rfl, picked⟩ := cut.picked inside
      · exact some
      · exact ⟨first, List.mem_cons_self, (beginsParagraph_iff.1 picked).1⟩
    · rintro ⟨l, mem, filled⟩
      exact ⟨l, List.mem_append_right _ mem, filled⟩
  rw [BeginsParagraph, BeginsParagraph, last, content]

theorem blocksAt_paragraphBlocks (text : List Char) :
    BlocksAt text (paragraphBlocks text) BeginsParagraph where
  tiles := (grouped_paragraphBlocks text).tiles
  lines _ mem := (grouped_paragraphBlocks text).lines mem
  begins := by
    intro before line after split
    have grouped := grouped_paragraphBlocks text
    rw [grouped.begins_iff split]
    apply or_congr_right
    constructor
    · rintro ⟨earlier, held, rfl, inside, picked⟩
      exact (beginsParagraph_within grouped.cut inside line).2 (beginsParagraph_iff.1 picked)
    · intro picked
      have some : before ≠ [] := by
        obtain ⟨l, mem, -⟩ := picked.2.2
        exact List.ne_nil_of_mem mem
      obtain ⟨earlier, held, rfl, inside⟩ := exists_within (grouped.joined.trans split) some
      exact ⟨earlier, held, rfl, inside, beginsParagraph_iff.2
        ((beginsParagraph_within grouped.cut inside line).1 picked)⟩

theorem blocksAt_indentBlocks (text : List Char) :
    BlocksAt text (indentBlocks text) fun before line => ∃ earlier held, before = earlier ++ held ∧
      OpenBlock (indentBlocks text) earlier held ∧ BeginsAtMargin held line where
  tiles := (grouped_indentBlocks text).tiles
  lines _ mem := (grouped_indentBlocks text).lines mem
  begins := by
    intro before line after split
    have grouped := grouped_indentBlocks text
    rw [grouped.begins_iff split]
    apply or_congr_right
    constructor
    · rintro ⟨earlier, held, rfl, inside, picked⟩
      exact ⟨earlier, held, rfl, (grouped.openBlock_iff split).2 inside, beginsAtMargin_iff.1 picked⟩
    · rintro ⟨earlier, held, rfl, opened, picked⟩
      exact ⟨earlier, held, rfl, (grouped.openBlock_iff split).1 opened, beginsAtMargin_iff.2 picked⟩

/-! ### The lines of a paragraph -/

/-- Lines with content, and blank lines after them. -/
def IsParagraph (lines : List (List Char)) : Prop :=
  ∃ solid trail, lines = solid ++ trail ∧ solid ≠ [] ∧ (∀ l ∈ solid, isAllBlank l = false) ∧
    ∀ l ∈ trail, isAllBlank l = true

theorem exists_span (p : List Char → Bool) (lines : List (List Char)) : ∃ a b, lines = a ++ b ∧
    (∀ l ∈ a, p l = true) ∧ ∀ l more, b = l :: more → p l = false := by
  induction lines with
  | nil => exact ⟨[], [], rfl, by simp, by simp⟩
  | cons line rest ih =>
    by_cases own : p line = true
    · obtain ⟨a, b, rfl, all, stop⟩ := ih
      exact ⟨line :: a, b, rfl, List.forall_mem_cons.2 ⟨own, all⟩, stop⟩
    · refine ⟨[], line :: rest, rfl, by simp, ?_⟩
      intro l more same
      obtain ⟨rfl, -⟩ := List.cons.inj same
      exact Bool.eq_false_iff.2 own

/-- A group in which no paragraph begins is blank after its first lines with content. -/
theorem exists_trail {g : List (List Char)} (quiet : ∀ held line more, g = held ++ line :: more →
    held ≠ [] → beginsParagraph held line = false) : ∃ lead rest, g = lead ++ rest ∧
      (∀ l ∈ lead, isAllBlank l = true) ∧ (rest = [] ∨ IsParagraph rest) := by
  obtain ⟨lead, rest, rfl, leading, stop⟩ := exists_span isAllBlank g
  obtain ⟨solid, trail, rfl, filled, stop'⟩ := exists_span (fun l => !isAllBlank l) rest
  obtain ⟨blank, others, rfl, trailing, stop''⟩ := exists_span isAllBlank trail
  refine ⟨lead, _, rfl, leading, ?_⟩
  simp only [Bool.not_eq_true'] at filled
  cases solid with
  | nil =>
    -- The first line after the leading ones would be blank and not blank.
    cases blank with
    | nil =>
      cases others with
      | nil => exact Or.inl rfl
      | cons l others =>
        have content := stop l others rfl
        have none := stop' l others rfl
        simp [content] at none
    | cons l blank =>
      have content := stop l (blank ++ others) rfl
      rw [trailing l List.mem_cons_self] at content
      cases content
  | cons s solid =>
    have some := List.cons_ne_nil s solid
    cases others with
    | nil =>
      refine Or.inr ⟨s :: solid, blank, by simp, some, filled, trailing⟩
    | cons l others =>
      exfalso
      have content := stop'' l others rfl
      have blanks : blank ≠ [] := by
        rintro rfl
        have none := stop' l others rfl
        simp [content] at none
      obtain ⟨init, last, rfl⟩ := (List.eq_nil_or_concat' blank).resolve_left blanks
      have closed := quiet (lead ++ (s :: solid) ++ (init ++ [last])) l others (by simp) (by simp)
      have opens : BeginsParagraph (lead ++ (s :: solid) ++ (init ++ [last])) l := by
        refine ⟨content, ⟨last, ?_, trailing last (by simp)⟩, s, by simp, filled s List.mem_cons_self⟩
        rw [← List.append_assoc]
        exact List.getLast?_concat
      rw [beginsParagraph_iff.2 opens] at closed
      cases closed

theorem exists_content {text : List Char} (filled : isAllBlank text = false) :
    ∃ l ∈ linesInclusive text, isAllBlank l = false := by
  rw [← flatten_linesInclusive text] at filled
  obtain ⟨c, mem, solid⟩ := List.all_eq_false.1 filled
  obtain ⟨l, there, inside⟩ := List.mem_flatten.1 mem
  exact ⟨l, there, List.all_eq_false.2 ⟨c, inside, solid⟩⟩

theorem CutAt.paragraph {g h : List (List Char)} {pre post : List (List (List Char))}
    (cut : CutAt beginsParagraph (g :: pre ++ h :: post)) : IsParagraph h := by
  have filled := cut.filled h (by simp)
  obtain ⟨lead, rest, rfl, leading, shape⟩ := exists_trail (cut.within h (by simp))
  have inside : Within (g :: pre ++ (lead ++ rest) :: post) (g :: pre).flatten (lead ++ rest) :=
    ⟨filled, g :: pre, lead ++ rest, post, rfl, rfl, List.prefix_refl _⟩
  obtain none | ⟨block, line, more, same, picked⟩ := cut.picked inside
  · have first := cut.filled g (by simp)
    rw [List.flatten_cons, List.append_eq_nil_iff] at none
    exact absurd none.1 first
  · cases lead with
    | nil => exact shape.resolve_left filled
    | cons l lead =>
      obtain ⟨rfl, -⟩ := List.cons.inj same
      have content := (beginsParagraph_iff.1 picked).1
      rw [leading l List.mem_cons_self] at content
      cases content

/-- The first paragraph has the blank lines before it, and every paragraph those after it. -/
theorem exists_paragraphs {text : List Char} (filled : isAllBlank text = false) :
    ∃ lead first rest, linesInclusive text = lead ++ (first :: rest).flatten ∧
      paragraphBlocks text = ranges 0 (((lead ++ first) :: rest).map List.flatten) ∧
      (∀ l ∈ lead, isAllBlank l = true) ∧ ∀ g ∈ first :: rest, IsParagraph g := by
  obtain ⟨found, joined, cut⟩ := grouped_paragraphBlocks text
  obtain ⟨l, mem, content⟩ := exists_content filled
  generalize groupLines beginsParagraph [] (linesInclusive text) = groups at found joined cut
  cases groups with
  | nil =>
    rw [← joined] at mem
    cases mem
  | cons g rest =>
    obtain ⟨lead, first, rfl, leading, shape⟩ := exists_trail (cut.within g List.mem_cons_self)
    have later : ∀ h ∈ rest, IsParagraph h := by
      intro h there
      obtain ⟨pre, post, rfl⟩ := List.append_of_mem there
      exact cut.paragraph
    have own : IsParagraph first := by
      -- Something is not blank, so the first group cannot be blank lines only.
      refine shape.resolve_left ?_
      rintro rfl
      rw [List.append_nil] at joined cut
      cases rest with
      | nil =>
        rw [← joined, List.flatten_singleton] at mem
        rw [leading l mem] at content
        cases content
      | cons h rest =>
        obtain ⟨⟨line, more, -, picked⟩, -⟩ := List.isChain_cons_cons.1 cut.between
        obtain ⟨l, there, content⟩ := (beginsParagraph_iff.1 picked).2.2
        rw [leading l there] at content
        cases content
    refine ⟨lead, first, rest, ?_, found, leading, List.forall_mem_cons.2 ⟨own, later⟩⟩
    rw [← joined, List.flatten_cons, List.flatten_cons, List.append_assoc]

/-! ### The handler -/

variable {count : Counter} {budget : Nat} {text : List Char}

theorem nodup_blockIds (held : text ≠ []) (s : Strategy) :
    ((blocks count budget text).2.map (blockId s)).Nodup := by
  obtain ⟨pieces, same, -, own⟩ := cuts_blocks count budget held
  have ascending := ascending_of_tiles (tiles_ranges 0 own)
  rw [← same] at ascending
  rw [List.Nodup, List.pairwise_map]
  apply ascending.imp
  intro a b less equal
  exact Nat.ne_of_lt less (start_of_blockId equal)

theorem indentBlocks_ne_nil (held : text ≠ []) : indentBlocks text ≠ [] := by
  intro none
  have tiles := (blocksAt_indentBlocks text).tiles
  rw [none] at tiles
  have long := byteLength_pos held
  have empty : 0 = byteLength text := tiles
  omega

/-- Only a single paragraph over the budget is cut at the margin, and it is left whole only if that
does not cut it. -/
structure Chosen (count : Counter) (budget : Nat) (text : List Char) (s : Strategy)
    (found : List (Nat × Nat)) : Prop where
  found : found = match s with
    | .paragraph => paragraphBlocks text
    | .indent => indentBlocks text
    | .fallback => [(0, byteLength text)]
  indent : s = .indent ↔ ((paragraphBlocks text).length = 1 ∧ budget < count text) ∧
    1 < (indentBlocks text).length
  fallback : s = .fallback ↔ ((paragraphBlocks text).length = 1 ∧ budget < count text) ∧
    (indentBlocks text).length = 1

theorem chosen_blocks (count : Counter) (budget : Nat) (held : text ≠ []) :
    Chosen count budget text (blocks count budget text).1 (blocks count budget text).2 := by
  have some := List.length_pos_iff.2 (indentBlocks_ne_nil held)
  unfold blocks
  by_cases large : (paragraphBlocks text).length = 1 ∧ budget < count text
  · rw [if_pos large]
    by_cases one : (indentBlocks text).length ≤ 1
    · have single : (indentBlocks text).length = 1 := by omega
      simp only [if_pos one]
      exact ⟨rfl, by simp [single], by simp [large, single]⟩
    · have several : 1 < (indentBlocks text).length := by omega
      have more : (indentBlocks text).length ≠ 1 := by omega
      simp only [if_neg one]
      exact ⟨rfl, by simp [large, several], by simp [more]⟩
  · rw [if_neg large]
    exact ⟨rfl, by simp [large], by simp [large]⟩

theorem idsOf_read {r : Reading} {path : String} {source : LoadedSource}
    (loaded : r.load path "text" = .ok source) (filled : isAllBlank source.text = false) :
    ChunkGroup.idsOf (read r path).chunks =
      (blocks r.count (r.maxTokens "text") source.text).2.map
        (blockId (blocks r.count (r.maxTokens "text") source.text).1) := by
  have held : source.text ≠ [] := by
    intro none
    rw [none] at filled
    cases filled
  rw [(read_text loaded filled).2]
  apply ChunkGroup.idsOf_flatMap (nodup_blockIds held _)
  · intro b mem none
    obtain ⟨pieces, parts, -, some, -⟩ := blockParts_spec held mem
    have texts := parts.texts
    rw [none, List.map_nil] at texts
    exact some (List.map_eq_nil_iff.1 texts.symm)
  · intro b mem p part
    exact (unrelated_blockParts held mem part).2

/-- Blocks are paragraphs, or begin at the margin after indented lines; the handler takes the blocks
that `Chosen` tells, and makes of each a chunk with an id of its own. -/
theorem text_blocks_exact {r : Reading} {path : String} {source : LoadedSource}
    (loaded : r.load path "text" = .ok source) (filled : isAllBlank source.text = false) :
    let text := source.text
    let s := (blocks r.count (r.maxTokens "text") text).1
    let found := (blocks r.count (r.maxTokens "text") text).2
    BlocksAt text (paragraphBlocks text) BeginsParagraph ∧
    (∃ lead first rest, linesInclusive text = lead ++ (first :: rest).flatten ∧
      paragraphBlocks text = ranges 0 (((lead ++ first) :: rest).map List.flatten) ∧
      (∀ l ∈ lead, isAllBlank l = true) ∧ ∀ g ∈ first :: rest, IsParagraph g) ∧
    BlocksAt text (indentBlocks text) (fun before line => ∃ earlier held, before = earlier ++ held ∧
      OpenBlock (indentBlocks text) earlier held ∧ BeginsAtMargin held line) ∧
    Chosen r.count (r.maxTokens "text") text s found ∧
    (read r path).chunks = found.flatMap (blockParts r.count (r.maxTokens "text") text) ∧
    (found.map (blockId s)).Nodup ∧
    ChunkGroup.idsOf (read r path).chunks = found.map (blockId s) := by
  have held : source.text ≠ [] := by
    intro none
    rw [none] at filled
    cases filled
  exact ⟨blocksAt_paragraphBlocks _, exists_paragraphs filled, blocksAt_indentBlocks _,
    chosen_blocks _ _ held, (read_text loaded filled).2, nodup_blockIds held _,
    idsOf_read loaded filled⟩

/-! ### A text with blank, indented and unterminated lines -/

def mixedText : List Char := "\u3000\n  one\ntwo\n \t\n\nthree\n\tfour\nfive".toList

def mixedReading : Reading := { twoParagraphs with view := some mixedText }

/-- The wide space of the first line is a blank, and the last block has no line end. -/
theorem mixed_text_blocks : ∃ source, mixedReading.load "notes.txt" "text" = .ok source ∧
    isAllBlank source.text = false ∧ paragraphBlocks source.text = [(0, 18), (18, 34)] ∧
    indentBlocks source.text = [(0, 10), (10, 30), (30, 34)] ∧
    BlocksAt source.text (paragraphBlocks source.text) BeginsParagraph ∧
    ChunkGroup.idsOf (read mixedReading "notes.txt").chunks =
      ["text:paragraph:0:18", "text:paragraph:18:34"] := by
  obtain ⟨source, loaded, text⟩ : ∃ source, mixedReading.load "notes.txt" "text" = .ok source ∧
      source.text = mixedText := ⟨_, rfl, rfl⟩
  have filled : isAllBlank source.text = false := by
    rw [text]
    decide +kernel
  have paragraphs : paragraphBlocks source.text = [(0, 18), (18, 34)] := by
    rw [text]
    decide +kernel
  have indents : indentBlocks source.text = [(0, 10), (10, 30), (30, 34)] := by
    rw [text]
    decide +kernel
  obtain ⟨placed, -, -, -, -, -, ids⟩ := text_blocks_exact loaded filled
  refine ⟨source, loaded, filled, paragraphs, indents, placed, ?_⟩
  have chosen : blocks mixedReading.count (mixedReading.maxTokens "text") source.text =
      (.paragraph, [(0, 18), (18, 34)]) := by
    unfold blocks
    rw [paragraphs]
    exact if_neg fun single => absurd single.1 (by decide)
  rw [ids, chosen]
  decide +kernel

end SourceSlices.Plain
