import SourceSlices.Proofs.DedentedText
import SourceSlices.Proofs.DelegatedLines

/-!
The body of a script or a style, handed over without its common indentation. Each of its lines stands in
the page, between blanks, as many lines below the first one as in the text that is handed over.
-/
namespace SourceSlices

namespace Text

/-! ### Lines in place -/

/-- Each carriage return is a part of a line end. -/
def ReturnsFollowed (cs : List Char) : Prop :=
  ∀ i < cs.length, cs[i]? = some '\r' → cs[i + 1]? = some '\n'

instance (cs : List Char) : Decidable (ReturnsFollowed cs) :=
  inferInstanceAs (Decidable (∀ i < cs.length, cs[i]? = some '\r' → cs[i + 1]? = some '\n'))

variable {lines : List (List Char)} {line : List Char}

/-- A line of a text begins behind as many line feeds as there are lines before it. -/
theorem exists_at_line {i : Nat} (free : ∀ l ∈ lines, '\n' ∉ l) (here : lines[i]? = some line) :
    ∃ above below, join ['\n'] lines = above ++ line ++ below ∧ above.count '\n' = i ∧
      (∀ c ∈ above, c = '\n' ∨ ∃ l ∈ lines.take i, c ∈ l) ∧
      (∀ c ∈ above.getLast?, c = '\n') ∧ ∀ c ∈ below.head?, c = '\n' := by
  induction lines generalizing i with
  | nil => cases here
  | cons first rest ih =>
    cases i with
    | zero =>
      obtain rfl := Option.some.inj here
      cases rest with
      | nil => exact ⟨[], [], by simp [join], rfl, by simp, by simp, by simp⟩
      | cons next rest =>
        refine ⟨[], '\n' :: join ['\n'] (next :: rest), by simp [join_cons_cons], rfl, by simp, by simp, ?_⟩
        intro c there
        exact (Option.some.inj there).symm
    | succ i =>
      -- Above the line stand the first line with its feed, and then what is above it among the other lines.
      obtain ⟨above, below, same, count, held, last, next⟩ :=
        ih (fun l mem => free l (List.mem_cons_of_mem _ mem)) here
      have some : rest ≠ [] := by
        rintro rfl
        cases here
      have none : first.count '\n' = 0 := List.count_eq_zero.2 (free first List.mem_cons_self)
      refine ⟨first ++ '\n' :: above, below, ?_, ?_, ?_, ?_, next⟩
      · obtain ⟨l, ls, rfl⟩ := List.exists_cons_of_ne_nil some
        rw [join_cons_cons, same]
        simp
      · rw [List.count_append, List.count_cons_self, none, count]
        omega
      · intro c mem
        rcases List.mem_append.1 mem with own | mem
        · exact .inr ⟨first, by simp, own⟩
        · rcases List.mem_cons.1 mem with feed | mem
          · exact .inl feed
          · obtain feed | ⟨l, there, inside⟩ := held c mem
            · exact .inl feed
            · exact .inr ⟨l, by simp [there], inside⟩
      · intro c there
        rw [List.getLast?_append, List.getLast?_cons, Option.some_or] at there
        cases foot : above.getLast? with
        | none =>
          rw [foot] at there
          exact (Option.some.inj there).symm
        | some d =>
          rw [foot] at there
          exact Option.some.inj there ▸ last d foot

theorem ReturnsFollowed.tail {c : Char} {cs : List Char} (followed : ReturnsFollowed (c :: cs)) :
    ReturnsFollowed cs := by
  intro i less here
  exact followed (i + 1) (Nat.succ_lt_succ less) here

/-- Where returns only stand before feeds, a line with unified ends lacks no more than its return. -/
theorem forall₂_unifyLineEnds {cs : List Char} (followed : ReturnsFollowed cs) :
    List.Forall₂ (fun raw line => ∃ b, raw = line ++ b ∧ isAllBlank b = true) (splitOn '\n' cs)
      (splitOn '\n' (unifyLineEnds cs)) := by
  induction cs using unifyLineEnds.induct with
  | case1 => exact .cons ⟨[], rfl, rfl⟩ .nil
  | case2 cs ih =>
    exact .cons ⟨['\r'], rfl, by decide⟩ (ih followed.tail.tail)
  | case3 c cs other ih =>
    have lines := ih followed.tail
    have kept : c ≠ '\r' := by
      intro same
      have feed : cs[0]? = some '\n' := followed 0 (Nat.zero_lt_succ _) (congrArg some same)
      rw [← List.head?_eq_getElem?] at feed
      obtain ⟨rest, there⟩ := List.head?_eq_some_iff.1 feed
      exact other rest same there
    rw [unifyLineEnds.eq_3 _ _ other, if_neg kept, splitOn, splitOn]
    by_cases feed : c = '\n'
    · rw [if_pos feed, if_pos feed]
      exact .cons ⟨[], rfl, rfl⟩ lines
    · rw [if_neg feed, if_neg feed]
      obtain ⟨first, rest, pieces⟩ := splitOn_cons '\n' cs
      obtain ⟨first', rest', pieces'⟩ := splitOn_cons '\n' (unifyLineEnds cs)
      rw [pieces, pieces'] at lines ⊢
      obtain ⟨⟨b, same, blank⟩, others⟩ := List.forall₂_cons.1 lines
      exact .cons ⟨b, by rw [same, List.cons_append], blank⟩ others

theorem IsBoundary.around {cs : List Char} {m n : Nat} (first : IsBoundary cs m) (last : IsBoundary cs n)
    (le : m ≤ n) : ∃ pre post, cs = pre ++ (slice cs m n ++ post) ∧ m = byteLength pre ∧
      n = m + byteLength (slice cs m n) := by
  have exact : (Chunk.ofSlice "" cs m n).Exact cs := ⟨first, last, le, rfl⟩
  simpa [Chunk.ofSlice, sliceText] using exact.around

namespace Dedents

variable {text : List Char} {before kept after made : List (List Char)}

/-- A line that is kept, in the text as it was. -/
theorem place (d : Dedents text before kept after made) (followed : ReturnsFollowed text) {i : Nat}
    (here : kept[i]? = some line) :
    ∃ above b below, text = above ++ (line ++ b) ++ below ∧ isAllBlank b = true ∧ '\n' ∉ line ++ b ∧
      above.count '\n' = before.length + i ∧ (i = 0 → isAllBlank above = true) ∧
      (∀ c ∈ above.getLast?, c = '\n') ∧ ∀ c ∈ below.head?, c = '\n' := by
  have lines := forall₂_unifyLineEnds followed
  have there : (splitOn '\n' (unifyLineEnds text))[before.length + i]? = some line := by
    rw [d.lines, List.append_assoc, List.getElem?_append_right (Nat.le_add_right _ _), Nat.add_sub_cancel_left,
      List.getElem?_append_left (List.getElem?_eq_some_iff.1 here).1, here]
  obtain ⟨raw, found, b, rfl, blank⟩ := exists_of_forall₂ lines there
  have free : ∀ l ∈ splitOn '\n' text, '\n' ∉ l := fun l mem => not_mem_of_mem_splitOn mem
  obtain ⟨above, below, same, count, held, last, next⟩ := exists_at_line free found
  rw [join_splitOn] at same
  refine ⟨above, b, below, same, blank, free _ (List.mem_of_getElem? found), count, ?_, last, next⟩
  rintro rfl
  rw [isAllBlank_iff]
  intro c mem
  obtain rfl | ⟨l, upper, inside⟩ := held c mem
  · rfl
  · -- Before the first line that is kept, all lines are blank, their returns included.
    have uppers := List.forall₂_take before.length lines
    rw [d.lines, List.append_assoc, List.take_left] at uppers
    obtain ⟨k, upper⟩ := List.mem_iff_getElem?.1 upper
    obtain ⟨u, there, b', rfl, blank'⟩ := exists_of_forall₂ uppers.flip upper
    have all := isAllBlank_append.2 ⟨d.above u (List.mem_of_getElem? there), blank'⟩
    exact isAllBlank_iff.1 all c inside

/-- The leading blanks hold the ends of the lines that are left out before the first one. -/
theorem count_leading (d : Dedents text before kept after made) (followed : ReturnsFollowed text)
    (some : kept ≠ []) : (text.takeWhile isBlank).count '\n' = before.length := by
  obtain ⟨line, rest, rfl⟩ := List.exists_cons_of_ne_nil some
  obtain ⟨above, b, below, same, -, free, count, lead, -, -⟩ := d.place followed (i := 0) rfl
  have stops : (line.takeWhile isBlank).length ≠ line.length := by
    intro all
    have blank := isAllBlank_iff.2 (List.takeWhile_eq_self_iff.1 ((List.takeWhile_prefix _).eq_of_length all))
    rw [d.first line rfl] at blank
    cases blank
  have leading : text.takeWhile isBlank = above ++ line.takeWhile isBlank := by
    rw [same, List.append_assoc, List.takeWhile_append_of_pos (isAllBlank_iff.1 (lead rfl)), List.append_assoc,
      List.takeWhile_append, if_neg stops]
  have none : '\n' ∉ line.takeWhile isBlank := by
    intro mem
    exact free (List.mem_append_left _ ((List.takeWhile_prefix _).subset mem))
  rw [leading, List.count_append, count, List.count_eq_zero.2 none]
  rfl

end Dedents

end Text

namespace Html.Page

open Text

/-- A line of the text handed over, and the part of a line of the page that it is left of. -/
def LineFrom (p : Page) (raw : Syntax.Node) (line : List Char) (n : Nat) : Prop :=
  ∃ above a b below, p.slice raw = above ++ (a ++ line ++ b) ++ below ∧
    isAllBlank a = true ∧ isAllBlank b = true ∧ '\n' ∉ a ++ line ++ b ∧
    (∀ c ∈ above.getLast?, c = '\n') ∧ (∀ c ∈ below.head?, c = '\n') ∧
    p.lines.line (raw.start + byteLength above + byteLength a) = n

variable {p : Page} {raw : Syntax.Node}

theorem line_within {pre part rest post : List Char} (whole : p.lines = LineIndex.ofText p.text)
    (text : p.text = pre ++ (part ++ rest ++ post)) (start : raw.start = byteLength pre) :
    p.lines.line (raw.start + byteLength part) = pre.count '\n' + part.count '\n' + 1 := by
  have split : p.text = (pre ++ part) ++ (rest ++ post) := by
    rw [text]
    simp only [List.append_assoc]
  rw [whole, split, start, ← byteLength_append, LineIndex.line_at, List.count_append]

/-- Each line that is handed over keeps its distance from the first one. -/
theorem lineFrom_bodyLine (whole : p.lines = LineIndex.ofText p.text) (first : IsBoundary p.text raw.start)
    (last : IsBoundary p.text raw.stop) (ordered : raw.start ≤ raw.stop)
    (followed : ReturnsFollowed (p.slice raw)) (some : dedent (p.slice raw) ≠ []) {i : Nat} {part : List Char}
    (here : (splitOn '\n' (dedent (p.slice raw)))[i]? = .some part) :
    p.LineFrom raw part (p.bodyLine raw + i) := by
  obtain ⟨pre, post, text, start, -⟩ := first.around last ordered
  change p.text = pre ++ (p.slice raw ++ post) at text
  obtain ⟨before, kept, after, made, d⟩ := dedent_lines (p.slice raw)
  have filled : kept ≠ [] := by
    rintro rfl
    have cut := d.cut
    rw [List.forall₂_nil_left_iff] at cut
    exact some (by rw [d.text_eq, cut]; rfl)
  rw [d.lines_eq filled] at here
  obtain ⟨own, there, a, b, rfl, front, back⟩ := exists_of_forall₂ d.cut here
  obtain ⟨above, b', below, same, blank, free, count, -, upper, lower⟩ := d.place followed there
  have parts : (p.slice raw).takeWhile isBlank ++ trimStart (p.slice raw) = p.slice raw :=
    List.takeWhile_append_dropWhile
  have leading : byteLength (p.slice raw) - byteLength (trimStart (p.slice raw)) =
      byteLength ((p.slice raw).takeWhile isBlank) := by
    have length := byteLength_append ((p.slice raw).takeWhile isBlank) (trimStart (p.slice raw))
    rw [parts] at length
    omega
  -- The first line that stays lies as far down as there are blank lines that are cut off before it.
  have begins : p.bodyLine raw = pre.count '\n' + before.length + 1 := by
    rw [bodyLine, leading, line_within whole (parts.symm ▸ text) start, d.count_leading followed filled]
  refine ⟨above, a, b ++ b', below, ?_, front, isAllBlank_append.2 ⟨back, blank⟩, ?_, upper, lower, ?_⟩
  · rw [same]
    simp only [List.append_assoc]
  · simpa only [List.append_assoc] using free
  · have none : a.count '\n' = 0 := by
      apply List.count_eq_zero.2
      intro mem
      exact free (by simp [mem])
    have split : p.text = pre ++ ((above ++ a) ++ (part ++ b ++ b' ++ below) ++ post) := by
      rw [text, same]
      simp only [List.append_assoc]
    have line := line_within whole split start
    rw [byteLength_append, ← Nat.add_assoc, List.count_append, none, count] at line
    rw [line, begins]
    omega

end Html.Page

namespace Html

open Text

/-- Without its common indentation, a text keeps the lines between its blank ends, and in them all that is
not blank; the body of an element is handed over with the line of the page that its first line comes from. -/
theorem embedded_body_dedented :
    (∀ text : List Char, (∃ before kept after made, Dedents text before kept after made) ∧
      solids (dedent text) = solids text ∧ dedent (dedent text) = dedent text) ∧
    ∀ (p : Page) (raw : Syntax.Node), p.lines = LineIndex.ofText p.text → IsBoundary p.text raw.start →
      IsBoundary p.text raw.stop → raw.start ≤ raw.stop → ReturnsFollowed (p.slice raw) →
      dedent (p.slice raw) ≠ [] → ∀ (i : Nat) (line : List Char),
        (splitOn '\n' (dedent (p.slice raw)))[i]? = some line → p.LineFrom raw line (p.bodyLine raw + i) := by
  constructor
  · intro text
    exact ⟨dedent_lines text, solids_dedent text, dedent_dedent text⟩
  · intro p raw whole first last ordered followed some i line here
    exact Page.lineFrom_bodyLine whole first last ordered followed some here

/-- A style whose lines are indented and end with a return and a feed, the first and the third one empty. -/
def indentedStyle : Page :=
  let text := "<style>\r\n    a \x7b\r\n\r\n      b: c;\r\n    \x7d\r\n  </style>".toList
  ⟨"a.html", text, LineIndex.ofText text, Staging.guideReading, 100, readSource⟩

def styleBody : Syntax.Node := ⟨"raw_text", true, none, 7, 42, false, []⟩

theorem indented_style_dedented :
    indentedStyle.bodyLine styleBody = 2 ∧
      dedent (indentedStyle.slice styleBody) = "a \x7b\n\n  b: c;\n\x7d".toList ∧
      indentedStyle.LineFrom styleBody "  b: c;".toList 4 := by
  have line : indentedStyle.bodyLine styleBody = 2 := by decide +kernel
  have first : IsBoundary indentedStyle.text styleBody.start :=
    ⟨indentedStyle.text.take 7, List.take_prefix _ _, by decide +kernel⟩
  have last : IsBoundary indentedStyle.text styleBody.stop :=
    ⟨indentedStyle.text.take 42, List.take_prefix _ _, by decide +kernel⟩
  have third := embedded_body_dedented.2 indentedStyle styleBody rfl first last (by decide)
    (by decide +kernel) (by decide +kernel) 2 "  b: c;".toList (by decide +kernel)
  rw [line] at third
  exact ⟨line, by decide +kernel, third⟩

end Html

end SourceSlices
