import SourceSlices.Proofs.GreedyCuts
import SourceSlices.Proofs.HandlerChoice
import SourceSlices.Proofs.SectionCover

/-!
Front matter as a run of lines. A document begins with a block exactly if its first line opens one and a
later line is the same fence. The block ends behind the first such line, so what is cut off is whole lines.
-/
namespace SourceSlices

namespace Text

/-! ### Lines of a text -/

/-- The lines of a text. Each ends with its line feed, and the last one may lack it. -/
inductive LinesOf : List Char → List (List Char) → Prop
  | none : LinesOf [] []
  | unended {line : List Char} (some : line ≠ []) (free : '\n' ∉ line) : LinesOf line [line]
  | ended {line rest : List Char} {lines : List (List Char)} (free : '\n' ∉ line)
      (others : LinesOf rest lines) : LinesOf (line ++ '\n' :: rest) ((line ++ ['\n']) :: lines)

variable {cs line : List Char} {lines after : List (List Char)}

theorem linesInclusive_unended (some : line ≠ []) (free : '\n' ∉ line) :
    linesInclusive line = [line] := by
  induction line with
  | nil => exact absurd rfl some
  | cons c rest ih =>
    have other : c ≠ '\n' := Ne.symm (List.ne_of_not_mem_cons free)
    rw [linesInclusive, if_neg other]
    cases rest with
    | nil => rfl
    | cons d rest => rw [ih (List.cons_ne_nil d rest) (List.not_mem_of_not_mem_cons free)]

theorem linesInclusive_ended (free : '\n' ∉ line) (rest : List Char) :
    linesInclusive (line ++ '\n' :: rest) = (line ++ ['\n']) :: linesInclusive rest := by
  induction line with
  | nil => simp [linesInclusive]
  | cons c line ih =>
    have other : c ≠ '\n' := Ne.symm (List.ne_of_not_mem_cons free)
    rw [List.cons_append, linesInclusive, if_neg other, ih (List.not_mem_of_not_mem_cons free)]
    rfl

theorem linesOf_linesInclusive (cs : List Char) : LinesOf cs (linesInclusive cs) := by
  induction cs with
  | nil => exact .none
  | cons c cs ih =>
    rw [linesInclusive]
    split
    · rename_i feed
      subst feed
      have free : '\n' ∉ [] := List.not_mem_nil
      exact .ended free ih
    · rename_i other
      have apart {line : List Char} (free : '\n' ∉ line) : '\n' ∉ c :: line := by
        intro mem
        rcases List.mem_cons.1 mem with same | mem
        · exact other same.symm
        · exact free mem
      -- The character joins the first line of what follows, if anything follows.
      split
      · rename_i none
        rw [none] at ih
        cases ih
        exact .unended (List.cons_ne_nil c []) (apart List.not_mem_nil)
      · rename_i first others split
        rw [split] at ih
        cases ih with
        | unended some free => exact .unended (List.cons_ne_nil c _) (apart free)
        | ended free others => exact .ended (apart free) others

theorem linesOf_iff : LinesOf cs lines ↔ linesInclusive cs = lines := by
  constructor
  · intro made
    induction made with
    | none => rfl
    | unended some free => exact linesInclusive_unended some free
    | ended free others ih => rw [linesInclusive_ended free, ih]
  · rintro rfl
    exact linesOf_linesInclusive cs

theorem LinesOf.flatten (made : LinesOf cs lines) : lines.flatten = cs := by
  rw [← linesOf_iff.1 made]
  exact flatten_linesInclusive cs

theorem LinesOf.append (before : List (List Char)) (made : LinesOf cs (before ++ after)) :
    LinesOf before.flatten before ∧ LinesOf after.flatten after := by
  obtain ⟨first, second⟩ := lined_of_lines before (linesOf_iff.1 made)
  exact ⟨linesOf_iff.2 first, linesOf_iff.2 second⟩

theorem LinesOf.feed (before : List (List Char)) (made : LinesOf cs (before ++ line :: after)) :
    (∃ held, line = held ++ ['\n']) ∨ after = [] := by
  have rest := (LinesOf.append before made).2
  generalize (line :: after).flatten = text at rest
  cases rest with
  | unended some free => exact .inr rfl
  | ended free others => exact .inl ⟨_, rfl⟩

end Text

namespace Markdown

open Text

variable {format : FrontFormat} {text line : List Char} {lines body : List (List Char)} {f : FrontMatter}

/-! ### Fences -/

/-- The line holds the delimiter of a format and, behind it, only blanks. -/
def FrontFormat.Marks (format : FrontFormat) (line : List Char) : Prop :=
  ∃ blanks, line = format.delimiter ++ blanks ∧ ∀ c ∈ blanks, isBlank c = true

theorem marks_iff : format.Marks line ↔ trimEnd line = format.delimiter := by
  have solid : ∀ c ∈ format.delimiter.getLast?, ¬ isBlank c = true := by
    intro c last
    cases format with
    | yaml =>
      obtain rfl : '-' = c := Option.some.inj last
      decide
    | toml =>
      obtain rfl : '+' = c := Option.some.inj last
      decide
  rw [trimEnd, trimEndWhere_iff]
  constructor
  · rintro ⟨blanks, split, blank⟩
    exact ⟨blanks, split, blank, solid⟩
  · rintro ⟨blanks, split, blank, -⟩
    exact ⟨blanks, split, blank⟩

theorem ofLine?_iff : FrontFormat.ofLine? line = some format ↔ format.Marks line := by
  rw [marks_iff]
  constructor
  · intro found
    simpa using List.find?_some found
  · intro same
    cases format with
    | yaml => simp [FrontFormat.ofLine?, same]
    | toml =>
      have other : ¬ FrontFormat.toml.delimiter = FrontFormat.yaml.delimiter := by decide
      simp [FrontFormat.ofLine?, same, other]

/-! ### The end of a block -/

theorem closeAt_marked (marks : format.Marks line) (offset : Nat) (rest : List (List Char)) :
    closeAt format offset (line :: rest) = some ([], offset + byteLength line) := by
  rw [closeAt, if_pos (beq_iff_eq.2 (marks_iff.1 marks))]

theorem closeAt_other (other : ¬ format.Marks line) (offset : Nat) (rest : List (List Char)) :
    closeAt format offset (line :: rest) =
      (closeAt format (offset + byteLength line) rest).map fun e => (line :: e.1, e.2) := by
  rw [closeAt, if_neg (mt beq_iff_eq.1 (mt marks_iff.2 other))]

/-- A block reaches to the first line that closes it. -/
theorem closeAt_iff {offset stop : Nat} : closeAt format offset lines = some (body, stop) ↔
    ∃ closing others, lines = body ++ closing :: others ∧ (∀ l ∈ body, ¬ format.Marks l) ∧
      format.Marks closing ∧ stop = offset + byteLength body.flatten + byteLength closing := by
  induction lines generalizing offset body with
  | nil => simp [closeAt]
  | cons first rest ih =>
    by_cases marks : format.Marks first
    · rw [closeAt_marked marks]
      constructor
      · intro same
        obtain ⟨rfl, rfl⟩ := Prod.mk.inj (Option.some.inj same)
        exact ⟨first, rest, rfl, by simp, marks, by simp [byteLength]⟩
      · rintro ⟨closing, others, split, unmarked, -, rfl⟩
        -- The first line closes the block, so that nothing stands before it.
        cases body with
        | nil =>
          obtain ⟨rfl, rfl⟩ := List.cons.inj split
          simp [byteLength]
        | cons l body =>
          obtain ⟨rfl, -⟩ := List.cons.inj split
          exact absurd marks (unmarked first List.mem_cons_self)
    · rw [closeAt_other marks, Option.map_eq_some_iff]
      constructor
      · rintro ⟨⟨held, stop'⟩, found, same⟩
        obtain ⟨rfl, rfl⟩ := Prod.mk.inj same
        obtain ⟨closing, others, rfl, unmarked, closes, rfl⟩ := ih.1 found
        refine ⟨closing, others, rfl, List.forall_mem_cons.2 ⟨marks, unmarked⟩, closes, ?_⟩
        dsimp only
        rw [List.flatten_cons, byteLength_append]
        omega
      · rintro ⟨closing, others, split, unmarked, closes, rfl⟩
        cases body with
        | nil =>
          obtain ⟨rfl, -⟩ := List.cons.inj split
          exact absurd closes marks
        | cons l held =>
          obtain ⟨rfl, rfl⟩ := List.cons.inj split
          have unmarked := (List.forall_mem_cons.1 unmarked).2
          have reach : offset + byteLength (first :: held).flatten + byteLength closing =
              offset + byteLength first + byteLength held.flatten + byteLength closing := by
            rw [List.flatten_cons, byteLength_append]
            omega
          exact ⟨_, ih.2 ⟨closing, others, rfl, unmarked, closes, reach⟩, rfl⟩

/-! ### Blocks -/

/-- The lines of a document with a block: the one that opens it, those it holds, the first one that closes
it, and the others. -/
structure Fenced (text : List Char) (f : FrontMatter) (opening : List Char) (held : List (List Char))
    (closing : List Char) (others : List (List Char)) : Prop where
  lines : LinesOf text (opening :: (held ++ closing :: others))
  opens : f.format.Marks opening
  unclosed : ∀ line ∈ held, ¬ f.format.Marks line
  closes : f.format.Marks closing
  body : f.body = held.flatten
  stop : f.stop = byteLength (opening ++ f.body ++ closing)

theorem frontMatter?_iff :
    frontMatter? text = some f ↔ ∃ opening held closing others, Fenced text f opening held closing others := by
  constructor
  · intro found
    unfold frontMatter? at found
    split at found
    · cases found
    · rename_i opening rest lines
      obtain ⟨format, opens, closed⟩ := Option.bind_eq_some_iff.1 found
      obtain ⟨⟨held, stop⟩, behind, rfl⟩ := Option.map_eq_some_iff.1 closed
      obtain ⟨closing, others, rfl, unclosed, closes, rfl⟩ := closeAt_iff.1 behind
      refine ⟨opening, held, closing, others, linesOf_iff.2 lines, ofLine?_iff.1 opens, unclosed, closes,
        rfl, ?_⟩
      rw [byteLength_append, byteLength_append]
  · rintro ⟨opening, held, closing, others, fenced⟩
    have closed : closeAt f.format (byteLength opening) (held ++ closing :: others) =
        some (held, f.stop) := by
      apply closeAt_iff.2
      refine ⟨closing, others, rfl, fenced.unclosed, fenced.closes, ?_⟩
      rw [fenced.stop, fenced.body, byteLength_append, byteLength_append]
    rw [frontMatter?, linesOf_iff.1 fenced.lines]
    simp only [ofLine?_iff.2 fenced.opens, Option.bind_some, closed, Option.map_some, ← fenced.body]

/-- A document that opens a block and has a later line of the same kind has front matter. -/
theorem fenced_of_marks {opening : List Char} {later : List (List Char)}
    (lines : LinesOf text (opening :: later)) (opens : format.Marks opening)
    (closes : ∃ line ∈ later, format.Marks line) :
    ∃ f opening held closing others, Fenced text f opening held closing others := by
  obtain ⟨line, mem, marks⟩ := closes
  obtain ⟨closing, first⟩ := Option.isSome_iff_exists.1
    (List.find?_isSome (p := (trimEnd · == format.delimiter)).2 ⟨line, mem, beq_iff_eq.2 (marks_iff.1 marks)⟩)
  obtain ⟨closed, held, others, rfl, unclosed⟩ := List.find?_eq_some_iff_append.1 first
  refine ⟨⟨format, held.flatten, byteLength (opening ++ held.flatten ++ closing)⟩, opening, held, closing,
    others, lines, opens, ?_, marks_iff.2 (beq_iff_eq.1 closed), rfl, rfl⟩
  intro line mem marks
  simpa [marks_iff.1 marks] using unclosed line mem

/-- A document has front matter exactly if its first line opens a block and a later line closes it. It is
then the line that opens the block, the text in the block, the first line that closes it, and the rest. The
rest begins at the byte where the front matter stops, behind a line feed or at the end of the document. -/
theorem front_matter_located (text : List Char) :
    ((∃ f, frontMatter? text = some f) ↔ ∃ (format : FrontFormat) (opening : List Char)
      (later : List (List Char)), LinesOf text (opening :: later) ∧ format.Marks opening ∧
        ∃ line ∈ later, format.Marks line) ∧
      ∀ f, frontMatter? text = some f → ∃ opening held closing others,
        Fenced text f opening held closing others ∧
          text = opening ++ f.body ++ closing ++ dropBytes f.stop text ∧
          slice text 0 f.stop = opening ++ f.body ++ closing ∧
          LinesOf f.body held ∧ LinesOf (dropBytes f.stop text) others ∧
          ((∃ cs, closing = cs ++ ['\n']) ∨ dropBytes f.stop text = []) := by
  constructor
  · constructor
    · rintro ⟨f, found⟩
      obtain ⟨opening, held, closing, others, fenced⟩ := frontMatter?_iff.1 found
      exact ⟨f.format, opening, _, fenced.lines, fenced.opens, closing, by simp, fenced.closes⟩
    · rintro ⟨format, opening, later, lines, opens, closes⟩
      obtain ⟨f, fenced⟩ := fenced_of_marks lines opens closes
      exact ⟨f, frontMatter?_iff.2 fenced⟩
  · intro f found
    obtain ⟨opening, held, closing, others, fenced⟩ := frontMatter?_iff.1 found
    have whole : text = (opening ++ f.body ++ closing) ++ others.flatten := by
      rw [← fenced.lines.flatten, fenced.body]
      simp
    have rest : dropBytes f.stop text = others.flatten := by
      rw [whole, fenced.stop, dropBytes_append]
    have front : slice text 0 f.stop = opening ++ f.body ++ closing := by
      have piece := slice_piece [] (opening ++ f.body ++ closing) others.flatten
      rw [← fenced.stop, List.nil_append, ← whole] at piece
      simpa [byteLength] using piece
    -- The lines of the block and those behind it are runs of the lines of the document.
    obtain ⟨-, behind⟩ := LinesOf.append [opening] fenced.lines
    obtain ⟨inner, closed⟩ := LinesOf.append held behind
    obtain ⟨-, outer⟩ := LinesOf.append [closing] closed
    refine ⟨opening, held, closing, others, fenced, rest ▸ whole, front, fenced.body ▸ inner, rest ▸ outer, ?_⟩
    rcases LinesOf.feed (opening :: held) fenced.lines with feed | none
    · exact .inl feed
    · exact .inr (by rw [rest, none, List.flatten_nil])

/-- A block of one kind that holds a fence of the other kind. The fences are followed by blanks. -/
def mixedFences : List Char := "--- \r\na: 1\n+++\n---\t\n---\nend".toList

theorem mixed_fences_located : ∃ opening held closing others,
    Fenced mixedFences ⟨.yaml, "a: 1\n+++\n".toList, 20⟩ opening held closing others ∧
      LinesOf (dropBytes 20 mixedFences) others ∧ ∃ cs, closing = cs ++ ['\n'] := by
  have found : frontMatter? mixedFences = some ⟨.yaml, "a: 1\n+++\n".toList, 20⟩ := by decide
  obtain ⟨opening, held, closing, others, fenced, -, -, -, rest, feed⟩ :=
    (front_matter_located mixedFences).2 _ found
  exact ⟨opening, held, closing, others, fenced, rest, feed.resolve_right (by decide)⟩

end Markdown

end SourceSlices
