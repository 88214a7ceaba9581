import Mathlib.Data.List.Chain
import SourceSlices.Proofs.ByteRanges
import SourceSlices.Split

/-!
The parts of a split text in terms of the text. Nothing is asked of the counter but that an empty text
costs nothing: it need not grow with the text, and the search for a cut may be led anywhere. Still
every cut takes at least one character and stays inside its line, so that splitting ends, and the parts
are the consecutive slices of the text.
-/

/-!
### Parts that cover a text

Whatever the counter and the budget, the parts of a text cover it from its start to its end, and only
an empty text has an empty part.
-/
namespace SourceSlices.Split

open Text

variable {count : Counter} {budget start : Nat}

/-- Parts that hold given pieces of a text, from an offset on. -/
structure Laid (count : Counter) (start : Nat) (pieces : List (List Char)) (parts : List SplitPart) :
    Prop where
  spans : parts.map (fun p => (p.start, p.stop)) = ranges start pieces
  texts : parts.map (·.text) = pieces.map String.ofList
  counts : parts.map (·.tokenCount) = pieces.map count

/-- Parts that hold the whole text, from an offset on. -/
def Covers (count : Counter) (start : Nat) (cs : List Char) (parts : List SplitPart) : Prop :=
  ∃ pieces, Laid count start pieces parts ∧ pieces.flatten = cs ∧ ∀ p ∈ pieces, p ≠ []

theorem laid_part (count : Counter) (start : Nat) (cs : List Char) (truncated : Bool) :
    Laid count start [cs] [part count start cs truncated] :=
  ⟨rfl, rfl, rfl⟩

theorem laid_append {a b : List (List Char)} {parts more : List SplitPart}
    (first : Laid count start a parts) (second : Laid count (start + byteLength a.flatten) b more) :
    Laid count start (a ++ b) (parts ++ more) where
  spans := by rw [List.map_append, first.spans, second.spans, ranges_append]
  texts := by rw [List.map_append, first.texts, second.texts, List.map_append]
  counts := by rw [List.map_append, first.counts, second.counts, List.map_append]

theorem covers_nil (count : Counter) (start : Nat) : Covers count start [] [] :=
  ⟨[], ⟨rfl, rfl, rfl⟩, rfl, by simp⟩

theorem covers_part (count : Counter) (start : Nat) {cs : List Char} (some : cs ≠ [])
    (truncated : Bool) : Covers count start cs [part count start cs truncated] :=
  ⟨[cs], laid_part count start cs truncated, by simp, by simpa using some⟩

theorem covers_append {a b : List Char} {parts more : List SplitPart}
    (first : Covers count start a parts) (second : Covers count (start + byteLength a) b more) :
    Covers count start (a ++ b) (parts ++ more) := by
  obtain ⟨pieces, laid, rfl, some⟩ := first
  obtain ⟨pieces', laid', rfl, some'⟩ := second
  exact ⟨pieces ++ pieces', laid_append laid laid', by simp, List.forall_mem_append.2 ⟨some, some'⟩⟩

theorem covers_cutLine (count : Counter) (budget start : Nat) (line : List Char) :
    Covers count start line (cutLine count budget start line) := by
  induction h : line.length using Nat.strongRecOn generalizing start line with
  | ind n ih =>
    rw [cutLine]
    split
    · rename_i none
      exact none ▸ covers_nil count start
    · rename_i some
      have long : 0 < line.length := List.length_pos_iff.2 some
      have cut : 0 < cutLength count budget line := Nat.zero_lt_succ _
      have taken : line.take (cutLength count budget line) ≠ [] := by
        intro none
        rcases List.take_eq_nil_iff.1 none with none | none
        · omega
        · exact some none
      have shorter : (line.drop (cutLength count budget line)).length < n := by
        rw [List.length_drop, ← h]
        omega
      have whole := covers_append (covers_part count start taken true) (ih _ shorter _ _ rfl)
      rwa [List.take_append_drop] at whole

theorem covers_close (count : Counter) (start : Nat) (held : List Char) :
    Covers count start held (close count start held) := by
  cases held with
  | nil => exact covers_nil count start
  | cons c held => exact covers_part count start (List.cons_ne_nil _ _) false

theorem covers_packLines (count : Counter) (budget start : Nat) (held : List Char)
    (lines : List (List Char)) :
    Covers count start (held ++ lines.flatten) (packLines count budget start held lines) := by
  induction lines generalizing start held with
  | nil => simpa [packLines] using covers_close count start held
  | cons line rest ih =>
    simp only [packLines]
    split
    · have cut := covers_cutLine count budget (start + byteLength held) line
      have more := ih (start + byteLength held + byteLength line) []
      have both := covers_append (covers_append (covers_close count start held) cut)
        (by rwa [byteLength_append, ← Nat.add_assoc])
      rwa [List.nil_append, List.append_assoc] at both
    · split
      · rename_i full
        have some : held ≠ [] := by
          rintro rfl
          cases full
        exact covers_append (covers_part count start some false) (ih (start + byteLength held) line)
      · have more := ih start (held ++ line)
        rwa [List.append_assoc] at more

theorem covers_byTokens (count : Counter) (budget : Nat) {cs : List Char} (some : cs ≠ []) :
    Covers count 0 cs (byTokens count budget cs) := by
  simp only [byTokens]
  split
  · exact covers_part count 0 some false
  · have packed := covers_packLines count (max budget 1) 0 [] (linesInclusive cs)
    rwa [List.nil_append, flatten_linesInclusive] at packed

theorem byTokens_ne_nil_of_text (count : Counter) (budget : Nat) {cs : List Char} (some : cs ≠ []) :
    byTokens count budget cs ≠ [] := by
  obtain ⟨pieces, laid, joined, -⟩ := covers_byTokens count budget some
  intro none
  have texts := laid.texts
  rw [none, List.map_nil] at texts
  have nothing : pieces = [] := List.map_eq_nil_iff.1 texts.symm
  rw [nothing] at joined
  exact some joined.symm

theorem byTokens_ne_nil (noText : count [] = 0) (budget : Nat) (cs : List Char) :
    byTokens count budget cs ≠ [] := by
  by_cases empty : cs = []
  · simp [byTokens, empty, noText]
  · exact byTokens_ne_nil_of_text count budget empty

end SourceSlices.Split

/-! ### Consecutive slices -/

namespace SourceSlices

namespace Text

/-- An offset at which a character begins, or at which the text ends. -/
def IsBoundary (cs : List Char) (n : Nat) : Prop := ∃ pre, pre <+: cs ∧ byteLength pre = n

theorem head?_ranges (start : Nat) {pieces : List (List Char)} (some : pieces ≠ []) :
    (ranges start pieces).head?.map Prod.fst = .some start := by
  cases pieces with
  | nil => exact absurd rfl some
  | cons piece rest => rfl

theorem getLast?_ranges (start : Nat) {pieces : List (List Char)} (some : pieces ≠ []) :
    (ranges start pieces).getLast?.map Prod.snd = .some (start + byteLength pieces.flatten) := by
  obtain ⟨init, last, rfl⟩ := (List.eq_nil_or_concat' pieces).resolve_left some
  simp [ranges_append, ranges, byteLength_append, Nat.add_assoc]

theorem chain_ranges (start : Nat) (pieces : List (List Char)) :
    (ranges start pieces).IsChain fun a b => a.2 = b.1 := by
  induction pieces generalizing start with
  | nil => exact .nil
  | cons piece rest ih =>
    cases rest with
    | nil => exact .singleton _
    | cons next rest => exact .cons_cons rfl (ih _)

theorem boundaries_ranges (pre : List Char) {pieces : List (List Char)} {b : Nat × Nat}
    (mem : b ∈ ranges (byteLength pre) pieces) :
    IsBoundary (pre ++ pieces.flatten) b.1 ∧ IsBoundary (pre ++ pieces.flatten) b.2 := by
  induction pieces generalizing pre with
  | nil => cases mem
  | cons piece rest ih =>
    rcases List.mem_cons.1 mem with rfl | mem
    · refine ⟨⟨pre, List.prefix_append _ _, rfl⟩, ⟨pre ++ piece, ?_, byteLength_append _ _⟩⟩
      rw [List.flatten_cons, ← List.append_assoc]
      exact List.prefix_append _ _
    · rw [← byteLength_append] at mem
      rw [List.flatten_cons, ← List.append_assoc]
      exact ih (pre ++ piece) mem

theorem length_le_length_flatten {pieces : List (List Char)} (some : ∀ p ∈ pieces, p ≠ []) :
    pieces.length ≤ pieces.flatten.length := by
  induction pieces with
  | nil => exact Nat.zero_le _
  | cons piece rest ih =>
    obtain ⟨own, others⟩ := List.forall_mem_cons.1 some
    have := List.length_pos_iff.2 own
    have := ih others
    rw [List.length_cons, List.flatten_cons, List.length_append]
    omega

end Text

namespace Split

open Text

variable {count : Counter} {budget : Nat} {cs line : List Char} {parts : List SplitPart}

theorem searchCut_le {lo hi best last : Nat} (inside : best ≤ last) (top : hi ≤ last) :
    searchCut count budget line lo hi best ≤ last := by
  induction h : hi + 1 - lo using Nat.strongRecOn generalizing lo hi best with
  | ind n ih =>
    rw [searchCut]
    split
    · dsimp only
      split
      · exact ih _ (by omega) (by omega) top rfl
      · split
        · exact inside
        · exact ih _ (by omega) inside (by omega) rfl
    · exact inside

theorem cutLength_spec (count : Counter) (budget : Nat) (some : line ≠ []) :
    0 < cutLength count budget line ∧ cutLength count budget line ≤ line.length := by
  have long := List.length_pos_iff.2 some
  have found : searchCut count budget line 0 (line.length - 1) 0 ≤ line.length - 1 :=
    searchCut_le (Nat.zero_le _) (Nat.le_refl _)
  unfold cutLength
  omega

/-- Parts that hold a text, all of it and nothing else. -/
structure Lossless (count : Counter) (cs : List Char) (parts : List SplitPart) : Prop where
  first : parts.head?.map (·.start) = some 0
  last : parts.getLast?.map (·.stop) = some (byteLength cs)
  contiguous : parts.IsChain fun p q => p.stop = q.start
  bounded : ∀ p ∈ parts, IsBoundary cs p.start ∧ IsBoundary cs p.stop
  texts : ∀ p ∈ parts, p.text.toList = slice cs p.start p.stop
  counts : ∀ p ∈ parts, p.tokenCount = count (slice cs p.start p.stop)
  joined : parts.flatMap (·.text.toList) = cs
  filled : ∀ p ∈ parts, p.text = "" → cs = []

theorem lossless_of_laid {pieces : List (List Char)} (laid : Laid count 0 pieces parts)
    (some : pieces ≠ []) (filled : ∀ p ∈ pieces, p = [] → pieces.flatten = []) :
    Lossless count pieces.flatten parts := by
  have span {p : SplitPart} (mem : p ∈ parts) : (p.start, p.stop) ∈ ranges (byteLength []) pieces :=
    laid.spans ▸ List.mem_map.2 ⟨p, mem, rfl⟩
  have text : parts.map (·.text.toList) = pieces := by
    have texts := congrArg (List.map String.toList) laid.texts
    simpa [Function.comp_def] using texts
  -- Spans, texts and counts stand in the same order as the pieces, so they agree part by part.
  have slices : parts.map (fun p => slice pieces.flatten p.start p.stop) = pieces := by
    have found := slices_ranges [] pieces
    rw [show ranges (byteLength []) pieces = _ from laid.spans.symm, List.map_map] at found
    exact found
  have count_slices : parts.map (·.tokenCount) =
      parts.map (count ∘ fun p => slice pieces.flatten p.start p.stop) := by
    rw [laid.counts, ← List.map_map, slices]
  constructor
  · rw [← head?_ranges 0 some, ← laid.spans, List.head?_map, Option.map_map]
    rfl
  · have stop := getLast?_ranges 0 some
    rw [← laid.spans, List.getLast?_map, Option.map_map, Nat.zero_add] at stop
    exact stop
  · have chain := chain_ranges 0 pieces
    rw [← laid.spans, List.isChain_map] at chain
    exact chain
  · exact fun p mem => boundaries_ranges [] (span mem)
  · exact List.map_inj_left.1 (text.trans slices.symm)
  · exact List.map_inj_left.1 count_slices
  · rw [List.flatMap_def, text]
  · intro p mem none
    refine filled p.text.toList (text ▸ List.mem_map_of_mem (f := fun p : SplitPart => p.text.toList) mem) ?_
    rw [none]
    rfl

/-- Splitting loses nothing. It makes no more parts than there are characters, since every cut takes
some of those that are left. -/
theorem byTokens_lossless (count : Counter) (budget : Nat) (cs : List Char) (free : count [] = 0) :
    Lossless count cs (byTokens count budget cs) ∧
      (byTokens count budget cs).length ≤ max 1 cs.length ∧
      ∀ rest : List Char, rest ≠ [] → 0 < cutLength count (max budget 1) rest ∧
        cutLength count (max budget 1) rest ≤ rest.length := by
  refine and_assoc.1 ⟨?_, fun rest some => cutLength_spec count _ some⟩
  by_cases none : cs = []
  · subst none
    have whole : byTokens count budget [] = [part count 0 [] false] := by simp [byTokens, free]
    rw [whole]
    exact ⟨lossless_of_laid (laid_part count 0 [] false) (List.cons_ne_nil _ _) (by simp),
      Nat.le_max_left _ _⟩
  · obtain ⟨pieces, laid, rfl, some⟩ := covers_byTokens count budget none
    refine ⟨lossless_of_laid laid (fun empty => none (by simp [empty])) ?_, ?_⟩
    · exact fun p mem empty => absurd empty (some p mem)
    · have length : (byTokens count budget pieces.flatten).length = pieces.length := by
        simpa using congrArg List.length laid.texts
      have := length_le_length_flatten some
      omega

/-- A counter that is neither monotone nor additive. -/
def squares : Counter := fun cs => cs.length * cs.length % 5

/-- Prefixes of two and three characters are over the budget, one of six is not. -/
theorem squares_lossless : squares [] = 0 ∧
    (byTokens squares 0 "äbcdefg\nhij\n".toList).map (·.text.toList) =
      ["äbcdef".toList, "g".toList, "\n".toList, "hij\n".toList] ∧
    Lossless squares "äbcdefg\nhij\n".toList (byTokens squares 0 "äbcdefg\nhij\n".toList) :=
  ⟨rfl, by decide +kernel, (byTokens_lossless squares 0 _ rfl).1⟩

end Split

end SourceSlices
