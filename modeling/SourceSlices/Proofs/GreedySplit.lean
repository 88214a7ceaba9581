import SourceSlices.Proofs.GreedyCuts

/-!
Splitting is greedy. What the loop over the lines leaves behind is told by a relation: runs of whole
lines that cannot take one line more, and between them the cuts of the lines that are too long. What
every single part is follows from where it stands in that relation.
-/
namespace SourceSlices.Split

open Text

variable {count : Counter} {limit : Nat}

/-- Parts of consecutive lines, the first of which begins at an offset. -/
inductive Packed (count : Counter) (limit : Nat) : Nat → List (List Char) → List SplitPart → Prop
  | done (start : Nat) : Packed count limit start [] []
  | block {start : Nat} {block rest : List (List Char)} {parts : List SplitPart} (some : block ≠ [])
      (fits : count block.flatten ≤ limit)
      (full : ∀ line ∈ rest.head?, count line ≤ limit → limit < count (block.flatten ++ line))
      (more : Packed count limit (start + byteLength block.flatten) rest parts) :
      Packed count limit start (block ++ rest) (part count start block.flatten false :: parts)
  | long {start : Nat} {line : List Char} {rest : List (List Char)} {cuts parts : List SplitPart}
      (exceeds : limit < count line) (cutUp : CutUp count limit start line cuts)
      (more : Packed count limit (start + byteLength line) rest parts) :
      Packed count limit start (line :: rest) (cuts ++ parts)

theorem flatten_ne_nil {block : List (List Char)} (some : block ≠ []) (filled : ∀ l ∈ block, l ≠ []) :
    block.flatten ≠ [] := by
  intro none
  obtain ⟨line, mem⟩ := List.exists_mem_of_ne_nil block some
  exact filled line mem (List.flatten_eq_nil_iff.1 none line mem)

/-- Closing what is held puts one part in front, or none where nothing is held. -/
theorem packed_close {start : Nat} (held rest : List (List Char)) {parts : List SplitPart}
    (filled : ∀ l ∈ held, l ≠ []) (fits : held ≠ [] → count held.flatten ≤ limit)
    (full : ∀ line ∈ rest.head?, count line ≤ limit → limit < count (held.flatten ++ line))
    (more : Packed count limit (start + byteLength held.flatten) rest parts) :
    Packed count limit start (held ++ rest) (close count start held.flatten ++ parts) := by
  by_cases none : held = []
  · subst none
    exact more
  · have some := flatten_ne_nil none filled
    rw [close, if_neg (by simpa using some)]
    exact .block none (fits none) full more

theorem packed_packLines (growing : Growing count) (positive : 0 < limit) (start : Nat)
    (held lines : List (List Char)) (filled : ∀ l ∈ held ++ lines, l ≠ [])
    (fits : held ≠ [] → count held.flatten ≤ limit) :
    Packed count limit start (held ++ lines) (packLines count limit start held.flatten lines) := by
  induction lines generalizing start held with
  | nil =>
    have closed := packed_close held [] (List.forall_mem_append.1 filled).1 fits (by simp)
      (.done (start + byteLength held.flatten))
    rwa [List.append_nil (close _ _ _)] at closed
  | cons line rest ih =>
    obtain ⟨own, others⟩ := List.forall_mem_append.1 filled
    obtain ⟨some, others⟩ := List.forall_mem_cons.1 others
    -- A line over the limit is cut up, one that does not fit any more begins a new part, others join the
    -- held ones.
    simp only [packLines]
    split
    · rename_i exceeds
      have cuts := cutUp_cutLine growing positive (start + byteLength held.flatten) line
      have after : Packed count limit (start + byteLength held.flatten + byteLength line) rest
          (packLines count limit (start + byteLength held.flatten + byteLength line) [] rest) :=
        ih _ [] others (absurd rfl)
      rw [List.append_assoc]
      refine packed_close held _ own fits ?_ (.long exceeds cuts after)
      intro first is small
      obtain rfl := Option.some.inj is
      omega
    · rename_i small
      split
      · rename_i full
        simp only [Bool.and_eq_true, Bool.not_eq_true', decide_eq_true_eq] at full
        have after : Packed count limit (start + byteLength held.flatten) (line :: rest)
            (packLines count limit (start + byteLength held.flatten) line rest) := by
          have := ih (start + byteLength held.flatten) [line]
            (List.forall_mem_cons.2 ⟨some, others⟩) (by simpa using small)
          simpa using this
        have closed := packed_close held _ own fits (by simpa using fun _ => full.2) after
        rwa [close, if_neg (by simp [full.1])] at closed
      · rename_i room
        have joined : (held ++ [line]).flatten = held.flatten ++ line := by simp
        have fits' : count (held.flatten ++ line) ≤ limit := by
          by_cases none : held = []
          · simpa [none] using small
          · have kept := flatten_ne_nil none own
            simpa [kept] using room
        have after := ih start (held ++ [line]) (by rwa [List.append_assoc])
          (by rw [joined]; exact fun _ => fits')
        rwa [joined, List.append_assoc] at after

theorem packed_byTokens (growing : Growing count) (budget : Nat) {cs : List Char} (some : cs ≠ []) :
    Packed count (max budget 1) 0 (linesInclusive cs) (byTokens count budget cs) := by
  have lined := nonempty_of_lined (lined_linesInclusive cs)
  simp only [byTokens]
  split
  · rename_i fits
    have lines : linesInclusive cs ≠ [] := by
      intro none
      have empty := flatten_linesInclusive cs
      rw [none] at empty
      exact some empty.symm
    have whole : Packed count (max budget 1) 0 (linesInclusive cs ++ [])
        [part count 0 (linesInclusive cs).flatten false] :=
      .block lines (by rwa [flatten_linesInclusive]) (by simp) (.done _)
    rwa [flatten_linesInclusive, List.append_nil] at whole
  · exact packed_packLines growing (by omega) 0 [] _ lined (absurd rfl)

/-- A part that consists of whole lines of a text, of no line only where the text has none. -/
def WholeLines (lines : List (List Char)) (p : SplitPart) : Prop :=
  ∃ before block after, lines = before ++ block ++ after ∧ (block = [] → lines = []) ∧
    p.start = byteLength before.flatten ∧ p.text.toList = block.flatten

/-- A part that begins a non-empty rest of one line of a text, the whole line being over the limit. -/
def CutOf (count : Counter) (limit : Nat) (lines : List (List Char)) (p : SplitPart)
    (rest : List Char) : Prop :=
  ∃ before pre after, lines = before ++ (pre ++ rest) :: after ∧ limit < count (pre ++ rest) ∧
    p.start = byteLength (before.flatten ++ pre) ∧ p.text.toList <+: rest ∧ p.text.toList ≠ []

/-- Where a part stands in the text. -/
inductive Stands (count : Counter) (limit : Nat) (lines : List (List Char)) (p : SplitPart) : Prop
  | whole {before block after : List (List Char)} (is : lines = before ++ block ++ after)
      (some : block ≠ []) (place : p = part count (byteLength before.flatten) block.flatten false)
      (fits : count block.flatten ≤ limit)
  | cut {before after : List (List Char)} {pre piece rest : List Char}
      (is : lines = before ++ (pre ++ rest) :: after) (exceeds : limit < count (pre ++ rest))
      (place : p = part count (byteLength (before.flatten ++ pre)) piece true) (some : piece ≠ [])
      (longest : LongestFit count limit piece rest)

theorem stands_of_cutUp {before after : List (List Char)} {start : Nat} (pre : List Char)
    {left : List Char} {cuts : List SplitPart} (cutUp : CutUp count limit start left cuts)
    (at' : start = byteLength (before.flatten ++ pre)) (exceeds : limit < count (pre ++ left)) :
    ∀ p ∈ cuts, Stands count limit (before ++ (pre ++ left) :: after) p := by
  induction cutUp generalizing pre with
  | done => simp
  | @cut start piece rest parts some longest more ih =>
    intro p mem
    rcases List.mem_cons.1 mem with rfl | mem
    · exact .cut rfl exceeds (by rw [at']) some longest
    · have next := ih (pre ++ piece) (by rw [at', ← byteLength_append, List.append_assoc])
        (by rwa [List.append_assoc])
      rw [List.append_assoc] at next
      exact next p mem

theorem stands_of_packed (before : List (List Char)) {lines : List (List Char)} {start : Nat}
    {parts : List SplitPart} (packed : Packed count limit start lines parts)
    (at' : start = byteLength before.flatten) : ∀ p ∈ parts, Stands count limit (before ++ lines) p := by
  induction packed generalizing before with
  | done => simp
  | @block start block rest parts some fits full more ih =>
    intro p mem
    rcases List.mem_cons.1 mem with rfl | mem
    · exact .whole (List.append_assoc _ _ _).symm some (by rw [at']) fits
    · have next := ih (before ++ block)
        (by rw [at', List.flatten_append, byteLength_append])
      rw [List.append_assoc] at next
      exact next p mem
  | @long start line rest cuts parts exceeds cutUp more ih =>
    intro p mem
    rcases List.mem_append.1 mem with mem | mem
    · exact stands_of_cutUp [] cutUp (by rwa [List.append_nil]) exceeds p mem
    · have next := ih (before ++ [line])
        (by rw [at', List.flatten_append, byteLength_append]; simp)
      rw [List.append_assoc] at next
      exact next p mem

theorem rest_ne_nil_of_cutOf {lines : List (List Char)} {p : SplitPart} {rest : List Char}
    (cut : CutOf count limit lines p rest) : rest ≠ [] := by
  obtain ⟨-, -, -, -, -, -, ⟨more, whole⟩, some⟩ := cut
  rw [← whole]
  simp [some]

theorem first_line_le (growing : Growing count) (first : List Char) (block : List (List Char)) :
    count first ≤ count (first :: block).flatten := by
  rw [List.flatten_cons]
  exact growing.grows first block.flatten

/-- No line of a run that fits is over the limit, so nothing at the start of the run is a cut. -/
theorem no_cut_at_block (growing : Growing count) {before block after : List (List Char)}
    {p : SplitPart} {rest : List Char} (some : block ≠ []) (filled : ∀ l ∈ block, l ≠ [])
    (place : p.start = byteLength before.flatten) (fits : count block.flatten ≤ limit) :
    ¬ CutOf count limit (before ++ block ++ after) p rest := by
  intro cut
  have left := rest_ne_nil_of_cutOf cut
  obtain ⟨before', pre, after', is, exceeds, place', -⟩ := cut
  cases block with
  | nil => exact some rfl
  | cons first block =>
    have own := filled first List.mem_cons_self
    rw [List.append_assoc, List.cons_append] at is
    have same : byteLength (before.flatten ++ []) = byteLength (before'.flatten ++ pre) := by
      rw [List.append_nil, ← place, place']
    obtain ⟨-, rfl, rfl⟩ := place_unique _ _ [] pre is own left same
    have := first_line_le growing first block
    rw [List.nil_append] at exceeds
    omega

/-- What greedy splitting promises of one part. -/
structure Placed (count : Counter) (limit : Nat) (lines : List (List Char)) (p : SplitPart) :
    Prop where
  counted : p.tokenCount = count p.text.toList
  within : p.tokenCount ≤ limit
  whole : p.truncated = false → WholeLines lines p
  truncated_iff : p.truncated = true ↔ ∃ rest, CutOf count limit lines p rest
  longest : ∀ rest, CutOf count limit lines p rest → LongestFit count limit p.text.toList rest

theorem placed_of_whole {lines : List (List Char)} {p : SplitPart}
    (counted : p.tokenCount = count p.text.toList) (within : p.tokenCount ≤ limit)
    (unflagged : p.truncated = false) (whole : WholeLines lines p)
    (uncut : ∀ rest, ¬ CutOf count limit lines p rest) : Placed count limit lines p := by
  constructor
  · exact counted
  · exact within
  · intro _
    exact whole
  · constructor
    · intro flagged
      rw [unflagged] at flagged
      cases flagged
    · rintro ⟨rest, cut⟩
      exact absurd cut (uncut rest)
  · intro rest cut
    exact absurd cut (uncut rest)

theorem placed_of_stands (growing : Growing count) {lines : List (List Char)} {p : SplitPart}
    (filled : ∀ l ∈ lines, l ≠ []) (stands : Stands count limit lines p) :
    Placed count limit lines p := by
  cases stands with
  | @whole before block after is some place fits =>
    have uncut : ∀ rest, ¬ CutOf count limit lines p rest := by
      intro rest
      rw [is]
      refine no_cut_at_block growing some ?_ (by rw [place]; rfl) fits
      intro l mem
      exact filled l (by simp [is, mem])
    subst place
    refine placed_of_whole (by simp [part]) fits rfl ?_ uncut
    exact ⟨before, block, after, is, (absurd · some), rfl, String.toList_ofList⟩
  | @cut before after pre piece rest is exceeds place some longest =>
    have text : p.text.toList = piece := by rw [place]; exact String.toList_ofList
    have own : CutOf count limit lines p rest :=
      ⟨before, pre, after, is, exceeds, by rw [place]; rfl, text ▸ longest.beginning, text ▸ some⟩
    constructor
    · rw [place]
      simp [part]
    · rw [place]
      exact longest.fits
    · intro flagged
      rw [place] at flagged
      cases flagged
    · constructor
      · intro _
        exact ⟨rest, own⟩
      · intro _
        rw [place]
        rfl
    · intro rest' cut
      have left := rest_ne_nil_of_cutOf own
      have left' := rest_ne_nil_of_cutOf cut
      obtain ⟨before', pre', after', is', -, place', -⟩ := cut
      have same : byteLength (before.flatten ++ pre) = byteLength (before'.flatten ++ pre') := by
        rw [← place', place]
        rfl
      -- Cuts at one byte are cuts of one line, so they leave the same rest.
      obtain ⟨-, -, rfl⟩ := place_unique _ _ pre pre' (is.symm.trans is') left left' same
      exact text ▸ longest

theorem placed_empty (limit : Nat) :
    Placed Tokens.count limit [] (part Tokens.count 0 [] false) := by
  refine placed_of_whole rfl (Nat.zero_le _) rfl ?_ ?_
  · exact ⟨[], [], [], rfl, fun _ => rfl, rfl, rfl⟩
  · rintro rest ⟨before, pre, after, is, -⟩
    simp at is

/-- Of two whole parts the first could not have taken the first line of the second. -/
def Full (count : Counter) (limit : Nat) (p q : SplitPart) : Prop :=
  p.truncated = false → q.truncated = false →
    ∀ line ∈ (linesInclusive q.text.toList).head?, limit < count (p.text.toList ++ line)

theorem full_append {cuts parts : List SplitPart} (flagged : ∀ p ∈ cuts, p.truncated = true)
    (full : parts.IsChain (Full count limit)) : (cuts ++ parts).IsChain (Full count limit) := by
  induction cuts with
  | nil => exact full
  | cons p cuts ih =>
    obtain ⟨own, others⟩ := List.forall_mem_cons.1 flagged
    refine (ih others).cons ?_
    intro q _ whole
    rw [own] at whole
    cases whole

/-- The first part, where it is a whole one, begins with the first line, and that line fits. -/
theorem first_of_packed (growing : Growing count) {lines : List (List Char)} {start : Nat}
    {parts : List SplitPart} (lined : Lined lines) (packed : Packed count limit start lines parts)
    {q : SplitPart} (first : q ∈ parts.head?) (whole : q.truncated = false) {line : List Char}
    (is : line ∈ (linesInclusive q.text.toList).head?) :
    line ∈ lines.head? ∧ count line ≤ limit := by
  cases packed with
  | done => cases first
  | @block _ block rest parts some fits full more =>
    obtain rfl := Option.some.inj first
    have text : linesInclusive (part count start block.flatten false).text.toList = block := by
      rw [part, String.toList_ofList]
      exact (lined_append _ lined).1
    rw [text] at is
    cases block with
    | nil => exact absurd rfl some
    | cons own block =>
      obtain rfl := Option.some.inj is
      have := first_line_le growing own block
      exact ⟨rfl, by omega⟩
  | @long _ line rest cuts parts exceeds cutUp more =>
    have some := nonempty_of_lined lined line List.mem_cons_self
    cases cutUp with
    | done => exact absurd rfl some
    | cut =>
      obtain rfl := Option.some.inj first
      cases whole

theorem full_of_packed (growing : Growing count) {lines : List (List Char)} {start : Nat}
    {parts : List SplitPart} (lined : Lined lines) (packed : Packed count limit start lines parts) :
    parts.IsChain (Full count limit) := by
  induction packed with
  | done => exact .nil
  | @block start block rest parts some fits full more ih =>
    have after := (lined_append _ lined).2
    refine (ih after).cons ?_
    intro q first _ whole line is
    obtain ⟨next, small⟩ := first_of_packed growing after more first whole is
    rw [part, String.toList_ofList]
    exact full line next small
  | @long start line rest cuts parts exceeds cutUp more ih =>
    have after := (lined_append [line] lined).2
    exact full_append (truncated_of_cutUp cutUp) (ih after)

/-- The parts of a text keep to the budget, a budget of zero counting as one, and take as much as they
can: whole lines where lines fit, and else the longest beginnings of what is left of a line. -/
theorem byTokens_greedy (budget : Nat) (cs : List Char) :
    (∀ p ∈ byTokens Tokens.count budget cs,
      Placed Tokens.count (max budget 1) (linesInclusive cs) p) ∧
    (byTokens Tokens.count budget cs).IsChain (Full Tokens.count (max budget 1)) := by
  by_cases none : cs = []
  · subst none
    have empty : byTokens Tokens.count budget [] = [part Tokens.count 0 [] false] := by
      simp [byTokens, Tokens.count, Tokens.costFrom, Tokens.runCost, Tokens.pieceLength]
    rw [empty]
    constructor
    · intro p mem
      obtain rfl := List.mem_singleton.1 mem
      exact placed_empty _
    · exact .singleton _
  · have packed := packed_byTokens growing_tokens budget none
    have lined := lined_linesInclusive cs
    constructor
    · intro p mem
      have stands := stands_of_packed [] packed rfl p mem
      exact placed_of_stands growing_tokens (nonempty_of_lined lined) stands
    · exact full_of_packed growing_tokens lined packed

example : (byTokens Tokens.count 2 "a b\nc\nabcdefghijklmnopqrstu v\n".toList).map
      (fun p => (p.text, p.tokenCount, p.truncated)) =
    [("a b\n", 2, false), ("c\n", 1, false), ("abcdefghijklmnop", 2, true), ("qrstu v\n", 2, true)] := by
  decide +kernel

end SourceSlices.Split
