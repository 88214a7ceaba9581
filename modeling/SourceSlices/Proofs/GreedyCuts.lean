import Mathlib.Algebra.GroupWithZero.Nat
import Mathlib.Data.List.DropRight
import SourceSlices.Proofs.ByteRanges
import SourceSlices.Proofs.LosslessSplit

/-!
Cuts of a line that is too long. A counter that grows with the text makes the prefixes within the
budget an initial segment of all prefixes, which is what the search by halving needs: it then finds the
longest of them. That the shortest prefix fits is what starts it.
-/

/-!
### Runs of lines

A text determines its lines, so a run of them taken out of a text has the same lines when it is read as a
text of its own. A byte offset inside a text lies in one of its lines only.
-/
namespace SourceSlices.Text

/-- Lines that are read back from their text. -/
def Lined (lines : List (List Char)) : Prop := linesInclusive lines.flatten = lines

theorem lined_linesInclusive (cs : List Char) : Lined (linesInclusive cs) := by
  rw [Lined, flatten_linesInclusive]

theorem nonempty_of_lined {lines : List (List Char)} (lined : Lined lines) :
    ∀ line ∈ lines, line ≠ [] := by
  intro line mem
  rw [← lined] at mem
  exact linesInclusive_ne_nil mem

theorem lined_of_lines {cs : List Char} (before : List (List Char)) {after : List (List Char)}
    (lines : linesInclusive cs = before ++ after) : Lined before ∧ Lined after := by
  induction cs generalizing before with
  | nil =>
    obtain ⟨rfl, rfl⟩ := List.append_eq_nil_iff.1 lines.symm
    exact ⟨rfl, rfl⟩
  | cons c cs ih =>
    cases before with
    | nil =>
      rw [List.nil_append] at lines
      exact ⟨rfl, lines ▸ lined_linesInclusive (c :: cs)⟩
    | cons line before =>
      simp only [linesInclusive] at lines
      split at lines
      · rename_i feed
        obtain ⟨rfl, others⟩ := List.cons.inj lines
        have := ih before others
        simp_all [Lined, linesInclusive]
      · rename_i other
        split at lines
        · obtain ⟨rfl, none⟩ := List.cons.inj lines
          obtain ⟨rfl, rfl⟩ := List.append_eq_nil_iff.1 none.symm
          constructor
          · simp [Lined, linesInclusive, other]
          · rfl
        · rename_i first others split
          obtain ⟨rfl, rfl⟩ := List.cons.inj lines
          have := ih (first :: before) split
          simp_all [Lined, linesInclusive]

theorem lined_append (before : List (List Char)) {after : List (List Char)}
    (lined : Lined (before ++ after)) :
    Lined before ∧ Lined after :=
  lined_of_lines before lined

theorem eq_of_byteLength {a b x y : List Char} (same : a ++ x = b ++ y)
    (long : byteLength a = byteLength b) : a = b := by
  have rest : x = y := by
    rw [← dropBytes_append a x, same, long, dropBytes_append]
  rw [rest] at same
  exact List.append_cancel_right same

/-- A place inside a line, or at its start, belongs to no other line. -/
theorem place_unique (before before' : List (List Char)) (pre pre' : List Char)
    {after after' : List (List Char)} {rest rest' : List Char}
    (same : before ++ (pre ++ rest) :: after = before' ++ (pre' ++ rest') :: after')
    (some : rest ≠ []) (some' : rest' ≠ [])
    (place : byteLength (before.flatten ++ pre) = byteLength (before'.flatten ++ pre')) :
    before = before' ∧ pre = pre' ∧ rest = rest' := by
  have long := byteLength_pos some
  have long' := byteLength_pos some'
  -- Lines are skipped on both sides together: skipping on one side only would leave too many bytes before
  -- the place.
  induction before generalizing before' with
  | nil =>
    cases before' with
    | nil =>
      obtain ⟨line, -⟩ := List.cons.inj same
      obtain rfl := eq_of_byteLength line place
      exact ⟨rfl, rfl, List.append_cancel_left line⟩
    | cons first before' =>
      obtain ⟨rfl, -⟩ := List.cons.inj same
      simp only [List.flatten_cons, List.flatten_nil, List.nil_append, byteLength_append] at place
      omega
  | cons first before ih =>
    cases before' with
    | nil =>
      obtain ⟨rfl, -⟩ := List.cons.inj same
      simp only [List.flatten_cons, List.flatten_nil, List.nil_append, byteLength_append] at place
      omega
    | cons first' before' =>
      obtain ⟨rfl, others⟩ := List.cons.inj same
      have shorter : byteLength (before.flatten ++ pre) = byteLength (before'.flatten ++ pre') := by
        simp only [List.flatten_cons, byteLength_append] at place ⊢
        omega
      obtain ⟨rfl, found⟩ := ih before' others shorter
      exact ⟨rfl, found⟩

end SourceSlices.Text

/-! ### Longest prefixes -/

namespace SourceSlices

namespace Tokens

theorem runCost_le_succ (n : Nat) : runCost n ≤ runCost (n + 1) := by
  simp only [runCost, pieceLength]
  omega

theorem runCost_le_costFrom (n : Nat) (cs : List Char) : runCost n ≤ costFrom n cs := by
  induction cs generalizing n with
  | nil => exact Nat.le_refl _
  | cons c cs ih =>
    simp only [costFrom]
    split
    · have := ih (n + 1)
      have := runCost_le_succ n
      omega
    · omega

/-- A text costs at least what its beginning costs, also where the beginning ends inside a word. -/
theorem costFrom_le_append (n : Nat) (a b : List Char) : costFrom n a ≤ costFrom n (a ++ b) := by
  induction a generalizing n with
  | nil => exact runCost_le_costFrom n b
  | cons c a ih =>
    simp only [List.cons_append, costFrom]
    split
    · exact ih (n + 1)
    · have := ih 0
      omega

theorem count_singleton_le (c : Char) : count [c] ≤ 1 := by
  simp only [count, costFrom, runCost, pieceLength]
  split
  · omega
  · split <;> omega

end Tokens

namespace Split

open Text

/-- What greedy packing needs of a counter. -/
structure Growing (count : Counter) : Prop where
  grows : ∀ a b, count a ≤ count (a ++ b)
  single : ∀ c, count [c] ≤ 1

theorem growing_tokens : Growing Tokens.count where
  grows := Tokens.costFrom_le_append 0
  single := Tokens.count_singleton_le

variable {count : Counter} {limit : Nat}

theorem count_le_of_prefix (growing : Growing count) {a b : List Char} (beginning : a <+: b) :
    count a ≤ count b := by
  obtain ⟨more, rfl⟩ := beginning
  exact growing.grows a more

/-- The search between `lo` and `hi`: the best answer so far fits, everything below `lo` is no better,
and nothing above `hi` fits. -/
structure Narrowed (fits : Nat → Prop) (last lo hi best : Nat) : Prop where
  inside : best ≤ last
  top : hi ≤ last
  fitting : fits best
  below : lo ≤ best + 1
  above : ∀ i, hi < i → i ≤ last → ¬ fits i

theorem searchCut_greatest {line : List Char} {last lo hi best : Nat}
    (closed : ∀ i j, i ≤ j → count (line.take (j + 1)) ≤ limit → count (line.take (i + 1)) ≤ limit)
    (narrowed : Narrowed (fun i => count (line.take (i + 1)) ≤ limit) last lo hi best) :
    let found := searchCut count limit line lo hi best
    count (line.take (found + 1)) ≤ limit ∧
      ∀ i ≤ last, count (line.take (i + 1)) ≤ limit → i ≤ found := by
  -- The invariant: what is remembered fits, and all that lies behind the upper end does not.
  induction h : hi + 1 - lo using Nat.strongRecOn generalizing lo hi best with
  | ind n ih =>
    obtain ⟨inside, top, fitting, below, above⟩ := narrowed
    dsimp only
    rw [searchCut]
    split
    · dsimp only
      split
      · rename_i fits
        exact ih _ (by omega) ⟨by omega, top, fits, Nat.le_refl _, above⟩ rfl
      · rename_i exceeds
        have beyond : ∀ i, lo + (hi - lo) / 2 ≤ i → ¬ count (line.take (i + 1)) ≤ limit := by
          intro i le fits
          exact exceeds (closed _ i le fits)
        split
        · rename_i zero
          exact absurd fitting (beyond best (by omega))
        · refine ih _ (by omega) ⟨inside, by omega, fitting, below, ?_⟩ rfl
          intro i lt le
          exact beyond i (by omega)
    · constructor
      · exact fitting
      · intro i le fits
        by_contra far
        exact above i (by omega) le fits

/-- A beginning of a text that fits, no shorter than any other that does. -/
structure LongestFit (count : Counter) (limit : Nat) (piece rest : List Char) : Prop where
  beginning : piece <+: rest
  fits : count piece ≤ limit
  longest : ∀ longer, longer <+: rest → count longer ≤ limit → longer.length ≤ piece.length

theorem longestFit_cutLength {rest : List Char} (growing : Growing count) (positive : 0 < limit)
    (some : rest ≠ []) : LongestFit count limit (rest.take (cutLength count limit rest)) rest := by
  have long := List.length_pos_iff.2 some
  -- What is shorter than a piece that fits does fit, so the search by halves finds the longest one.
  have closed : ∀ i j, i ≤ j → count (rest.take (j + 1)) ≤ limit →
      count (rest.take (i + 1)) ≤ limit := by
    intro i j le fits
    have beginning : rest.take (i + 1) <+: rest.take (j + 1) :=
      List.take_prefix_take_left (Nat.succ_le_succ le)
    have := count_le_of_prefix growing beginning
    omega
  have first : count (rest.take (0 + 1)) ≤ limit := by
    cases rest with
    | nil => exact absurd rfl some
    | cons c rest =>
      have := growing.single c
      simp only [List.take_succ_cons, List.take_zero]
      omega
  obtain ⟨fits, best⟩ := searchCut_greatest closed
    ⟨Nat.zero_le (rest.length - 1), Nat.le_refl _, first, Nat.zero_le _, by omega⟩
  refine ⟨List.take_prefix _ _, fits, ?_⟩
  intro longer beginning fits'
  have cut := (cutLength_spec count limit some).2
  have short := beginning.length_le
  rw [List.length_take, Nat.min_eq_left cut]
  by_cases none : longer.length = 0
  · omega
  · have same : longer = rest.take (longer.length - 1 + 1) := by
      rw [Nat.sub_add_cancel (by omega)]
      exact List.prefix_iff_eq_take.1 beginning
    have := best (longer.length - 1) (by omega) (same ▸ fits')
    simp only [cutLength]
    omega

/-- Consecutive cuts of what is left of a line, each as long as the limit allows. -/
inductive CutUp (count : Counter) (limit : Nat) : Nat → List Char → List SplitPart → Prop
  | done (start : Nat) : CutUp count limit start [] []
  | cut {start : Nat} {piece rest : List Char} {parts : List SplitPart} (some : piece ≠ [])
      (longest : LongestFit count limit piece (piece ++ rest))
      (more : CutUp count limit (start + byteLength piece) rest parts) :
      CutUp count limit start (piece ++ rest) (part count start piece true :: parts)

theorem cutUp_cutLine (growing : Growing count) (positive : 0 < limit) (start : Nat)
    (line : List Char) : CutUp count limit start line (cutLine count limit start line) := by
  induction h : line.length using Nat.strongRecOn generalizing start line with
  | ind n ih =>
    rw [cutLine]
    split
    · rename_i none
      rw [none]
      exact .done start
    · rename_i some
      have long := List.length_pos_iff.2 some
      have positive' := (cutLength_spec count limit some).1
      have longest := longestFit_cutLength growing positive some
      have shorter : (line.drop (cutLength count limit line)).length < n := by
        rw [List.length_drop, ← h]
        omega
      have more := ih _ shorter (start + byteLength (line.take (cutLength count limit line))) _ rfl
      have taken : line.take (cutLength count limit line) ≠ [] := by
        rw [Ne, List.take_eq_nil_iff]
        rintro (none | none)
        · omega
        · exact some none
      have whole := List.take_append_drop (cutLength count limit line) line
      have cut := CutUp.cut taken (by rwa [whole]) more
      rwa [whole] at cut

theorem truncated_of_cutUp {start : Nat} {line : List Char} {cuts : List SplitPart}
    (cutUp : CutUp count limit start line cuts) : ∀ p ∈ cuts, p.truncated = true := by
  induction cutUp with
  | done => simp
  | cut some longest more ih =>
    intro p mem
    rcases List.mem_cons.1 mem with rfl | mem
    · rfl
    · exact ih p mem

end Split

end SourceSlices

/-!
### Tokens of joined texts

Only a run of word characters that goes across the seam of two texts can cost less than its two halves, and
then by one token; so a text is never cheaper than its beginning.
-/
namespace SourceSlices.Tokens

/-! ### Pieces and their number -/

theorem length_pieces {fuel : Nat} {run : List Char} (enough : run.length ≤ fuel) :
    (pieces fuel run).length = runCost run.length := by
  induction fuel generalizing run with
  | zero =>
    obtain rfl := List.length_eq_zero_iff.1 (Nat.le_zero.1 enough)
    rfl
  | succ fuel ih =>
    rw [pieces]
    split
    · rename_i none
      rw [List.isEmpty_iff.1 none]
      rfl
    · rename_i some
      have long : 0 < run.length := List.length_pos_iff.2 (mt List.isEmpty_iff.2 some)
      have less : (run.drop pieceLength).length ≤ fuel := by
        rw [List.length_drop, pieceLength]
        omega
      rw [List.length_cons, ih less, List.length_drop]
      simp only [runCost, pieceLength]
      omega

theorem length_piecesFrom (run cs : List Char) :
    (piecesFrom run cs).length = costFrom run.length cs := by
  have closed (run : List Char) : (runPieces run.reverse).length = runCost run.length := by
    rw [runPieces, length_pieces (Nat.le_refl _), List.length_reverse]
  induction cs generalizing run with
  | nil => exact closed run
  | cons c cs ih =>
    simp only [piecesFrom, costFrom]
    split
    · exact ih (c :: run)
    · have rest : (piecesFrom [] cs).length = costFrom 0 cs := ih []
      rw [List.length_append, closed]
      split
      · rw [rest, Nat.zero_add]
      · rw [List.length_cons, rest, Nat.add_comm 1]

theorem length_ids (cs : List Char) : (ids cs).length = count cs := by
  rw [ids, List.length_map, piecesOf, length_piecesFrom, count, List.length_nil]

/-! ### Runs of word characters -/

/-- The longest runs of word characters of a text, in order. -/
def wordRuns (cs : List Char) : List (List Char) :=
  (cs.splitOnP fun c => !isWordChar c).filter (· ≠ [])

/-- Characters that cost a token of their own. -/
def isSign (c : Char) : Bool := !isWordChar c && !Text.isBlank c

/-- Cost of all runs, empty ones included: these cost nothing. -/
def runsCost (runs : List (List Char)) : Nat := (runs.map fun run => runCost run.length).sum

theorem runsCost_cons (run : List Char) (runs : List (List Char)) :
    runsCost (run :: runs) = runCost run.length + runsCost runs := rfl

theorem runsCost_filter (runs : List (List Char)) :
    runsCost (runs.filter (· ≠ [])) = runsCost runs := by
  induction runs with
  | nil => rfl
  | cons run runs ih =>
    by_cases none : run = []
    · have free : runCost run.length = 0 := by
        rw [none]
        rfl
      rw [List.filter_cons_of_neg (by simpa using none), runsCost_cons, free, Nat.zero_add, ih]
    · rw [List.filter_cons_of_pos (by simpa using none), runsCost_cons, runsCost_cons, ih]

/-- The open run belongs to the first of the runs between the other characters. -/
theorem costFrom_runs (n : Nat) (cs : List Char) :
    ∃ first rest, (cs.splitOnP fun c => !isWordChar c) = first :: rest ∧
      costFrom n cs = runCost (n + first.length) + runsCost rest + cs.countP isSign := by
  induction cs generalizing n with
  | nil => exact ⟨[], [], rfl, rfl⟩
  | cons c cs ih =>
    rw [List.splitOnP_cons_eq_if_modifyHead, costFrom]
    by_cases word : isWordChar c = true
    · obtain ⟨first, rest, split, cost⟩ := ih (n + 1)
      refine ⟨c :: first, rest, by simp [word, split], ?_⟩
      have plain : ¬ isSign c = true := by simp [isSign, word]
      rw [if_pos word, cost, List.countP_cons_of_neg plain, List.length_cons, Nat.add_right_comm n,
        Nat.add_assoc n]
    · obtain ⟨first, rest, split, cost⟩ := ih 0
      refine ⟨[], first :: rest, by simp [word, split], ?_⟩
      rw [if_neg word, cost, runsCost_cons, List.length_nil, Nat.add_zero, Nat.zero_add]
      by_cases blank : Text.isBlank c = true
      · have free : ¬ isSign c = true := by simp [isSign, blank]
        rw [if_pos blank, List.countP_cons_of_neg free]
        omega
      · have sign : isSign c = true := by simp [isSign, word, blank]
        rw [if_neg blank, List.countP_cons_of_pos sign]
        omega

theorem count_runs (cs : List Char) :
    count cs = runsCost (wordRuns cs) + cs.countP isSign := by
  obtain ⟨first, rest, split, cost⟩ := costFrom_runs 0 cs
  rw [count, cost, wordRuns, runsCost_filter, split, runsCost_cons, Nat.zero_add]

/-! ### The seam -/

/-- Length of the run that is open at the end of a text, one of `n` characters being open before it. -/
def openRun (n : Nat) (cs : List Char) : Nat :=
  cs.foldl (fun n c => if isWordChar c then n + 1 else 0) n

theorem openRun_zero (cs : List Char) : openRun 0 cs = (cs.rtakeWhile isWordChar).length := by
  induction cs using List.reverseRecOn with
  | nil => rfl
  | append_singleton cs c ih =>
    rw [openRun, List.foldl_append, List.foldl_cons, List.foldl_nil, ← openRun, ih,
      List.rtakeWhile_concat]
    split
    · rw [List.length_append, List.length_singleton]
    · rfl

/-- The second text goes on where the first one has stopped. -/
theorem costFrom_append (n : Nat) (a b : List Char) :
    costFrom n (a ++ b) + runCost (openRun n a) = costFrom n a + costFrom (openRun n a) b := by
  induction a generalizing n with
  | nil => exact Nat.add_comm _ _
  | cons c a ih =>
    rw [List.cons_append, costFrom, costFrom, openRun, List.foldl_cons, ← openRun]
    split
    · exact ih (n + 1)
    · have rest := ih 0
      omega

/-- An open run only changes the cost of the run that it is continued by. -/
theorem costFrom_leading (n : Nat) (cs : List Char) :
    costFrom n cs + runCost (cs.takeWhile isWordChar).length =
      runCost (n + (cs.takeWhile isWordChar).length) + costFrom 0 cs := by
  induction cs generalizing n with
  | nil => rfl
  | cons c cs ih =>
    by_cases word : isWordChar c = true
    · have here := ih (n + 1)
      have alone := ih 1
      rw [costFrom, costFrom, if_pos word, if_pos word, List.takeWhile_cons_of_pos word, List.length_cons]
      rw [Nat.add_right_comm] at here
      rw [Nat.add_comm 1] at alone
      rw [Nat.zero_add, ← Nat.add_assoc]
      omega
    · have none : runCost 0 = 0 := rfl
      rw [costFrom, costFrom, if_neg word, if_neg word, List.takeWhile_cons_of_neg word, List.length_nil,
        Nat.add_zero, none]
      omega

/-- What the two halves of the run at the seam cost is replaced by what the run costs. -/
theorem count_append (a b : List Char) :
    count (a ++ b) + (runCost (a.rtakeWhile isWordChar).length +
        runCost (b.takeWhile isWordChar).length) =
      count a + count b +
        runCost ((a.rtakeWhile isWordChar).length + (b.takeWhile isWordChar).length) := by
  have joined := costFrom_append 0 a b
  have second := costFrom_leading (openRun 0 a) b
  rw [openRun_zero] at joined second
  simp only [count]
  omega

/-- Runs in two halves: at most one token is saved, and none if the first half fills its pieces. -/
theorem runCost_add (m n : Nat) :
    runCost m + runCost n ≤ runCost (m + n) + 1 ∧ runCost (m + n) ≤ runCost m + runCost n ∧
      (8 ∣ m → runCost (m + n) = runCost m + runCost n) := by
  simp only [runCost, pieceLength]
  omega

/-- A seam that cuts no run, or cuts it between two pieces. -/
def CleanSeam (a b : List Char) : Prop :=
  a = [] ∨ b = [] ∨ (∃ c ∈ a.getLast?, isWordChar c = false) ∨ (∃ c ∈ b.head?, isWordChar c = false) ∨
    8 ∣ (a.rtakeWhile isWordChar).length

theorem halves_of_clean {a b : List Char} (clean : CleanSeam a b) :
    8 ∣ (a.rtakeWhile isWordChar).length ∨ (b.takeWhile isWordChar).length = 0 := by
  rcases clean with rfl | rfl | ⟨c, last, other⟩ | ⟨c, first, other⟩ | full
  · exact Or.inl (Nat.dvd_zero 8)
  · exact Or.inr rfl
  · obtain ⟨before, rfl⟩ := List.getLast?_eq_some_iff.1 last
    rw [List.rtakeWhile_concat_neg _ _ _ (Bool.eq_false_iff.1 other)]
    exact Or.inl (Nat.dvd_zero 8)
  · obtain ⟨rest, rfl⟩ := List.head?_eq_some_iff.1 first
    rw [List.takeWhile_cons_of_neg (Bool.eq_false_iff.1 other)]
    exact Or.inr rfl
  · exact Or.inl full

theorem count_clean {a b : List Char} (clean : CleanSeam a b) :
    count (a ++ b) = count a + count b := by
  have whole := count_append a b
  rcases halves_of_clean clean with full | none
  · rw [(runCost_add _ (b.takeWhile isWordChar).length).2.2 full] at whole
    omega
  · have free : runCost 0 = 0 := rfl
    rw [none, Nat.add_zero, free] at whole
    omega

/-- A text costs one token for each id: those of its runs of word characters, eight characters to a token
and the last one perhaps not full, and one for each other character that is not blank. Two texts cost
together what they cost apart, or one less, and the same if the seam between them is clean; a beginning
of a text costs no more than the text. -/
theorem count_laws (a b : List Char) :
    (ids a).length = count a ∧
      count a = ((wordRuns a).map fun run => (run.length + 7) / 8).sum +
        a.countP (fun c => !isWordChar c && !Text.isBlank c) ∧
      (count a + count b - 1 ≤ count (a ++ b) ∧ count (a ++ b) ≤ count a + count b) ∧
      (CleanSeam a b → count (a ++ b) = count a + count b) ∧
      (a <+: b → count a ≤ count b) := by
  have whole := count_append a b
  obtain ⟨least, most, -⟩ := runCost_add (a.rtakeWhile isWordChar).length (b.takeWhile isWordChar).length
  refine ⟨length_ids a, count_runs a, ⟨by omega, by omega⟩, count_clean, ?_⟩
  rintro ⟨rest, rfl⟩
  exact costFrom_le_append 0 a rest

/-- A run of eight word characters that is continued after the seam. -/
theorem full_piece_counts : CleanSeam "x = abcd_efg".toList "hij()".toList ∧
    count "x = abcd_efghij()".toList = count "x = abcd_efg".toList + count "hij()".toList ∧
    "x = abcd_efg".toList <+: "x = abcd_efghij()".toList ∧
    count "x = abcd_efg".toList ≤ count "x = abcd_efghij()".toList := by
  have clean : CleanSeam "x = abcd_efg".toList "hij()".toList := by
    refine Or.inr (Or.inr (Or.inr (Or.inr ?_)))
    decide
  have beginning : "x = abcd_efg".toList <+: "x = abcd_efghij()".toList := by decide
  obtain ⟨-, -, -, joined, -⟩ := count_laws "x = abcd_efg".toList "hij()".toList
  obtain ⟨-, -, -, -, grows⟩ := count_laws "x = abcd_efg".toList "x = abcd_efghij()".toList
  exact ⟨clean, joined clean, beginning, grows beginning⟩

end SourceSlices.Tokens
