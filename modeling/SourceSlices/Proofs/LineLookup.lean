import Mathlib.Data.List.Basic
import SourceSlices.Proofs.ExactParts
import SourceSlices.Proofs.ManifestText

/-!
Lines of byte offsets. The line feeds of a text are its newline bytes, in ascending order, so that the line
of an offset tells how many of them come before it. Ranges that are cut where lines begin take up lines that
follow each other.
-/
namespace SourceSlices

namespace Text

/-! ### Newline bytes -/

def newline : UInt8 := 10

/-- The bytes of a list of characters. -/
def bytesOf (cs : List Char) : List UInt8 := encodeUtf8 (String.ofList cs)

theorem bytesOf_nil : bytesOf [] = [] := by
  simp only [bytesOf, encodeUtf8_eq, String.toList_ofList, List.flatMap_nil]

theorem bytesOf_cons (c : Char) (cs : List Char) :
    bytesOf (c :: cs) = String.utf8EncodeChar c ++ bytesOf cs := by
  simp only [bytesOf, encodeUtf8_eq, String.toList_ofList, List.flatMap_cons]

theorem newline_ne {n : Nat} (small : n < 256) (other : n ≠ 10) : newline ≠ UInt8.ofNat n := by
  intro same
  have value := congrArg UInt8.toNat same
  rw [toNat_byte small] at value
  exact other value.symm

/-- No byte of another character looks like a newline. -/
theorem newline_notMem {c : Char} (other : c ≠ '\n') : newline ∉ String.utf8EncodeChar c := by
  have value : c.val.toNat ≠ 10 := by
    intro same
    exact other (Char.ext (UInt32.toNat_inj.1 same))
  unfold String.utf8EncodeChar
  generalize c.val.toNat = v at value
  dsimp only
  split_ifs with one two three
  all_goals
    simp only [List.mem_cons, List.not_mem_nil, or_false, not_or]
  · exact newline_ne (by omega) value
  · exact ⟨newline_ne (by omega) (by omega), newline_ne (by omega) (by omega)⟩
  · exact ⟨newline_ne (by omega) (by omega), newline_ne (by omega) (by omega),
      newline_ne (by omega) (by omega)⟩
  · exact ⟨newline_ne (by omega) (by omega), newline_ne (by omega) (by omega),
      newline_ne (by omega) (by omega), newline_ne (by omega) (by omega)⟩

end Text

namespace LineIndex

open Text

/-! ### Lines of offsets -/

/-- The line feeds are the newline bytes. -/
theorem feedsFrom_eq (start : Nat) (cs : List Char) :
    feedsFrom start cs = (bytesOf cs).findIdxs (· == newline) start := by
  induction cs generalizing start with
  | nil => rw [bytesOf_nil, feedsFrom, List.findIdxs_nil]
  | cons c cs ih =>
    rw [bytesOf_cons, List.findIdxs_append, String.length_utf8EncodeChar, feedsFrom, ih]
    split
    · rename_i feed
      subst feed
      rfl
    · rename_i other
      have none : (String.utf8EncodeChar c).findIdxs (· == newline) start = [] := by
        refine List.findIdxs_eq_nil_iff.2 fun b mem => beq_eq_false_iff_ne.2 ?_
        rintro rfl
        exact newline_notMem other mem
      rw [none, List.nil_append]

/-- The line of an offset is where the line feeds before it end and the others begin. -/
structure Parted (i : LineIndex) (offset : Nat) (before behind : List Nat) : Prop where
  whole : i.feeds.toList = before ++ behind
  below : ∀ feed ∈ before, feed < offset
  above : ∀ feed ∈ behind, offset ≤ feed
  line : i.line offset = before.length + 1

theorem foldl_countP (offset k : Nat) (feeds : List Nat) :
    feeds.foldl (fun n feed => if feed < offset then n + 1 else n) k =
      k + feeds.countP (· < offset) := by
  induction feeds generalizing k with
  | nil => rfl
  | cons feed feeds ih =>
    rw [List.foldl_cons, ih, List.countP_cons]
    split
    · rename_i below
      simp only [below, decide_true, ↓reduceIte]
      omega
    · rename_i above
      simp only [above, decide_false, Bool.false_eq_true, ↓reduceIte, Nat.add_zero]

theorem parted_of_whole {i : LineIndex} {offset : Nat} {before behind : List Nat}
    (whole : i.feeds.toList = before ++ behind) (below : ∀ feed ∈ before, feed < offset)
    (above : ∀ feed ∈ behind, offset ≤ feed) : Parted i offset before behind := by
  have all : before.countP (· < offset) = before.length :=
    List.countP_eq_length.2 fun feed mem => decide_eq_true (below feed mem)
  have none : behind.countP (· < offset) = 0 :=
    List.countP_eq_zero.2 fun feed mem => by simpa using above feed mem
  refine ⟨whole, below, above, ?_⟩
  rw [LineIndex.line, ← Array.foldl_toList, whole, foldl_countP, List.countP_append, all, none,
    Nat.zero_add, Nat.add_zero]

/-- An offset parts the newline bytes of a text into those before it and those behind. -/
theorem parted_ofText (cs : List Char) (offset : Nat) : ∃ before behind,
    Parted (ofText cs) offset before behind ∧
      before.length = ((bytesOf cs).take offset).count newline := by
  refine ⟨((bytesOf cs).take offset).findIdxs (· == newline),
    ((bytesOf cs).drop offset).findIdxs (· == newline) ((bytesOf cs).take offset).length,
    parted_of_whole ?_ ?_ ?_, ?_⟩
  · rw [ofText, List.toList_toArray, feedsFrom_eq, ← Nat.zero_add ((bytesOf cs).take offset).length,
      ← List.findIdxs_append, List.take_append_drop]
  · intro feed mem
    have inside := List.lt_add_of_mem_findIdxs feed mem
    rw [List.length_take] at inside
    omega
  · intro feed mem
    obtain ⟨from_, bound, -⟩ := List.mem_findIdxs_iff_getElem_sub_pos.1 mem
    rw [List.length_take] at from_
    rw [List.length_take, List.length_drop] at bound
    omega
  · rw [List.length_findIdxs, List.count]

theorem line_bytes (cs : List Char) (offset : Nat) :
    (ofText cs).line offset = ((bytesOf cs).take offset).count newline + 1 := by
  obtain ⟨before, behind, parted, length⟩ := parted_ofText cs offset
  rw [parted.line, length]

/-! ### Lines of ranges -/

/-- A line begins with the text, and behind every newline byte. -/
def BeginsLine (bytes : List UInt8) (offset : Nat) : Prop :=
  offset = 0 ∨ bytes[offset - 1]? = some newline

theorem line_next {cs : List Char} {offset : Nat} (begins : BeginsLine (bytesOf cs) offset)
    (later : 0 < offset) : (ofText cs).line offset = (ofText cs).line (offset - 1) + 1 := by
  rcases begins with start | feed
  · omega
  · obtain ⟨last, rfl⟩ := Nat.exists_eq_succ_of_ne_zero (Nat.ne_of_gt later)
    rw [Nat.succ_sub_one] at feed ⊢
    rw [line_bytes, line_bytes, List.take_add_one, feed, List.count_append]
    rfl

theorem span_le (cs : List Char) (start stop : Nat) :
    ((ofText cs).span start stop).1 ≤ ((ofText cs).span start stop).2 := by
  refine line_mono cs ?_
  split <;> omega

/-- The ranges from each cut to the next one, and from the last cut to the end. -/
def between : List Nat → Nat → List (Nat × Nat)
  | [], _ => []
  | [cut], stop => [(cut, stop)]
  | cut :: next :: cuts, stop => (cut, next) :: between (next :: cuts) stop

def spans (i : LineIndex) (ranges : List (Nat × Nat)) : List (Nat × Nat) :=
  ranges.map fun r => i.span r.1 r.2

theorem between_cons (cut : Nat) (cuts : List Nat) (stop : Nat) :
    ∃ last rest, between (cut :: cuts) stop = (cut, last) :: rest := by
  cases cuts with
  | nil => exact ⟨stop, [], rfl⟩
  | cons next cuts => exact ⟨next, between (next :: cuts) stop, rfl⟩

/-- A range that ends where a line begins ends on the line before it. -/
theorem spans_consecutive {cs : List Char} {cuts : List Nat} (stop : Nat)
    (sorted : cuts.Pairwise (· < ·)) (begins : ∀ cut ∈ cuts.tail, BeginsLine (bytesOf cs) cut) :
    ((ofText cs).spans (between cuts stop)).IsChain fun a b => b.1 = a.2 + 1 := by
  induction cuts with
  | nil => exact .nil
  | cons cut cuts ih =>
    cases cuts with
    | nil => exact .singleton _
    | cons next cuts =>
      obtain ⟨first, sorted⟩ := List.pairwise_cons.1 sorted
      obtain ⟨here, begins⟩ := List.forall_mem_cons.1 begins
      have rest := ih sorted begins
      have less : cut < next := first next List.mem_cons_self
      obtain ⟨last, more, ranges⟩ := between_cons next cuts stop
      rw [between, ranges, spans, List.map_cons, List.map_cons]
      rw [ranges, spans, List.map_cons] at rest
      refine List.isChain_cons_cons.2 ⟨?_, rest⟩
      rw [span_of_lt _ less]
      exact line_next here (by omega)

/-- Intervals that each begin right behind the one before do not overlap. -/
theorem apart_of_consecutive {intervals : List (Nat × Nat)} (ordered : ∀ a ∈ intervals, a.1 ≤ a.2)
    (chain : intervals.IsChain fun a b => b.1 = a.2 + 1) :
    intervals.Pairwise fun a b => a.2 < b.1 := by
  induction intervals with
  | nil => exact .nil
  | cons a intervals ih =>
    cases intervals with
    | nil => exact List.pairwise_singleton _ a
    | cons b intervals =>
      obtain ⟨next, chain⟩ := List.isChain_cons_cons.1 chain
      obtain ⟨-, ordered⟩ := List.forall_mem_cons.1 ordered
      have rest := ih ordered chain
      refine List.pairwise_cons.2 ⟨?_, rest⟩
      intro c mem
      rcases List.mem_cons.1 mem with rfl | mem
      · omega
      · have own := ordered b List.mem_cons_self
        have behind := (List.pairwise_cons.1 rest).1 c mem
        omega

/-- The line of an offset, wherever it lies, is one more than the newline bytes before it: it is where
these end in the ascending list of all of them, and so never smaller for a later offset. A range has the
line of its start and that of its last byte, or twice that of its start if it is empty. Ranges between
cuts where lines begin have lines that follow each other and do not overlap. -/
theorem line_lookup (cs : List Char) :
    ((ofText cs).feeds.toList = (bytesOf cs).findIdxs (· == newline) ∧
      ∀ offset, (ofText cs).line offset = 1 + ((bytesOf cs).take offset).count newline ∧
        ∃ before behind, Parted (ofText cs) offset before behind) ∧
      (∀ m n, m ≤ n → (ofText cs).line m ≤ (ofText cs).line n) ∧
      (∀ start stop, start ≤ stop →
        ((ofText cs).span start stop).1 ≤ ((ofText cs).span start stop).2 ∧
        ((ofText cs).span start stop).1 = (ofText cs).line start ∧
        ((ofText cs).span start stop).2 =
          (ofText cs).line (if start = stop then start else stop - 1)) ∧
      ∀ cuts stop, cuts.Pairwise (· < ·) → (∀ cut ∈ cuts.tail, BeginsLine (bytesOf cs) cut) →
        ((ofText cs).spans (between cuts stop)).IsChain (fun a b => b.1 = a.2 + 1) ∧
        ((ofText cs).spans (between cuts stop)).Pairwise fun a b => a.2 < b.1 := by
  refine ⟨⟨?_, fun offset => ⟨?_, ?_⟩⟩, fun m n le => line_mono cs le, ?_, ?_⟩
  · rw [ofText, List.toList_toArray, feedsFrom_eq]
  · rw [line_bytes, Nat.add_comm]
  · obtain ⟨before, behind, parted, -⟩ := parted_ofText cs offset
    exact ⟨before, behind, parted⟩
  · intro start stop le
    refine ⟨span_le cs start stop, rfl, ?_⟩
    rcases Nat.eq_or_lt_of_le le with rfl | less
    · rw [span, if_neg (Nat.lt_irrefl _), if_pos rfl]
    · rw [span_of_lt _ less, if_neg (Nat.ne_of_lt less)]
  · intro cuts stop sorted begins
    have chain := spans_consecutive stop sorted begins
    refine ⟨chain, apart_of_consecutive ?_ chain⟩
    intro a mem
    obtain ⟨r, -, rfl⟩ := List.mem_map.1 mem
    exact span_le cs r.1 r.2

/-- The first letter takes two bytes, the second range has two lines, and the last offset lies behind the
end of the text. -/
theorem accented_lookup : ∃ i, i = ofText "é\nbc\n\nd".toList ∧
    (i.line 2 = 1 ∧ i.line 3 = 2 ∧ i.line 9 = 4 ∧ i.line 2 ≤ i.line 9) ∧
    (i.span 3 7 = (2, 3) ∧ (i.span 3 7).1 ≤ (i.span 3 7).2) ∧
    (∀ cut ∈ [3, 7], BeginsLine (bytesOf "é\nbc\n\nd".toList) cut) ∧
    i.spans (between [0, 3, 7] 8) = [(1, 1), (2, 3), (4, 4)] ∧
    (i.spans (between [0, 3, 7] 8)).IsChain (fun a b => b.1 = a.2 + 1) ∧
    (i.spans (between [0, 3, 7] 8)).Pairwise fun a b => a.2 < b.1 := by
  have begins : ∀ cut ∈ [3, 7], BeginsLine (bytesOf "é\nbc\n\nd".toList) cut := by
    simp only [BeginsLine, bytesOf, encodeUtf8_eq]
    decide
  obtain ⟨-, ascending, spans, ranges⟩ := line_lookup "é\nbc\n\nd".toList
  exact ⟨_, rfl, ⟨by decide, by decide, by decide, ascending 2 9 (by decide)⟩,
    ⟨by decide, (spans 3 7 (by decide)).1⟩, begins, by decide, ranges [0, 3, 7] 8 (by decide) begins⟩

end LineIndex

end SourceSlices
