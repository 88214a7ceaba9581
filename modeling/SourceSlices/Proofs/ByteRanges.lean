import SourceSlices.Data.Extent
import SourceSlices.Text.Lines

/-!
Pieces of a text and their byte ranges. Pieces that join to a text have ranges that follow each other
without gap, and the text between the ends of a range is the piece.
-/
namespace SourceSlices.Text

theorem byteLength_append (a b : List Char) : byteLength (a ++ b) = byteLength a + byteLength b := by
  induction a with
  | nil => simp [byteLength]
  | cons c a ih =>
    simp only [byteLength, List.cons_append, List.foldr_cons] at ih ⊢
    omega

theorem byteLength_cons (c : Char) (cs : List Char) :
    byteLength (c :: cs) = c.utf8Size + byteLength cs :=
  rfl

theorem byteLength_pos {cs : List Char} (some : cs ≠ []) : 0 < byteLength cs := by
  cases cs with
  | nil => exact absurd rfl some
  | cons c cs =>
    have := c.utf8Size_pos
    rw [byteLength_cons]
    omega

theorem dropBytes_append (pre rest : List Char) : dropBytes (byteLength pre) (pre ++ rest) = rest := by
  induction pre with
  | nil => simp [byteLength, dropBytes]
  | cons c pre ih =>
    obtain ⟨n, size⟩ := Nat.exists_eq_succ_of_ne_zero (Nat.ne_of_gt c.utf8Size_pos)
    have here : byteLength (c :: pre) = n + byteLength pre + 1 := by
      rw [byteLength_cons]
      omega
    rw [here, List.cons_append, dropBytes]
    have after : n + byteLength pre + 1 - c.utf8Size = byteLength pre := by omega
    rw [after, ih]

theorem takeBytes_append (piece rest : List Char) :
    takeBytes (byteLength piece) (piece ++ rest) = piece := by
  induction piece with
  | nil => simp [byteLength, takeBytes]
  | cons c piece ih =>
    obtain ⟨n, size⟩ := Nat.exists_eq_succ_of_ne_zero (Nat.ne_of_gt c.utf8Size_pos)
    have here : byteLength (c :: piece) = n + byteLength piece + 1 := by
      rw [byteLength_cons]
      omega
    rw [here, List.cons_append, takeBytes]
    have after : n + byteLength piece + 1 - c.utf8Size = byteLength piece := by omega
    rw [after, ih]

theorem slice_piece (pre piece post : List Char) :
    slice (pre ++ (piece ++ post)) (byteLength pre) (byteLength pre + byteLength piece) = piece := by
  rw [slice, dropBytes_append, Nat.add_sub_cancel_left, takeBytes_append]

theorem flatten_linesInclusive (cs : List Char) : (linesInclusive cs).flatten = cs := by
  induction cs with
  | nil => rfl
  | cons c cs ih =>
    simp only [linesInclusive]
    split
    · simp [ih]
    · split
      · rename_i none
        simpa [none] using ih
      · rename_i some
        simpa [some] using ih

theorem linesInclusive_ne_nil {cs line : List Char} (mem : line ∈ linesInclusive cs) : line ≠ [] := by
  induction cs generalizing line with
  | nil => cases mem
  | cons c cs ih =>
    simp only [linesInclusive] at mem
    split at mem
    · rcases List.mem_cons.1 mem with rfl | mem
      · exact List.cons_ne_nil _ _
      · exact ih mem
    · split at mem
      · rw [List.mem_singleton.1 mem]
        exact List.cons_ne_nil _ _
      · rename_i first rest split
        rcases List.mem_cons.1 mem with rfl | mem
        · exact List.cons_ne_nil _ _
        · exact ih (split ▸ List.mem_cons_of_mem _ mem)

/-- The byte ranges of pieces that follow each other from an offset on. -/
def ranges (start : Nat) : List (List Char) → List (Nat × Nat)
  | [] => []
  | piece :: rest => (start, start + byteLength piece) :: ranges (start + byteLength piece) rest

theorem ranges_append (start : Nat) (a b : List (List Char)) :
    ranges start (a ++ b) = ranges start a ++ ranges (start + byteLength a.flatten) b := by
  induction a generalizing start with
  | nil => simp [ranges, byteLength]
  | cons piece a ih =>
    simp only [List.cons_append, ranges, ih, List.flatten_cons, byteLength_append, Nat.add_assoc]

theorem ranges_add (start shift : Nat) (pieces : List (List Char)) :
    ranges (shift + start) pieces = (ranges start pieces).map fun b => (shift + b.1, shift + b.2) := by
  induction pieces generalizing start with
  | nil => rfl
  | cons piece rest ih => simp only [ranges, List.map_cons, Nat.add_assoc, ih]

theorem ranges_le {start : Nat} {pieces : List (List Char)} {b : Nat × Nat}
    (mem : b ∈ ranges start pieces) :
    start ≤ b.1 ∧ b.1 ≤ b.2 ∧ b.2 ≤ start + byteLength pieces.flatten := by
  induction pieces generalizing start with
  | nil => cases mem
  | cons piece rest ih =>
    rw [List.flatten_cons, byteLength_append]
    rcases List.mem_cons.1 mem with rfl | mem
    · simp only
      omega
    · have := ih mem
      omega

/-- The first of the ranges begins first. -/
theorem least?_ranges (start : Nat) {pieces : List (List Char)} (some : pieces ≠ []) :
    least? ((ranges start pieces).map fun b => (b.1 : Int)) = .some (start : Int) := by
  cases pieces with
  | nil => exact absurd rfl some
  | cons piece rest =>
    simp only [ranges, List.map_cons, least?]
    have above : ∀ n ∈ (ranges (start + byteLength piece) rest).map (fun b => (b.1 : Int)),
        (start : Int) ≤ n := by
      intro n mem
      obtain ⟨b, there, rfl⟩ := List.mem_map.1 mem
      have := ranges_le there
      omega
    generalize (ranges (start + byteLength piece) rest).map (fun b => (b.1 : Int)) = others at above
    induction others with
    | nil => rfl
    | cons n others ih =>
      obtain ⟨own, above⟩ := List.forall_mem_cons.1 above
      rw [List.foldl_cons, if_neg (Int.not_lt.2 own)]
      exact ih above

theorem foldl_ends (start : Nat) (pieces : List (List Char)) :
    ((ranges start pieces).map fun b => (b.2 : Int)).foldl (fun a b => if a < b then b else a)
      (start : Int) = ((start + byteLength pieces.flatten : Nat) : Int) := by
  induction pieces generalizing start with
  | nil => simp [ranges, byteLength]
  | cons piece rest ih =>
    have step : (if (start : Int) < ((start + byteLength piece : Nat) : Int) then
        ((start + byteLength piece : Nat) : Int) else start) =
          ((start + byteLength piece : Nat) : Int) := by
      split
      · rfl
      · omega
    rw [ranges, List.map_cons, List.foldl_cons, step, ih, List.flatten_cons, byteLength_append,
      Nat.add_assoc]

theorem greatest?_ranges (start : Nat) {pieces : List (List Char)} (some : pieces ≠ []) :
    greatest? ((ranges start pieces).map fun b => (b.2 : Int)) =
      .some ((start + byteLength pieces.flatten : Nat) : Int) := by
  cases pieces with
  | nil => exact absurd rfl some
  | cons piece rest =>
    rw [ranges, List.map_cons, greatest?, foldl_ends, List.flatten_cons, byteLength_append,
      Nat.add_assoc]

/-- Ranges that follow each other from a start to an end, none of them empty. -/
def Tiles (start stop : Nat) : List (Nat × Nat) → Prop
  | [] => start = stop
  | b :: rest => b.1 = start ∧ start < b.2 ∧ Tiles b.2 stop rest

theorem tiles_ranges (start : Nat) {pieces : List (List Char)} (some : ∀ p ∈ pieces, p ≠ []) :
    Tiles start (start + byteLength pieces.flatten) (ranges start pieces) := by
  induction pieces generalizing start with
  | nil => simp [Tiles, ranges, byteLength]
  | cons piece rest ih =>
    obtain ⟨own, others⟩ := List.forall_mem_cons.1 some
    have long := byteLength_pos own
    have more := ih (start + byteLength piece) others
    refine ⟨rfl, by omega, ?_⟩
    rwa [List.flatten_cons, byteLength_append, ← Nat.add_assoc]

theorem le_of_tiles {start stop : Nat} {found : List (Nat × Nat)} (tiles : Tiles start stop found)
    {b : Nat × Nat} (mem : b ∈ found) : start ≤ b.1 := by
  induction found generalizing start with
  | nil => cases mem
  | cons c rest ih =>
    obtain ⟨rfl, long, more⟩ := tiles
    rcases List.mem_cons.1 mem with rfl | mem
    · exact Nat.le_refl _
    · have := ih more mem
      omega

theorem lt_of_tiles {start stop : Nat} {found : List (Nat × Nat)} (tiles : Tiles start stop found)
    {b : Nat × Nat} (mem : b ∈ found) : b.1 < b.2 := by
  induction found generalizing start with
  | nil => cases mem
  | cons c rest ih =>
    obtain ⟨rfl, long, more⟩ := tiles
    rcases List.mem_cons.1 mem with rfl | mem
    · exact long
    · exact ih more mem

theorem ascending_of_tiles {start stop : Nat} {found : List (Nat × Nat)}
    (tiles : Tiles start stop found) : found.Pairwise fun a b => a.1 < b.1 := by
  induction found generalizing start with
  | nil => exact List.Pairwise.nil
  | cons b rest ih =>
    obtain ⟨rfl, long, more⟩ := tiles
    refine List.pairwise_cons.2 ⟨fun c mem => ?_, ih more⟩
    have := le_of_tiles more mem
    omega

theorem length_le_byteLength_flatten {pieces : List (List Char)} (some : ∀ p ∈ pieces, p ≠ []) :
    pieces.length ≤ byteLength pieces.flatten := by
  induction pieces with
  | nil => exact Nat.zero_le _
  | cons piece rest ih =>
    obtain ⟨own, others⟩ := List.forall_mem_cons.1 some
    have := byteLength_pos own
    have := ih others
    rw [List.length_cons, List.flatten_cons, byteLength_append]
    omega

theorem slices_within (pre : List Char) (pieces : List (List Char)) (post : List Char) :
    (ranges (byteLength pre) pieces).map
      (fun b => slice (pre ++ (pieces.flatten ++ post)) b.1 b.2) = pieces := by
  induction pieces generalizing pre with
  | nil => rfl
  | cons piece rest ih =>
    have others := ih (pre ++ piece)
    rw [byteLength_append] at others
    simp only [ranges, List.map_cons, List.flatten_cons, List.append_assoc, slice_piece]
    simp only [List.append_assoc] at others
    rw [others]

theorem slices_ranges (pre : List Char) (pieces : List (List Char)) :
    (ranges (byteLength pre) pieces).map (fun b => slice (pre ++ pieces.flatten) b.1 b.2) = pieces := by
  simpa using slices_within pre pieces []

theorem slice_range (pre : List Char) {pieces : List (List Char)} {b : Nat × Nat}
    (mem : b ∈ ranges (byteLength pre) pieces) : slice (pre ++ pieces.flatten) b.1 b.2 ∈ pieces ∧
      b.2 = b.1 + byteLength (slice (pre ++ pieces.flatten) b.1 b.2) := by
  induction pieces generalizing pre with
  | nil => cases mem
  | cons piece rest ih =>
    rcases List.mem_cons.1 mem with rfl | mem
    · simp only [List.flatten_cons, slice_piece]
      exact ⟨List.mem_cons_self, trivial⟩
    · rw [← byteLength_append] at mem
      obtain ⟨there, long⟩ := ih (pre ++ piece) mem
      rw [List.append_assoc] at there long
      exact ⟨List.mem_cons_of_mem _ there, long⟩

end SourceSlices.Text
