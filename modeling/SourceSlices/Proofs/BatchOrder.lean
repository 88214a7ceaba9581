import SourceSlices.Proofs.ResultSteps

/-!
The order of the files in a batch. The numbers that a file takes follow those that are there; written
in another order, each file takes as many, in another place.
-/
namespace SourceSlices

/-! ### Numbers in another order -/

section Blocks

variable {α : Type} [DecidableEq α] {size : α → Int} {base : Int}

/-- How many numbers the members of a list take before it is the turn of `x`. -/
def offset (size : α → Int) (x : α) : List α → Int
  | [] => 0
  | y :: rest => if y = x then 0 else size y + offset size x rest

theorem offset_eq {before : List α} {x : α} (after : List α) (first : x ∉ before) :
    offset size x (before ++ x :: after) = (before.map size).sum := by
  induction before with
  | nil => simp [offset]
  | cons y rest ih =>
    rw [List.mem_cons, not_or] at first
    rw [List.cons_append, offset, if_neg (Ne.symm first.1), ih first.2, List.map_cons, List.sum_cons]

theorem offset_nonneg (some : ∀ x, 0 ≤ size x) (x : α) (l : List α) : 0 ≤ offset size x l := by
  induction l with
  | nil => exact Int.le_refl 0
  | cons y rest ih =>
    have := some y
    rw [offset]
    split <;> omega

/-- New numbers for those above `base` that the members of a list have taken one after the other: the
numbers that they take in another order. -/
structure Moves (size : α → Int) (base : Int) (l l' : List α) (f : Int → Int) : Prop where
  injective : Function.Injective f
  old : ∀ i ≤ base, f i = i
  moved : ∀ x ∈ l, ∀ k, 0 < k → k ≤ size x → f (base + offset size x l + k) = base + offset size x l' + k

theorem moves_self (size : α → Int) (base : Int) (l : List α) : Moves size base l l id :=
  ⟨Function.injective_id, fun _ _ => rfl, fun _ _ _ _ _ => rfl⟩

/-- Two neighbours change places. -/
theorem moves_swap (some : ∀ x, 0 ≤ size x) {x y : α} (other : x ≠ y) (base : Int) (l : List α) :
    Moves size base (y :: x :: l) (x :: y :: l) fun i =>
      if i ≤ base ∨ base + size y + size x < i then i
      else if i ≤ base + size y then i + size x else i - size y := by
  have sx := some x
  have sy := some y
  refine ⟨fun i j same => ?_, fun i low => if_pos (Or.inl low), fun z mem k above below => ?_⟩
  · split_ifs at same <;> omega
  · -- Only the two blocks right above `base` move: that of `y` up, that of `x` down.
    have := offset_nonneg some z l
    by_cases second : z = x
    · subst second
      simp only [offset, if_neg (Ne.symm other), if_true]
      rw [if_neg (by omega), if_neg (by omega)]
      omega
    · by_cases first : z = y
      · subst first
        simp only [offset, if_neg other, if_true]
        rw [if_neg (by omega), if_pos (by omega)]
        omega
      · simp only [offset, if_neg (Ne.symm first), if_neg (Ne.symm second)]
        rw [if_pos (by omega)]
        omega

/-- The number of a member when it is the only one, in both orders. -/
theorem Moves.shift {l l' : List α} {f : Int → Int} (moves : Moves size base l l' f) {x : α}
    (mem : x ∈ l) {i : Int} (own : i ≤ base + size x) :
    f (shift base (base + offset size x l) i) = shift base (base + offset size x l') i := by
  by_cases low : i ≤ base
  · rw [shift_of_le low, shift_of_le low, moves.old i low]
  · have turn := moves.moved x mem (i - base) (by omega) (by omega)
    rw [follows_shift _ _ i (by omega), follows_shift _ _ i (by omega)]
    have before : i + (base + offset size x l - base) = base + offset size x l + (i - base) := by omega
    rw [before, turn]
    omega

theorem exists_moves (some : ∀ x, 0 ≤ size x) {l l' : List α} (perm : l.Perm l') (base : Int) :
    ∃ f, Moves size base l l' f := by
  induction perm generalizing base with
  | nil => exact ⟨id, moves_self size base []⟩
  | @cons x l l' _ ih =>
    -- The first member keeps its numbers, so for the others the old ones end behind them.
    obtain ⟨f, moves⟩ := ih (base + size x)
    have := some x
    refine ⟨f, moves.injective, fun i low => moves.old i (by omega), fun z mem k above below => ?_⟩
    by_cases first : z = x
    · subst first
      simp only [offset, if_true]
      rw [moves.old _ (by omega)]
    · have turn := moves.moved z ((List.mem_cons.1 mem).resolve_left first) k above below
      simp only [offset, if_neg (Ne.symm first), ← Int.add_assoc]
      exact turn
  | swap x y l =>
    by_cases same : x = y
    · subst same
      exact ⟨id, moves_self size base _⟩
    · exact ⟨_, moves_swap some same base l⟩
  | trans first _ ih ih' =>
    obtain ⟨f, moves⟩ := ih base
    obtain ⟨g, moves'⟩ := ih' base
    refine ⟨g ∘ f, moves'.injective.comp moves.injective, fun i low => ?_, fun z mem k above below => ?_⟩
    · rw [Function.comp, moves.old i low, moves'.old i low]
    · rw [Function.comp, moves.moved z mem k above below,
        moves'.moved z (first.mem_iff.1 mem) k above below]

end Blocks

/-! ### The same file in two stores -/

/-- Different rows keep different numbers, and the rows of a store keep theirs. -/
structure Renaming.Extends (m : Renaming) (s : Store) : Prop where
  file : Function.Injective m.file
  symbol : Function.Injective m.symbol
  slice : Function.Injective m.slice
  old : m.Agree s .same

theorem Renaming.Extends.of_ensureBatch {m : Renaming} {s : Store} {b : Batch}
    (extend : m.Extends (s.ensureBatch b)) : m.Extends s := by
  obtain ⟨file, symbol, slice, old⟩ := extend
  unfold Store.ensureBatch at old
  refine ⟨file, symbol, slice, ?_⟩
  split at old <;> exact ⟨old.file, old.symbol, old.slice⟩

namespace Store

variable {s t u : Store} {m n k : Renaming} {path : String}

/-- The second store has the same record, symbols and visible slices of a path as the first one, with
other numbers. -/
structure SameUpTo (m : Renaming) (s t : Store) (path : String) : Prop where
  record : t.file? path = (s.file? path).map m.fileRow
  symbols : ∀ id, s.fileId? path = some id →
    t.symbolsOf (m.file id) = (s.symbolsOf id).map m.symbolRow
  slices : ∀ id, s.fileId? path = some id → ∀ view,
    t.fileSlices view (m.file id) = (s.fileSlices view id).map m.sliceRow

theorem SameUpTo.number (same : SameUpTo m s t path) :
    t.fileId? path = (s.fileId? path).map m.file := by
  rw [fileId?, same.record, fileId?, Option.map_map, Option.map_map]
  rfl

theorem sameUpTo_self (s : Store) (path : String) : SameUpTo .same s s path := by
  refine ⟨?_, fun id _ => ?_, fun id _ view => ?_⟩
  · exact (congrFun Option.map_id (s.file? path)).symm
  · exact ((List.map_congr_left fun r _ => Renaming.symbolRow_same r).trans (List.map_id' _)).symm
  · exact ((List.map_congr_left fun r _ => Renaming.sliceRow_same r).trans (List.map_id' _)).symm

theorem SameUpTo.keeps (same : SameUpTo m s t path) (kept : Keeps t u path) (sound : t.Sound)
    (sound' : u.Sound) : SameUpTo m s u path := by
  have rows (id : Int) (known : s.fileId? path = some id) : SameFile t u (m.file id) :=
    kept.rows _ (by rw [same.number, known]; rfl)
  exact ⟨kept.record.trans same.record,
    fun id known => (rows id known).symbols.trans (same.symbols id known),
    fun id known view => ((rows id known).fileSlices sound sound' view).trans (same.slices id known view)⟩

theorem subset_fileSlices (s : Store) (view : String) (fileId : Int) :
    s.fileSlices view fileId ⊆ s.slices :=
  fun _ mem => (List.mem_filter.1 (List.mem_filter.1 (List.mem_mergeSort.1 mem)).1).1

theorem SameUpTo.keeps_left (same : SameUpTo m s t path) (kept : Keeps s u path) (sound : s.Sound)
    (sound' : u.Sound) : SameUpTo m u t path := by
  have known (id : Int) (there : u.fileId? path = some id) : s.fileId? path = some id := by
    rwa [fileId?, ← kept.record]
  refine ⟨by rw [same.record, kept.record], fun id there => ?_, fun id there view => ?_⟩
  · rw [same.symbols id (known id there), (kept.rows id (known id there)).symbols]
  · rw [same.slices id (known id there), (kept.rows id (known id there)).fileSlices sound sound']

/-- Two stores that have the rows of a third one, under numbers that correspond. -/
theorem SameUpTo.of_common (first : SameUpTo m s t path) (second : SameUpTo n s u path)
    (sound : s.Sound) (referenced : s.Referenced) (agree : (k.comp m).Agree s n) :
    SameUpTo k t u path := by
  have origin (id : Int) (known : t.fileId? path = some id) :
      ∃ i, s.fileId? path = some i ∧ m.file i = id ∧ k.file id = n.file i := by
    rw [first.number] at known
    obtain ⟨i, there, rfl⟩ := Option.map_eq_some_iff.1 known
    exact ⟨i, there, rfl, agree.fileId sound (fileId_mem there)⟩
  refine ⟨?_, fun id known => ?_, fun id known view => ?_⟩
  · rw [second.record, first.record, Option.map_map]
    refine Option.map_congr fun row mem => ?_
    have number : k.file (m.file row.id) = n.file row.id :=
      agree.file row.id (sound.fileNumbers row (List.mem_of_find?_eq_some mem))
    simp only [Function.comp, Renaming.fileRow, number]
  · obtain ⟨i, there, rfl, same⟩ := origin id known
    rw [same, second.symbols i there, first.symbols i there, List.map_map]
    refine List.map_congr_left fun r mem => ?_
    rw [Function.comp, ← Renaming.symbolRow_comp]
    exact (agree.symbolRow sound referenced (List.mem_filter.1 mem).1).symm
  · obtain ⟨i, there, rfl, same⟩ := origin id known
    rw [same, second.slices i there view, first.slices i there view, List.map_map]
    refine List.map_congr_left fun r mem => ?_
    rw [Function.comp, ← Renaming.sliceRow_comp]
    exact (agree.sliceRow sound referenced (subset_fileSlices s view i mem)).symm

end Store

namespace StagedBatch

open Store

variable {tree : FileTree} {now : Instant} {batch : String} {start g h : Progress} {x y : ReadResult}
  {results kept left : List ReadResult} {m : RunMetrics} {ρ : Renaming}

theorem HandledTwice.sameUpTo {first : Progress} {o : StageOutcome}
    (twice : HandledTwice x start first g h) (grows : Grows start.store g.store)
    (fresh : start.staged.files = []) (listed : first.staged.files = [(x.1, o)]) :
    SameUpTo (.between start.store g.store) first.store h.store (pathOf x) := by
  cases twice with
  | nothing _ _ unlisted _ =>
    rw [unlisted, fresh] at listed
    cases listed
  | staged _ _ number alike record =>
    refine ⟨record, fun id known => ?_, fun id known view => ?_⟩ <;>
      cases Option.some.inj (known.symm.trans number)
    · exact alike.symbols
    · exact alike.fileSlices (ascending_between grows) view

theorem grows_add (g : Progress) (x : ReadResult) :
    Grows g.store (g.add tree now batch x).store := by
  rcases add_store tree now batch g x with same | ⟨q, o, done⟩
  · rw [same]
    exact Grows.refl _
  · exact Staging.grows_stage done

/-! ### Results in another order -/

/-- Numbers for the rows that results write in another order. -/
structure Rearranges (tree : FileTree) (now : Instant) (batch : String) (start : Progress)
    (l l' : List ReadResult) (ρ : Renaming) : Prop where
  file : Moves (taken tree now batch Store.lastFile start) start.store.lastFile l l' ρ.file
  symbol : Moves (taken tree now batch Store.lastSymbol start) start.store.lastSymbol l l' ρ.symbol
  slice : Moves (taken tree now batch Store.lastSlice start) start.store.lastSlice l l' ρ.slice

theorem exists_rearranges (tree : FileTree) (now : Instant) (batch : String) (start : Progress)
    {l l' : List ReadResult} (perm : l.Perm l') : ∃ ρ, Rearranges tree now batch start l l' ρ := by
  have grows (x : ReadResult) : Grows start.store (start.add tree now batch x).store := grows_add start x
  have some {last : Store → Int} (grown : ∀ x, last start.store ≤ last (start.add tree now batch x).store)
      (x : ReadResult) : 0 ≤ taken tree now batch last start x := Int.sub_nonneg.2 (grown x)
  obtain ⟨file, files⟩ := exists_moves (some fun x => (grows x).file) perm start.store.lastFile
  obtain ⟨symbol, symbols⟩ := exists_moves (some fun x => (grows x).symbol) perm start.store.lastSymbol
  obtain ⟨slice, slices⟩ := exists_moves (some fun x => (grows x).slice) perm start.store.lastSlice
  exact ⟨⟨file, symbol, slice⟩, files, symbols, slices⟩

theorem Rearranges.extends {l l' : List ReadResult} (moved : Rearranges tree now batch start l l' ρ) :
    ρ.Extends start.store :=
  ⟨moved.file.injective, moved.symbol.injective, moved.slice.injective,
    moved.file.old, moved.symbol.old, moved.slice.old⟩

/-- The numbers of a result after the results before it. -/
theorem last_offset {last : Store → Int}
    (step : ∀ {x first g h}, HandledTwice x start first g h →
      last h.store - last g.store = last first.store - last start.store)
    (ready : Open batch start) {before after : List ReadResult}
    (covered : Covered start.versions (before ++ x :: after))
    (apart : ((before ++ x :: after).map pathOf).Nodup) :
    last (addAll tree now batch start before).store = last start.store +
      offset (taken tree now batch last start) x (before ++ x :: after) := by
  have fresh : x ∉ before := fun mem => ne_of_nodup_map apart mem rfl
  rw [offset_eq after fresh]
  refine last_addAll step ready (fun y mem => covered y (List.mem_append_left _ mem)) ?_
  rw [List.map_append, List.nodup_append] at apart
  exact apart.1

theorem moved_at {last : Store → Int} {f : Int → Int}
    (step : ∀ {x first g h}, HandledTwice x start first g h →
      last h.store - last g.store = last first.store - last start.store)
    (ready : Open batch start) {before after before' after' : List ReadResult}
    (covered : Covered start.versions (before ++ x :: after))
    (apart : ((before ++ x :: after).map pathOf).Nodup)
    (covered' : Covered start.versions (before' ++ x :: after'))
    (apart' : ((before' ++ x :: after').map pathOf).Nodup)
    (moves : Moves (taken tree now batch last start) (last start.store) (before ++ x :: after)
      (before' ++ x :: after') f) {i : Int} (own : i ≤ last (start.add tree now batch x).store) :
    f (shift (last start.store) (last (addAll tree now batch start before).store) i) =
      shift (last start.store) (last (addAll tree now batch start before').store) i := by
  rw [last_offset step ready covered apart, last_offset step ready covered' apart']
  exact moves.shift List.mem_append_cons_self (by rw [taken]; omega)

theorem Rearranges.agree (ready : Open batch start) {before after before' after' : List ReadResult}
    (covered : Covered start.versions (before ++ x :: after))
    (apart : ((before ++ x :: after).map pathOf).Nodup)
    (covered' : Covered start.versions (before' ++ x :: after'))
    (apart' : ((before' ++ x :: after').map pathOf).Nodup)
    (moved : Rearranges tree now batch start (before ++ x :: after) (before' ++ x :: after') ρ) :
    (ρ.comp (.between start.store (addAll tree now batch start before).store)).Agree
      (start.add tree now batch x).store
      (.between start.store (addAll tree now batch start before').store) where
  file _ := moved_at (fun twice => twice.distances.1) ready covered apart covered' apart' moved.file
  symbol _ := moved_at (fun twice => twice.distances.2.1) ready covered apart covered' apart' moved.symbol
  slice _ := moved_at (fun twice => twice.distances.2.2) ready covered apart covered' apart' moved.slice

theorem sameUpTo_at (ready : Open batch start) (fresh : start.staged.files = [])
    {before after : List ReadResult} (covered : Covered start.versions (before ++ x :: after))
    (apart : ((before ++ x :: after).map pathOf).Nodup) {o : StageOutcome}
    (listed : Lists tree now batch start x o) :
    SameUpTo (.between start.store (addAll tree now batch start before).store)
      (start.add tree now batch x).store (addAll tree now batch start (before ++ x :: after)).store
      (pathOf x) := by
  obtain ⟨twice, kept⟩ := addAll_at tree now ready covered apart
  have split : before ++ x :: after = (before ++ [x]) ++ after := by simp
  have mine : Covered start.versions before := fun y mem => covered y (List.mem_append_left _ mem)
  have upTo : Covered start.versions (before ++ [x]) := fun y mem =>
    covered y (split ▸ List.mem_append_left _ mem)
  exact (twice.sameUpTo (addAll_open tree now ready mine).2 fresh listed).keeps kept
    (addAll_open tree now ready upTo).1.regular.sound (addAll_open tree now ready covered).1.regular.sound

theorem number_of_lists (ready : Open batch start) (fresh : start.staged.files = [])
    (covered : Covered start.versions [x]) {o : StageOutcome} (listed : Lists tree now batch start x o) :
    Open batch (start.add tree now batch x) ∧
      ∃ f ∈ (start.add tree now batch x).store.files, f.id = o.fileId := by
  refine ⟨(addAll_open tree now ready covered).1, ?_⟩
  have twice : HandledTwice x start (start.add tree now batch x) (addAll tree now batch start [])
      (addAll tree now batch start ([] ++ [x])) :=
    twice_snoc tree now ready covered (List.nodup_singleton _)
  rw [Lists] at listed
  cases twice with
  | nothing _ _ unlisted _ =>
    rw [unlisted, fresh] at listed
    cases listed
  | staged here _ number _ _ =>
    rw [here, fresh] at listed
    cases listed
    exact fileId_mem number

section Rearranged

variable (ready : Open batch start) (begin : start.staged = { metrics := m })
  (covered : Covered start.versions results) (apart : (results.map pathOf).Nodup)
  (perm : results.Perm (kept ++ left))
  (moved : Rearranges tree now batch start results (kept ++ left) ρ)

include ready begin covered apart perm moved

/-- A file that is written in both orders: it counts the same and looks the same. -/
theorem same_at {before after before' after' : List ReadResult} {o : StageOutcome}
    (split : results = before ++ x :: after) (split' : kept = before' ++ x :: after')
    (listed : Lists tree now batch start x o) :
    ρ.outcome ((Renaming.between start.store (addAll tree now batch start before).store).outcome o) =
        (Renaming.between start.store (addAll tree now batch start before').store).outcome o ∧
      SameUpTo ρ (addAll tree now batch start results).store (addAll tree now batch start kept).store
        (pathOf x) := by
  have fresh : start.staged.files = [] := by rw [begin]
  have all : Covered start.versions (kept ++ left) := fun y mem => covered y (perm.mem_iff.2 mem)
  have apart' := (perm.map pathOf).nodup_iff.1 apart
  subst split split'
  have whole : (before' ++ x :: after') ++ left = before' ++ x :: (after' ++ left) := by simp
  have agree := Rearranges.agree ready covered apart (whole ▸ all) (whole ▸ apart') (whole ▸ moved)
  have own : Covered start.versions [x] := fun y mem =>
    covered y (List.mem_singleton.1 mem ▸ List.mem_append_cons_self)
  obtain ⟨alone, known⟩ := number_of_lists ready fresh own listed
  refine ⟨?_, ?_⟩
  · have number := agree.fileId alone.regular.sound known
    simp only [Renaming.comp, Function.comp] at number
    simp only [Renaming.outcome, number]
  · rw [List.map_append, List.nodup_append] at apart'
    exact (sameUpTo_at ready fresh covered apart listed).of_common
      (sameUpTo_at ready fresh (fun y mem => all y (List.mem_append_left _ mem)) apart'.1 listed)
      alone.regular.sound alone.referenced agree

variable (distinct : (results.map Prod.fst).Nodup)
  (lost : ∀ x ∈ left, x.1 ∉ (addAll tree now batch start results).entries)

include distinct lost

omit moved distinct in
theorem mem_kept {before after : List ReadResult} {o : StageOutcome}
    (split : results = before ++ x :: after) (listed : Lists tree now batch start x o) : x ∈ kept := by
  have mem : x ∈ results := split ▸ List.mem_append_cons_self
  refine (List.mem_append.1 (perm.mem_iff.1 mem)).resolve_right fun inside => lost x inside ?_
  exact List.mem_map_of_mem ((mem_files_addAll ready (by rw [begin]) covered apart).2
    ⟨before, x, after, o, split, listed, rfl⟩)

/-- The same files are listed, with the same counts. -/
theorem files_perm : (addAll tree now batch start kept).staged.files.Perm
    ((addAll tree now batch start results).staged.files.map fun e => (e.1, ρ.outcome e.2)) := by
  have fresh : start.staged.files = [] := by rw [begin]
  have all : Covered start.versions (kept ++ left) := fun y mem => covered y (perm.mem_iff.2 mem)
  have others : Covered start.versions kept := fun y mem => all y (List.mem_append_left _ mem)
  have apart' := (perm.map pathOf).nodup_iff.1 apart
  have distinct' := (perm.map Prod.fst).nodup_iff.1 distinct
  rw [List.map_append, List.nodup_append] at apart' distinct'
  have listing {l : List ReadResult} (once : (l.map Prod.fst).Nodup) :
      (addAll tree now batch start l).entries.Nodup := by
    obtain ⟨written, tally⟩ : ∃ written, Tally m l written (addAll tree now batch start l).staged :=
      tally_addAll m start begin l
    rw [Progress.entries, tally.files]
    exact (tally.among.map Prod.fst).nodup once
  have before : (((addAll tree now batch start results).staged.files.map
      fun e => (e.1, ρ.outcome e.2)).map Prod.fst).Nodup := by
    rw [List.map_map]
    exact listing distinct
  -- Both lists name an entry at most once, so their members are compared.
  refine (List.perm_ext_iff_of_nodup (listing distinct'.1).of_map before.of_map).2 fun e => ?_
  simp only [List.mem_map, mem_files_addAll ready fresh covered apart,
    mem_files_addAll ready fresh others apart'.1]
  constructor
  · rintro ⟨before', x, after', o, split', listed, rfl⟩
    have mem : x ∈ results := perm.mem_iff.2
      (List.mem_append_left _ (split' ▸ List.mem_append_cons_self))
    obtain ⟨before, after, split⟩ := List.append_of_mem mem
    have same := (same_at ready begin covered apart perm moved split split' listed).1
    exact ⟨_, ⟨before, x, after, o, split, listed, rfl⟩, by rw [same]⟩
  · rintro ⟨e, ⟨before, x, after, o, split, listed, rfl⟩, rfl⟩
    obtain ⟨before', after', split'⟩ :=
      List.append_of_mem (mem_kept ready begin covered apart perm lost split listed)
    have same := (same_at ready begin covered apart perm moved split split' listed).1
    exact ⟨before', x, after', o, split', listed, by rw [same]⟩

/-- Every path looks the same, whether it was written or not. -/
theorem same_everywhere (path : String) :
    SameUpTo ρ (addAll tree now batch start results).store (addAll tree now batch start kept).store
      path := by
  have fresh : start.staged.files = [] := by rw [begin]
  have listed := files_perm ready begin covered apart perm moved distinct lost
  have entries (e : PlanEntry) : e ∈ (addAll tree now batch start kept).entries ↔
      e ∈ (addAll tree now batch start results).entries := by
    rw [Progress.entries, (listed.map Prod.fst).mem_iff, List.map_map]
    rfl
  by_cases written : StagedAmong (addAll tree now batch start results).entries results path
  · -- The result that was written under the path is the only one with it, in both orders.
    obtain ⟨x, mem, here, rfl⟩ := written
    obtain ⟨⟨_, p⟩, inside, rfl⟩ := List.mem_map.1 here
    obtain ⟨before, y, after, o, split, own, eq⟩ :=
      (mem_files_addAll ready fresh covered apart).1 inside
    have same : x = y := List.inj_on_of_nodup_map distinct mem
      (split ▸ List.mem_append_cons_self) (Prod.mk.inj eq).1
    subst same
    obtain ⟨before', after', split'⟩ :=
      List.append_of_mem (mem_kept ready begin covered apart perm lost split own)
    exact (same_at ready begin covered apart perm moved split split' own).2
  · -- Nothing was written under the path: it still has its old rows, whose numbers stay.
    have away : ¬ StagedAmong (addAll tree now batch start kept).entries kept path := by
      rintro ⟨x, mem, here, same⟩
      exact written ⟨x, perm.mem_iff.2 (List.mem_append_left _ mem), (entries _).1 here, same⟩
    have untouched (l : List ReadResult)
        (away : ¬ StagedAmong (addAll tree now batch start l).entries l path) :
        SameUpTo .same start.store (addAll tree now batch start l).store path := by
      have leaves := (addAll_spec tree now batch l ready.regular).1
      exact (sameUpTo_self start.store path).keeps (leaves.apart path away) ready.regular.sound
        leaves.regular.sound
    exact (untouched results written).of_common (untouched kept away) ready.regular.sound
      ready.referenced moved.extends.old

end Rearranged

/-! ### Batches -/

variable {s u : Store} {ref : Option String} {p : RunPlan} {b : StagedBatch}

/-- Results for files of different names are recorded under different paths. -/
theorem apart_of_planned
    (distinct : (p.entries.map fun e => Path.key (Runner.displayPath e.relative)).Nodup)
    (planned : ∀ x ∈ results, x.1 ∈ p.entries) (accepted : complaint? p [] results = none) :
    (results.map pathOf).Nodup := by
  obtain ⟨belongs, -⟩ := accepted_iff.1 accepted
  have once := (distinct_of_accepted accepted).1
  have keys : (results.map fun x => Path.key (Runner.displayPath x.1.relative)).Nodup := by
    refine List.Nodup.map_on (fun x mem y mem' same => ?_) once.of_map
    have entry := List.inj_on_of_nodup_map distinct (planned x mem) (planned y mem') same
    exact List.inj_on_of_nodup_map once mem mem' entry
  have recorded : results.map (fun x => Path.key (Runner.displayPath x.1.relative)) =
      (results.map pathOf).map Path.key := by
    rw [List.map_map]
    exact List.map_congr_left fun x mem => (Path.key_displayPath (belongs x mem).1.2).symm
  exact (recorded ▸ keys).of_map

theorem files_failed (done : stage s tree now batch ref p results = .ok (u, b)) :
    b.metrics.filesFailed + b.files.length = p.metrics.filesFailed + results.length := by
  have tally := tally_stage done
  have files := congrArg List.length tally.files
  have fewer := tally.among.length_le
  rw [List.length_map, List.length_map] at files
  rw [tally.failed, files]
  omega

/-- A result that has errors or that could not be staged is not listed. -/
theorem unlisted_of_lost (covered : Covered p.handlerVersions results)
    (accepted : complaint? p [] results = none)
    (among : left ⊆ results)
    (lost : ∀ x ∈ left, x.2.errors ≠ [] ∨ x.1.relative ∈
      (addAll tree now batch (opening s now batch ref p) results).staged.failures.map Prod.fst) :
    ∀ x ∈ left, x.1 ∉ (addAll tree now batch (opening s now batch ref p) results).entries := by
  intro x mem listed
  have told : Told results (addAll tree now batch (opening s now batch ref p) results) :=
    told_addAll ⟨rfl, rfl⟩ covered (accepted_iff.1 accepted).2
  rcases lost x mem with errors | failed
  · obtain ⟨y, inside, same, read⟩ := told.listed _ listed
    have here := List.inj_on_of_nodup_map (distinct_of_accepted accepted).1 inside (among mem) same
    exact errors (here ▸ read)
  · exact told.apart _ listed failed

/-- A batch depends neither on the order of its files nor on files that fail. Take the results in any
other order, and leave out some of those that have errors or could not be staged: the batch is staged
again, it lists the same files with the same counts, and every path has the same record, symbols and
visible slices, all up to numbers that this batch gave. The totals are those of the first batch, less
the failures that were left out. Paths count as different if they have different components; every
store that runs have made is regular and has what its rows refer to. -/
theorem stage_rearranged (regular : s.Regular) (referenced : s.Referenced)
    (covered : ∀ e ∈ p.entries, p.handlerVersions.contains e.selection.name = true)
    (distinct : (p.entries.map fun e => Path.key (Runner.displayPath e.relative)).Nodup)
    (planned : ∀ x ∈ results, x.1 ∈ p.entries)
    (done : stage s tree now batch ref p results = .ok (u, b)) (perm : results.Perm (kept ++ left))
    (lost : ∀ x ∈ left, x.2.errors ≠ [] ∨ x.1.relative ∈ b.failures.map Prod.fst) :
    ∃ v c ρ, stage s tree now batch ref p kept = .ok (v, c) ∧ ρ.Extends s ∧
      c.files.Perm (b.files.map fun e => (e.1, ρ.outcome e.2)) ∧ (∀ path, SameUpTo ρ u v path) ∧
      c.metrics.filesFailed + left.length = b.metrics.filesFailed ∧
      c.metrics.chunksEmitted = b.metrics.chunksEmitted ∧
      c.metrics.chunksReused = b.metrics.chunksReused := by
  have accepted := accepted_of_stage done
  have again : complaint? p [] kept = none := by
    obtain ⟨belongs, named⟩ := accepted_iff.1 accepted
    have named' := (perm.map (·.1.relative)).nodup_iff.1 named
    rw [List.map_append, List.nodup_append] at named'
    exact accepted_iff.2
      ⟨fun x mem => belongs x (perm.mem_iff.2 (List.mem_append_left _ mem)), named'.1⟩
  obtain ⟨u, first, regularU, keptU⟩ := stage_of_accepted tree now batch ref regular accepted
  cases done.symm.trans first
  obtain ⟨v, second, regularV, keptV⟩ := stage_of_accepted tree now batch ref regular again
  obtain ⟨ρ, moved⟩ := exists_rearranges tree now batch (opening s now batch ref p) perm
  have ready := open_opening now batch ref p regular referenced
  have known : Covered p.handlerVersions results := fun x mem => covered x.1 (planned x mem)
  have known' : Covered p.handlerVersions kept := fun x mem =>
    known x (perm.mem_iff.2 (List.mem_append_left _ mem))
  have apart := apart_of_planned distinct planned accepted
  have entries := (distinct_of_accepted accepted).1
  have lost' := unlisted_of_lost known accepted (fun x mem => perm.mem_iff.2
    (List.mem_append_right _ mem)) lost
  have listed := files_perm ready rfl known apart perm moved entries lost'
  have regularR := (addAll_open tree now ready known).1.regular
  have regularK := (addAll_open tree now ready known').1.regular
  have sums {l : List ReadResult} (known : Covered p.handlerVersions l) :
      Sums p.metrics (addAll tree now batch (opening s now batch ref p) l).staged :=
    sums_addAll ⟨rfl, rfl⟩ known
  refine ⟨v, _, ρ, second, moved.extends.of_ensureBatch, listed, fun path => ?_, ?_, ?_, ?_⟩
  · exact ((same_everywhere ready rfl known apart perm moved entries lost' path).keeps (keptV path)
      regularK.sound regularV.sound).keeps_left (keptU path) regularR.sound regularU.sound
  · have total := files_failed done
    have total' := files_failed second
    have files := listed.length_eq
    have all := perm.length_eq
    rw [List.length_map] at files
    rw [List.length_append] at all
    omega
  · rw [(sums known).emitted, (sums known').emitted, (listed.map _).sum_nat, List.map_map]
    rfl
  · rw [(sums known).reused, (sums known').reused, (listed.map _).sum_nat, List.map_map]
    rfl

/-- A planned text file, and what is read of it. -/
def textEntry (name : String) : PlanEntry :=
  ⟨"/a/" ++ name, name, ⟨"text", "1.0.0", "extension:txt", false⟩, "", none⟩

def textResult (name : String) (errors : List String) : ReadResult :=
  (textEntry name, { file := { path := name, language := "text", checksum := "" }, errors })

def textPlan (names : List String) : RunPlan where
  source := "a"
  root := "/a"
  entries := names.map textEntry
  handlerVersions := .ofList [("text", "1.0.0")]

/-- A file that is known already, a new one and one that cannot be read, in two orders. -/
theorem notes_rearranged :
    let s := Runner.overThree.storeAfter [Runner.passOver "a" "b1"]
    let p := textPlan ["notes.txt", "more.txt", "broken.txt"]
    ∃ u b v c ρ,
      stage s Runner.threeRoots .epoch "b2" none p
        [textResult "notes.txt" [], textResult "broken.txt" ["unreadable"], textResult "more.txt" []] =
          .ok (u, b) ∧
      b.files.map Prod.fst = [textEntry "notes.txt", textEntry "more.txt"] ∧
      stage s Runner.threeRoots .epoch "b2" none p
        [textResult "more.txt" [], textResult "notes.txt" []] = .ok (v, c) ∧
      ρ.Extends s ∧ c.files.Perm (b.files.map fun e => (e.1, ρ.outcome e.2)) ∧
      (∀ path, SameUpTo ρ u v path) ∧ c.metrics.filesFailed + 1 = b.metrics.filesFailed := by
  intro s p
  let start := opening s .epoch "b2" none p
  have regular : s.Regular := (Runner.storeAfter_spec _ _).1
  have referenced : s.Referenced := Runner.referenced_storeAfter _ _
  have accepted : complaint? p [] [textResult "notes.txt" [], textResult "broken.txt" ["unreadable"],
      textResult "more.txt" []] = none := by
    decide +kernel
  obtain ⟨u, done, -⟩ := stage_of_accepted Runner.threeRoots .epoch "b2" none regular accepted
  have listed : (addAll Runner.threeRoots .epoch "b2" start [textResult "notes.txt" [],
      textResult "broken.txt" ["unreadable"], textResult "more.txt" []]).entries =
        [textEntry "notes.txt", textEntry "more.txt"] := by
    have ready : Open "b2" start := open_opening _ _ _ _ regular referenced
    have both : Covered start.versions
        [textResult "notes.txt" [], textResult "broken.txt" ["unreadable"]] := by
      unfold Covered
      decide +kernel
    have between := (addAll_open Runner.threeRoots .epoch ready both).1
    refine (add_empty between.known (textEntry "more.txt") _).trans ?_
    exact congrArg (· ++ [textEntry "more.txt"]) (add_empty ready.known (textEntry "notes.txt") _)
  have perm : [textResult "notes.txt" [], textResult "broken.txt" ["unreadable"],
      textResult "more.txt" []].Perm ([textResult "more.txt" [], textResult "notes.txt" []] ++
        [textResult "broken.txt" ["unreadable"]]) := by
    decide +kernel
  obtain ⟨v, c, ρ, again, extend, files, same, failed, -⟩ := stage_rearranged regular referenced
    (by decide +kernel) (by decide +kernel) (by decide +kernel) done perm
    fun x mem => Or.inl (by simp_all [textResult])
  exact ⟨u, _, v, c, ρ, done, listed, again, extend, files, same, failed⟩

end StagedBatch

end SourceSlices
