import Mathlib
import SourceSlices.Proofs.References

/-!
Row numbers mean nothing. If two stores hold the same rows of a file up to the numbers, staging the file
in both confirms, changes and writes the same rows, again up to the numbers.
-/
namespace SourceSlices

/-- New numbers for the rows of a store. -/
structure Renaming where
  file : Int → Int
  symbol : Int → Int
  slice : Int → Int

namespace Renaming

variable (m : Renaming)

def fileRow (r : FileRow) : FileRow := { r with id := m.file r.id }

def symbolRow (r : SymbolRow) : SymbolRow :=
  { r with id := m.symbol r.id, fileId := m.file r.fileId, parentId := r.parentId.map m.symbol }

def content (c : SliceContent) : SliceContent :=
  { c with
    fileId := m.file c.fileId
    symbolId := c.symbolId.map m.symbol
    parentSymbolId := c.parentSymbolId.map m.symbol }

def sliceRow (r : Slice) : Slice := { r with id := m.slice r.id, content := m.content r.content }

def outcome (o : StageOutcome) : StageOutcome := { o with fileId := m.file o.fileId }

def symbolIds (ids : Staging.SymbolIds) : Staging.SymbolIds := ids.map fun e => (e.1, m.symbol e.2)

/-- Numbers that ascend still do. -/
structure Ascending : Prop where
  file : StrictMono m.file
  symbol : StrictMono m.symbol
  slice : StrictMono m.slice

variable {m}

theorem content_injective (ascending : m.Ascending) : Function.Injective m.content := by
  intro a b same
  cases a
  cases b
  simp only [content, SliceContent.mk.injEq] at same ⊢
  obtain ⟨file, symbol, parent, same⟩ := same
  exact ⟨ascending.file.injective file, Option.map_injective ascending.symbol.injective symbol,
    Option.map_injective ascending.symbol.injective parent, same⟩

end Renaming

/-- Numbers above `a` go to those above `b`, one after the other. -/
def Follows (f : Int → Int) (a b : Int) : Prop := ∀ i, a < i → f i = i + (b - a)

variable {f : Int → Int} {a b : Int}

theorem Follows.next (follows : Follows f a b) : f (a + 1) = b + 1 := by
  have := follows (a + 1) (by omega)
  omega

theorem Follows.succ (follows : Follows f a b) : Follows f (a + 1) (b + 1) := by
  intro i above
  have := follows i (by omega)
  omega

theorem Follows.distance {c d : Int} (first : Follows f a b) (second : Follows f c d) :
    d - c = b - a := by
  have := first (max a c + 1) (by omega)
  have := second (max a c + 1) (by omega)
  omega

namespace Store

variable {s s' t t' : Store} {m : Renaming} {fileId : Int}

def slicesOf (s : Store) (fileId : Int) : List Slice := s.slices.filter (·.content.fileId = fileId)

/-- Two stores hold the same rows of a file up to the numbers, and give numbers that correspond. -/
structure Alike (m : Renaming) (s s' : Store) (fileId : Int) : Prop where
  symbols : s'.symbolsOf (m.file fileId) = (s.symbolsOf fileId).map m.symbolRow
  slices : s'.slicesOf (m.file fileId) = (s.slicesOf fileId).map m.sliceRow
  nextFile : Follows m.file s.lastFile s'.lastFile
  nextSymbol : Follows m.symbol s.lastSymbol s'.lastSymbol
  nextSlice : Follows m.slice s.lastSlice s'.lastSlice

/-! ### Symbols -/

theorem symbol_eq_find (s : Store) (fileId : Int) (path : String) :
    s.symbol? fileId path = (s.symbolsOf fileId).find? (·.path = path) := by
  rw [symbol?, symbolsOf, List.find?_filter]
  simp only [Bool.decide_and, Bool.decide_eq_true]

theorem Alike.symbol (alike : Alike m s s' fileId) (path : String) :
    s'.symbol? (m.file fileId) path = (s.symbol? fileId path).map m.symbolRow := by
  rw [symbol_eq_find, symbol_eq_find, alike.symbols, List.find?_map]
  rfl

theorem symbolsOf_changeSymbol_eq (s : Store) (id : Int) {change : SymbolRow → SymbolRow}
    (keeps : KeepsKeys change) (fileId : Int) : (s.changeSymbol id change).symbolsOf fileId =
      (s.symbolsOf fileId).map fun r => if r.id = id then change r else r := by
  have files (r : SymbolRow) : (if r.id = id then change r else r).fileId = r.fileId := by
    split
    · exact (keeps r).2.1
    · rfl
  simp only [symbolsOf, changeSymbol, List.filter_map, Function.comp_def, files]

theorem alike_changeSymbol (ascending : m.Ascending) (alike : Alike m s s' fileId) (id : Int)
    {change change' : SymbolRow → SymbolRow} (keeps : KeepsKeys change) (keeps' : KeepsKeys change')
    (agree : ∀ r, m.symbolRow (change r) = change' (m.symbolRow r)) :
    Alike m (s.changeSymbol id change) (s'.changeSymbol (m.symbol id) change') fileId where
  symbols := by
    rw [symbolsOf_changeSymbol_eq s' _ keeps', symbolsOf_changeSymbol_eq s _ keeps, alike.symbols,
      List.map_map, List.map_map]
    refine List.map_congr_left fun r _ => ?_
    have here : (m.symbolRow r).id = m.symbol id ↔ r.id = id := ascending.symbol.injective.eq_iff
    simp only [Function.comp, here]
    split
    · exact (agree r).symm
    · rfl
  slices := alike.slices
  nextFile := alike.nextFile
  nextSymbol := alike.nextSymbol
  nextSlice := alike.nextSlice

theorem symbolsOf_insertSymbol_own (s : Store) (r : SymbolRow) :
    (s.insertSymbol r).1.symbolsOf r.fileId =
      s.symbolsOf r.fileId ++ [{ r with id := s.lastSymbol + 1, parentId := none }] := by
  simp [symbolsOf, insertSymbol, List.filter_append]

theorem alike_insertSymbol (alike : Alike m s s' fileId) {r r' : SymbolRow} (own : r.fileId = fileId)
    (same : ∀ id, m.symbolRow { r with id, parentId := none } =
      { r' with id := m.symbol id, parentId := none }) :
    Alike m (s.insertSymbol r).1 (s'.insertSymbol r').1 fileId ∧
      (s'.insertSymbol r').2 = m.symbol (s.insertSymbol r).2 := by
  subst own
  have file : m.file r.fileId = r'.fileId := congrArg SymbolRow.fileId (same 0)
  refine ⟨⟨?_, alike.slices, alike.nextFile, alike.nextSymbol.succ, alike.nextSlice⟩,
    alike.nextSymbol.next.symm⟩
  rw [symbolsOf_insertSymbol_own, file, symbolsOf_insertSymbol_own, ← file, alike.symbols,
    List.map_append, List.map_singleton, same, alike.nextSymbol.next, file]

/-! ### Slices -/

theorem chunkHistory_eq (s : Store) (fileId : Int) (chunkId : String) :
    s.chunkHistory fileId chunkId = (s.slicesOf fileId).filter (·.content.chunkId = chunkId) := by
  rw [chunkHistory, slicesOf, List.filter_filter]
  exact List.filter_congr fun r _ => by rw [Bool.decide_and, Bool.and_comm]

theorem Alike.history (alike : Alike m s s' fileId) (chunkId : String) :
    s'.chunkHistory (m.file fileId) chunkId = (s.chunkHistory fileId chunkId).map m.sliceRow := by
  rw [chunkHistory_eq, chunkHistory_eq, alike.slices, List.filter_map]
  rfl

theorem mem_slicesOf {r : Slice} : r ∈ s.slicesOf fileId ↔ r ∈ s.slices ∧ r.content.fileId = fileId := by
  simp [slicesOf]

theorem filter_file_map (rows : List Slice) {change : Slice → Slice}
    (stays : ∀ r, (change r).content.fileId = r.content.fileId) (fileId : Int) :
    (rows.map change).filter (·.content.fileId = fileId) =
      (rows.filter (·.content.fileId = fileId)).map change := by
  simp only [List.filter_map, Function.comp_def, stays]

theorem slicesOf_append {c : Slice} (rows : t.slices = s.slices ++ [c])
    (own : c.content.fileId = fileId) : t.slicesOf fileId = s.slicesOf fileId ++ [c] := by
  simp [slicesOf, rows, own]

theorem Alike.map_slices (alike : Alike m s s' fileId) {change change' : Slice → Slice}
    (stays : ∀ r, (change r).content.fileId = r.content.fileId)
    (stays' : ∀ r, (change' r).content.fileId = r.content.fileId)
    (agree : ∀ r, change' (m.sliceRow r) = m.sliceRow (change r)) :
    (s'.slices.map change').filter (·.content.fileId = m.file fileId) =
      ((s.slices.map change).filter (·.content.fileId = fileId)).map m.sliceRow := by
  have rows : s'.slices.filter (·.content.fileId = m.file fileId) =
      (s.slices.filter (·.content.fileId = fileId)).map m.sliceRow := alike.slices
  rw [filter_file_map _ stays', filter_file_map _ stays, rows, List.map_map, List.map_map]
  exact List.map_congr_left fun r _ => agree r

theorem alike_confirm (ascending : m.Ascending) (alike : Alike m s s' fileId) (ids : List Int)
    (batch : String) (now : Instant) :
    Alike m (s.confirm ids batch now) (s'.confirm (ids.map m.slice) batch now) fileId where
  symbols := alike.symbols
  slices := by
    refine alike.map_slices (fun r => by split <;> rfl) (fun r => by split <;> rfl) fun r => ?_
    have named : (ids.map m.slice).contains (m.sliceRow r).id = ids.contains r.id := by
      rw [Bool.eq_iff_iff, List.contains_iff_mem, List.contains_iff_mem]
      exact List.mem_map_of_injective ascending.slice.injective
    rw [named]
    split <;> rfl
  nextFile := alike.nextFile
  nextSymbol := alike.nextSymbol
  nextSlice := alike.nextSlice

theorem slicesOf_dropParts (s : Store) (batch : String) (fileId : Int) (chunkId : String) (total : Int) :
    (s.dropParts batch fileId chunkId total).slicesOf fileId = (s.slicesOf fileId).filter fun r =>
      !(r.batchId = batch && r.content.chunkId = chunkId && total ≤ r.content.partIndex) := by
  simp only [slicesOf, dropParts, List.filter_filter]
  refine List.filter_congr fun r _ => ?_
  by_cases own : r.content.fileId = fileId <;> simp [own]

theorem alike_dropParts (alike : Alike m s s' fileId) (batch chunkId : String) (total : Int) :
    Alike m (s.dropParts batch fileId chunkId total)
      (s'.dropParts batch (m.file fileId) chunkId total) fileId where
  symbols := alike.symbols
  slices := by
    rw [slicesOf_dropParts, slicesOf_dropParts, alike.slices, List.filter_map]
    rfl
  nextFile := alike.nextFile
  nextSymbol := alike.nextSymbol
  nextSlice := alike.nextSlice

theorem slot_sliceRow_iff (ascending : m.Ascending) {r : Slice} {c : SliceContent} :
    (m.sliceRow r).slot = (m.content c).slot ↔ r.slot = c.slot := by
  simp only [Slice.slot, SliceContent.slot, Renaming.sliceRow, Renaming.content, Prod.mk.injEq,
    ascending.file.injective.eq_iff]

theorem occupied_iff {batch : String} {x : Slot} (own : x.1 = fileId) :
    (∃ r ∈ s.slices, r.batchId = batch ∧ r.slot = x) ↔
      ∃ r ∈ s.slicesOf fileId, r.batchId = batch ∧ r.slot = x := by
  refine ⟨fun ⟨r, mem, writer, here⟩ => ⟨r, mem_slicesOf.2 ⟨mem, ?_⟩, writer, here⟩,
    fun ⟨r, mem, both⟩ => ⟨r, (mem_slicesOf.1 mem).1, both⟩⟩
  exact (congrArg Prod.fst here).trans own

theorem Alike.occupied_iff (ascending : m.Ascending) (alike : Alike m s s' fileId) {b : String}
    {c : SliceContent} (own : c.fileId = fileId) :
    (∃ r ∈ s'.slices, r.batchId = b ∧ r.slot = (m.content c).slot) ↔
      ∃ r ∈ s.slices, r.batchId = b ∧ r.slot = c.slot := by
  have own' : (m.content c).slot.1 = m.file fileId := congrArg m.file own
  rw [Store.occupied_iff (x := c.slot) own, Store.occupied_iff own', alike.slices]
  simp only [List.mem_map, exists_exists_and_eq_and, slot_sliceRow_iff ascending]
  rfl

/-- What writing a part makes of a row that is there already. -/
def rewritten (batch : String) (now : Instant) (c : SliceContent) (r : Slice) : Slice :=
  if r.batchId = batch ∧ r.slot = c.slot then overwritten c batch now r else r

theorem fileId_rewritten (batch : String) (now : Instant) (c : SliceContent) (r : Slice) :
    (rewritten batch now c r).content.fileId = r.content.fileId := by
  unfold rewritten
  split
  · rename_i here
    exact (congrArg Prod.fst here.2).symm
  · rfl

theorem rewritten_sliceRow (ascending : m.Ascending) (batch : String) (now : Instant)
    (c : SliceContent) (r : Slice) :
    rewritten batch now (m.content c) (m.sliceRow r) = m.sliceRow (rewritten batch now c r) := by
  have here : ((m.sliceRow r).batchId = batch ∧ (m.sliceRow r).slot = (m.content c).slot) ↔
      r.batchId = batch ∧ r.slot = c.slot := and_congr Iff.rfl (slot_sliceRow_iff ascending)
  simp only [rewritten, here]
  split <;> rfl

/-- Writing a part into both stores overwrites a row of both, or adds one to both. -/
theorem alike_putSlice (ascending : m.Ascending) (alike : Alike m s s' fileId) {batch first : String}
    {now : Instant} {c : SliceContent} (own : c.fileId = fileId)
    (done : s.putSlice (Staging.freshRow batch first now c) = .ok t)
    (done' : s'.putSlice (Staging.freshRow batch first now (m.content c)) = .ok t') :
    Alike m t t' fileId := by
  have occupied := alike.occupied_iff (b := batch) ascending own
  obtain ⟨-, ⟨old, rfl⟩ | ⟨none, rfl⟩⟩ := putSlice_cases done <;>
    obtain ⟨-, ⟨old', rfl⟩ | ⟨none', rfl⟩⟩ := putSlice_cases done'
  · exact ⟨alike.symbols, alike.map_slices (fileId_rewritten batch now c)
      (fileId_rewritten batch now (m.content c)) (rewritten_sliceRow ascending batch now c),
      alike.nextFile, alike.nextSymbol, alike.nextSlice.succ⟩
  · obtain ⟨r, mem, writer, here⟩ := occupied.2 old
    exact absurd writer (none' r mem here)
  · obtain ⟨r, mem, writer, here⟩ := occupied.1 old'
    exact absurd writer (none r mem here)
  · refine ⟨alike.symbols, ?_, alike.nextFile, alike.nextSymbol, alike.nextSlice.succ⟩
    have own' : (m.content c).fileId = m.file fileId := congrArg m.file own
    have new : m.sliceRow { Staging.freshRow batch first now c with id := s.lastSlice + 1 } =
        { Staging.freshRow batch first now (m.content c) with id := s'.lastSlice + 1 } := by
      rw [← alike.nextSlice.next]
      rfl
    calc
      _ = s'.slicesOf (m.file fileId) ++ [{ Staging.freshRow batch first now (m.content c) with
          id := s'.lastSlice + 1 }] := slicesOf_append rfl own'
      _ = (s.slicesOf fileId ++ [{ Staging.freshRow batch first now c with
          id := s.lastSlice + 1 }]).map m.sliceRow := by
        rw [alike.slices, List.map_append, List.map_singleton, new]
      _ = _ := congrArg _ (slicesOf_append rfl own).symm

end Store

namespace Staging

open Store

variable {q : StageRequest} {now : Instant} {m : Renaming} {fileId : Int} {ids ids' : SymbolIds}
  {s s' t t' : Store} {o p o' p' : StageOutcome}

theorem writeSymbol_alike (ascending : m.Ascending) (alike : Alike m s s' fileId) {y : Symbol}
    {id id' : Int} (done : writeSymbol q fileId s o y = .ok (t, o', id))
    (done' : writeSymbol q (m.file fileId) s' (m.outcome o) y = .ok (t', p', id')) :
    Alike m t t' fileId ∧ p' = m.outcome o' ∧ id' = m.symbol id := by
  obtain ⟨content, made, write⟩ := writeSymbol_cases done
  have row := alike.symbol y.symbolId
  simp only [writeSymbol, made, bind, Except.bind] at done'
  cases write with
  | confirm old found same =>
    rw [found, Option.map_some] at row
    simp only [row] at done'
    rw [if_pos (show (m.symbolRow old).content = content from same)] at done'
    cases done'
    exact ⟨alike_changeSymbol ascending alike old.id (fun _ => ⟨rfl, rfl, rfl⟩)
      (fun _ => ⟨rfl, rfl, rfl⟩) fun _ => rfl, rfl, rfl⟩
  | change old found differs =>
    rw [found, Option.map_some] at row
    simp only [row] at done'
    rw [if_neg (show (m.symbolRow old).content ≠ content from differs)] at done'
    cases done'
    exact ⟨alike_changeSymbol ascending alike old.id (fun _ => ⟨rfl, rfl, rfl⟩)
      (fun _ => ⟨rfl, rfl, rfl⟩) fun _ => rfl, rfl, rfl⟩
  | insert missing =>
    rw [missing, Option.map_none] at row
    simp only [row] at done'
    cases done'
    have same (id : Int) : m.symbolRow { symbolRow q fileId y content with id, parentId := none } =
        { symbolRow q (m.file fileId) y content with id := m.symbol id, parentId := none } := rfl
    obtain ⟨rows, number⟩ := alike_insertSymbol alike rfl same
    exact ⟨rows, rfl, number⟩

theorem writeSymbols_alike (ascending : m.Ascending) {symbols : List Symbol}
    (alike : Alike m s s' fileId) (done : writeSymbols q fileId symbols s o = .ok (t, o', ids))
    (done' : writeSymbols q (m.file fileId) symbols s' (m.outcome o) = .ok (t', p', ids')) :
    Alike m t t' fileId ∧ p' = m.outcome o' ∧ ids' = m.symbolIds ids := by
  induction symbols generalizing s s' o t o' ids t' p' ids' with
  | nil =>
    cases done
    cases done'
    exact ⟨alike, rfl, rfl⟩
  | cons y rest ih =>
    simp only [writeSymbols, bind_ok_iff] at done done'
    obtain ⟨⟨s1, o1, id⟩, first, ⟨s2, o2, more⟩, others, eq⟩ := done
    obtain ⟨⟨s1', o1', id'⟩, first', ⟨s2', o2', more'⟩, others', eq'⟩ := done'
    cases eq
    cases eq'
    obtain ⟨alike1, rfl, rfl⟩ := writeSymbol_alike ascending alike first first'
    obtain ⟨alike2, rfl, rfl⟩ := ih alike1 others others'
    exact ⟨alike2, rfl, rfl⟩

theorem find_symbolIds (m : Renaming) (ids : SymbolIds) (key : String) :
    (m.symbolIds ids).find? (·.1 = key) = (ids.find? (·.1 = key)).map fun e => (e.1, m.symbol e.2) := by
  rw [Renaming.symbolIds, List.find?_map]
  rfl

theorem rowOf_symbolIds (m : Renaming) (ids : SymbolIds) (key : Option String) :
    rowOf (m.symbolIds ids) key = (rowOf ids key).map (Option.map m.symbol) := by
  cases key with
  | none => rfl
  | some name =>
    simp only [rowOf, find_symbolIds]
    cases ids.find? (·.1 = name) <;> rfl

theorem linkParents_alike (ascending : m.Ascending) {symbols : List Symbol}
    (alike : Alike m s s' fileId) (done : linkParents ids symbols s = .ok t)
    (done' : linkParents (m.symbolIds ids) symbols s' = .ok t') : Alike m t t' fileId := by
  induction symbols generalizing s s' with
  | nil =>
    cases done
    cases done'
    exact alike
  | cons y rest ih =>
    simp only [linkParents, bind_ok_iff] at done done'
    obtain ⟨parent, resolved, done⟩ := done
    obtain ⟨parent', resolved', done'⟩ := done'
    rw [rowOf_symbolIds, resolved] at resolved'
    cases resolved'
    rw [find_symbolIds] at done'
    cases found : ids.find? (·.1 = y.symbolId) with
    | none =>
      simp only [found, Option.map_none] at done done'
      exact ih alike done done'
    | some e =>
      simp only [found, Option.map_some] at done done'
      refine ih ?_ done done'
      exact alike_changeSymbol ascending alike e.2 (fun _ => ⟨rfl, rfl, rfl⟩)
        (fun _ => ⟨rfl, rfl, rfl⟩) fun _ => rfl

theorem sliceContent_symbolIds (q : StageRequest) (m : Renaming) (fileId : Int) (ids : SymbolIds)
    (c : Chunk) : sliceContent q (m.file fileId) (m.symbolIds ids) c =
      (sliceContent q fileId ids c).map m.content := by
  simp only [sliceContent, rowOf_symbolIds]
  cases versionOf q (chunkHandler q c) with
  | error e => rfl
  | ok version =>
    cases rowOf ids c.parentSymbolId with
    | error e => rfl
    | ok symbolId => cases rowOf ids (c.metadata.str? "delegate_parent_symbol") <;> rfl

/-! ### Chunks -/

theorem newest_sliceRow (m : Renaming) (history : List Slice) (i : Nat) :
    newest? (history.map m.sliceRow) i = (newest? history i).map m.sliceRow := by
  rw [newest?, List.filter_map, List.getLast?_map]
  rfl

theorem mapM_map {α β γ : Type} (f : α → Option β) (g : β → γ) (l : List α) :
    l.mapM (fun a => (f a).map g) = (l.mapM f).map (List.map g) := by
  induction l with
  | nil => rfl
  | cons a rest ih =>
    rw [List.mapM_cons, List.mapM_cons, ih]
    cases f a with
    | none => rfl
    | some b => cases rest.mapM f <;> rfl

theorem newestRows_sliceRow (m : Renaming) (history : List Slice) (total : Nat) :
    newest (history.map m.sliceRow) total = (newest history total).map (List.map m.sliceRow) := by
  have each : newest? (history.map m.sliceRow) = fun i => (newest? history i).map m.sliceRow :=
    funext (newest_sliceRow m history)
  rw [newest, newest, each, mapM_map]

theorem unchanged_sliceRow (ascending : m.Ascending) (history : List Slice)
    (contents : List SliceContent) :
    unchanged? (history.map m.sliceRow) (contents.map m.content) =
      (unchanged? history contents).map (List.map m.sliceRow) := by
  have same (rows : List Slice) : (rows.map m.sliceRow).map (·.content) = contents.map m.content ↔
      rows.map (·.content) = contents := by
    have contents' : (rows.map m.sliceRow).map (·.content) = (rows.map (·.content)).map m.content := by
      rw [List.map_map, List.map_map]
      rfl
    rw [contents']
    exact (List.map_injective_iff.2 (Renaming.content_injective ascending)).eq_iff
  rw [unchanged?, unchanged?, List.length_map, newestRows_sliceRow]
  cases newest history contents.length with
  | none => rfl
  | some rows =>
    simp only [Option.map_some, Option.filter, same]
    split <;> rfl

/-- The earlier of two rows. -/
def earlier (best : Option Slice) (r : Slice) : Option Slice :=
  match best with
  | some b => if r.id < b.id then some r else some b
  | none => some r

theorem foldl_earlier (ascending : m.Ascending) (history : List Slice) (best : Option Slice) :
    (history.map m.sliceRow).foldl earlier (best.map m.sliceRow) =
      (history.foldl earlier best).map m.sliceRow := by
  induction history generalizing best with
  | nil => rfl
  | cons r rest ih =>
    rw [List.map_cons, List.foldl_cons, List.foldl_cons, ← ih]
    congr 1
    cases best with
    | none => rfl
    | some b =>
      have order : (m.sliceRow r).id < (m.sliceRow b).id ↔ r.id < b.id := ascending.slice.lt_iff_lt
      simp only [Option.map_some, earlier, order]
      split <;> rfl

theorem firstSeen_sliceRow (ascending : m.Ascending) (q : StageRequest) (history : List Slice) :
    firstSeen q (history.map m.sliceRow) = firstSeen q history := by
  have folded (history : List Slice) : firstSeen q history =
      match history.foldl earlier none with
      | some r => r.firstSeen
      | none => q.batchId := rfl
  have first := foldl_earlier ascending history none
  rw [Option.map_none] at first
  rw [folded, folded, first]
  cases history.foldl earlier none <;> rfl

theorem putAll_alike (ascending : m.Ascending) {batch first : String} {contents : List SliceContent}
    (alike : Alike m s s' fileId) (own : ∀ c ∈ contents, c.fileId = fileId)
    (done : putAll s (contents.map (freshRow batch first now)) = .ok t)
    (done' : putAll s' ((contents.map m.content).map (freshRow batch first now)) = .ok t') :
    Alike m t t' fileId := by
  induction contents generalizing s s' with
  | nil =>
    cases done
    cases done'
    exact alike
  | cons c rest ih =>
    obtain ⟨u, put, others⟩ := putAll_cons_iff.1 done
    obtain ⟨u', put', others'⟩ := putAll_cons_iff.1 done'
    obtain ⟨here, own⟩ := List.forall_mem_cons.1 own
    exact ih (alike_putSlice ascending alike here put put') own others others'

theorem contents_alike {g : ChunkGroup} {contents contents' : List SliceContent}
    (made : g.parts.mapM (sliceContent q fileId ids) = .ok contents)
    (made' : g.parts.mapM (sliceContent q (m.file fileId) (m.symbolIds ids)) = .ok contents') :
    contents' = contents.map m.content := by
  rw [mapM_ok_iff] at made made'
  have each : g.parts.map (sliceContent q (m.file fileId) (m.symbolIds ids)) =
      (g.parts.map (sliceContent q fileId ids)).map (Except.map m.content) := by
    rw [List.map_map]
    exact List.map_congr_left fun c _ => sliceContent_symbolIds q m fileId ids c
  rw [made', made, List.map_map] at each
  have inj : Function.Injective (Except.ok : SliceContent → Except Error SliceContent) :=
    fun a b same => Except.ok.inj same
  refine List.map_injective_iff.2 inj (each.trans ?_)
  rw [List.map_map]
  rfl

theorem file_of_contents {g : ChunkGroup} {contents : List SliceContent}
    (made : g.parts.mapM (sliceContent q fileId ids) = .ok contents) : ∀ c ∈ contents, c.fileId = fileId := by
  intro c mem
  have there : Except.ok c ∈ g.parts.map (sliceContent q fileId ids) :=
    mapM_ok_iff.1 made ▸ List.mem_map_of_mem mem
  obtain ⟨p, -, done⟩ := List.mem_map.1 there
  exact congrArg Prod.fst (sliceContent_columns done).1

theorem writeChunk_alike (ascending : m.Ascending) (alike : Alike m s s' fileId) {g : ChunkGroup}
    (done : writeChunk q now fileId ids s o g = .ok (t, o'))
    (done' : writeChunk q now (m.file fileId) (m.symbolIds ids) s' (m.outcome o) g = .ok (t', p')) :
    Alike m t t' fileId ∧ p' = m.outcome o' := by
  simp only [writeChunk, bind_ok_iff] at done done'
  obtain ⟨contents, made, done⟩ := done
  obtain ⟨contents', made', done'⟩ := done'
  obtain rfl := contents_alike made made'
  rw [alike.history, unchanged_sliceRow ascending] at done'
  cases kept : unchanged? (s.chunkHistory fileId g.chunkId) contents with
  | some rows =>
    simp only [kept, Option.map_some] at done done'
    cases done
    cases done'
    rw [List.length_map, List.map_map]
    have ids : List.map ((·.id) ∘ m.sliceRow) rows = (rows.map (·.id)).map m.slice := by
      rw [List.map_map]
      rfl
    refine ⟨?_, rfl⟩
    rw [ids]
    exact alike_confirm ascending alike (rows.map (·.id)) q.batchId now
  | none =>
    simp only [kept, Option.map_none, bind_ok_iff, List.length_map] at done done'
    obtain ⟨u, put, done⟩ := done
    obtain ⟨u', put', done'⟩ := done'
    cases done
    cases done'
    rw [firstSeen_sliceRow ascending] at put'
    exact ⟨putAll_alike ascending (alike_dropParts alike q.batchId g.chunkId contents.length)
      (file_of_contents made) put put', rfl⟩

theorem writeChunks_alike (ascending : m.Ascending) {groups : List ChunkGroup}
    (alike : Alike m s s' fileId) (done : writeChunks q now fileId ids groups s o = .ok (t, o'))
    (done' : writeChunks q now (m.file fileId) (m.symbolIds ids) groups s' (m.outcome o) = .ok (t', p')) :
    Alike m t t' fileId ∧ p' = m.outcome o' := by
  induction groups generalizing s s' o with
  | nil =>
    cases done
    cases done'
    exact ⟨alike, rfl⟩
  | cons g rest ih =>
    simp only [writeChunks, bind_ok_iff] at done done'
    obtain ⟨⟨u, o1⟩, first, others⟩ := done
    obtain ⟨⟨u', o1'⟩, first', others'⟩ := done'
    obtain ⟨alike', rfl⟩ := writeChunk_alike ascending alike first first'
    exact ih alike' others others'

/-- From stores that hold the same rows of the file up to the numbers, all else follows. -/
theorem stage_alike_of_file (ascending : m.Ascending) {u u' : Store} {id id' : Int}
    (file : s.upsertFile (fileInfo q) = .ok (u, id)) (file' : s'.upsertFile (fileInfo q) = .ok (u', id'))
    (number : id' = m.file id) (alike : Alike m u u' id) (done : stage s now q = .ok (t, o))
    (done' : stage s' now q = .ok (t', p)) : Alike m t t' o.fileId ∧ p = m.outcome o := by
  obtain ⟨groups, s1, i, s2, o2, ids, s3, grouped, made, symbols, links, chunks⟩ := stage_ok_iff.1 done
  obtain ⟨groups', s1', i', s2', o2', ids', s3', grouped', made', symbols', links', chunks'⟩ :=
    stage_ok_iff.1 done'
  cases file.symm.trans made
  cases file'.symm.trans made'
  cases grouped.symm.trans grouped'
  subst number
  obtain ⟨alike2, rfl, rfl⟩ := writeSymbols_alike ascending alike symbols symbols'
  have alike3 := linkParents_alike ascending alike2 links links'
  obtain ⟨alike4, rfl⟩ := writeChunks_alike ascending alike3 chunks chunks'
  have own : o.fileId = id := by
    rw [(writeChunks_tables chunks).2, (writeSymbols_rows symbols).2.2.1]
  exact ⟨own ▸ alike4, rfl⟩

end Staging

end SourceSlices
