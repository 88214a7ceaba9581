import SourceSlices.Proofs.Renaming

/-!
Staging a file into a store and into one that has grown since, by other files. Old rows keep their
numbers, new ones get the numbers that follow in each store; the file looks the same in both.
-/
namespace SourceSlices

/-! ### Shifted numbers -/

/-- Keeps the numbers up to `a` and moves those above to follow `b`. -/
def shift (a b i : Int) : Int := if i ≤ a then i else i + (b - a)

variable {a b i : Int}

theorem shift_of_le (old : i ≤ a) : shift a b i = i := if_pos old

theorem follows_shift (a b : Int) : Follows (shift a b) a b := fun i above => if_neg (by omega)

theorem strictMono_shift (grown : a ≤ b) : StrictMono (shift a b) := by
  intro i j less
  unfold shift
  split <;> split <;> omega

namespace Renaming

/-- The numbers of a store, in another one that has all its rows. -/
def between (s t : Store) : Renaming where
  file := shift s.lastFile t.lastFile
  symbol := shift s.lastSymbol t.lastSymbol
  slice := shift s.lastSlice t.lastSlice

/-- Every row keeps its number. -/
def same : Renaming := ⟨id, id, id⟩

def comp (m n : Renaming) : Renaming := ⟨m.file ∘ n.file, m.symbol ∘ n.symbol, m.slice ∘ n.slice⟩

theorem symbolRow_same (r : SymbolRow) : same.symbolRow r = r := by
  simp [symbolRow, same]

theorem sliceRow_same (r : Slice) : same.sliceRow r = r := by
  simp [sliceRow, content, same]

variable {s t : Store} {m n : Renaming}

theorem symbolRow_comp (r : SymbolRow) : (m.comp n).symbolRow r = m.symbolRow (n.symbolRow r) := by
  simp [symbolRow, comp]

theorem sliceRow_comp (r : Slice) : (m.comp n).sliceRow r = m.sliceRow (n.sliceRow r) := by
  simp [sliceRow, content, comp]

/-- Two renamings agree on all numbers that a store has given. -/
structure Agree (s : Store) (m n : Renaming) : Prop where
  file : ∀ i ≤ s.lastFile, m.file i = n.file i
  symbol : ∀ i ≤ s.lastSymbol, m.symbol i = n.symbol i
  slice : ∀ i ≤ s.lastSlice, m.slice i = n.slice i

theorem agree_between (s t : Store) : Agree s (between s t) same :=
  ⟨fun _ => shift_of_le, fun _ => shift_of_le, fun _ => shift_of_le⟩

namespace Agree

variable (agree : Agree s m n) (sound : s.Sound) (referenced : s.Referenced)

include agree sound

theorem fileId {id : Int} (known : ∃ f ∈ s.files, f.id = id) : m.file id = n.file id := by
  obtain ⟨f, mem, rfl⟩ := known
  exact agree.file f.id (sound.fileNumbers f mem)

theorem symbolId {id : Option Int} (holds : s.HoldsSymbol id) : id.map m.symbol = id.map n.symbol := by
  cases id with
  | none => rfl
  | some i =>
    obtain ⟨r, mem, rfl⟩ := holds i rfl
    exact congrArg some (agree.symbol r.id (sound.symbolNumbers r mem))

include referenced

theorem symbolRow {r : SymbolRow} (mem : r ∈ s.symbols) : m.symbolRow r = n.symbolRow r := by
  simp only [Renaming.symbolRow, agree.symbol r.id (sound.symbolNumbers r mem),
    agree.fileId sound (referenced.symbolFiles r mem), agree.symbolId sound (referenced.parents r mem)]

theorem sliceRow {r : Slice} (mem : r ∈ s.slices) : m.sliceRow r = n.sliceRow r := by
  simp only [Renaming.sliceRow, Renaming.content, agree.slice r.id (sound.sliceNumbers r mem),
    agree.fileId sound (sound.sliceFiles r mem), agree.symbolId sound (referenced.owners r mem),
    agree.symbolId sound (referenced.delegating r mem)]

end Agree

end Renaming

namespace Store

variable {s t u : Store} {fileId : Int} {m : Renaming}

/-! ### Stores that have given more numbers -/

structure Grows (s t : Store) : Prop where
  file : s.lastFile ≤ t.lastFile
  symbol : s.lastSymbol ≤ t.lastSymbol
  slice : s.lastSlice ≤ t.lastSlice

theorem Grows.refl (s : Store) : Grows s s := ⟨Int.le_refl _, Int.le_refl _, Int.le_refl _⟩

theorem Grows.trans (first : Grows s t) (second : Grows t u) : Grows s u :=
  ⟨Int.le_trans first.file second.file, Int.le_trans first.symbol second.symbol,
    Int.le_trans first.slice second.slice⟩

theorem ascending_between (grows : Grows s t) : (Renaming.between s t).Ascending :=
  ⟨strictMono_shift grows.file, strictMono_shift grows.symbol, strictMono_shift grows.slice⟩

theorem grows_upsertFile {f : FileInfo} {id : Int} (done : s.upsertFile f = .ok (t, id)) :
    Grows s t := by
  unfold upsertFile at done
  split at done
  · split at done <;> cases done <;> exact ⟨Int.le_add_one (Int.le_refl _), Int.le_refl _, Int.le_refl _⟩
  · cases done

theorem grows_putSlice {c : Slice} (done : s.putSlice c = .ok t) : Grows s t := by
  obtain ⟨-, ⟨-, rfl⟩ | ⟨-, rfl⟩⟩ := putSlice_cases done <;>
    exact ⟨Int.le_refl _, Int.le_refl _, Int.le_add_one (Int.le_refl _)⟩

end Store

namespace Staging

open Store

variable {q : StageRequest} {now : Instant} {fileId : Int} {ids : SymbolIds} {s t : Store}
  {o o' : StageOutcome}

theorem grows_writeSymbols {symbols : List Symbol}
    (done : writeSymbols q fileId symbols s o = .ok (t, o', ids)) : Grows s t := by
  induction symbols generalizing s o t o' ids with
  | nil =>
    cases done
    exact Grows.refl _
  | cons y rest ih =>
    simp only [writeSymbols, bind_ok_iff] at done
    obtain ⟨⟨s1, o1, id⟩, first, ⟨s2, o2, more⟩, others, eq⟩ := done
    cases eq
    refine Grows.trans ?_ (ih others)
    obtain ⟨content, -, write⟩ := writeSymbol_cases first
    cases write with
    | confirm old found same => exact ⟨Int.le_refl _, Int.le_refl _, Int.le_refl _⟩
    | change old found differs => exact ⟨Int.le_refl _, Int.le_refl _, Int.le_refl _⟩
    | insert missing => exact ⟨Int.le_refl _, Int.le_add_one (Int.le_refl _), Int.le_refl _⟩

theorem grows_linkParents {symbols : List Symbol} (done : linkParents ids symbols s = .ok t) :
    Grows s t := by
  induction symbols generalizing s with
  | nil =>
    cases done
    exact Grows.refl _
  | cons y rest ih =>
    simp only [linkParents, bind_ok_iff] at done
    obtain ⟨parent, -, done⟩ := done
    split at done
    · obtain ⟨file, symbol, slice⟩ := ih done
      exact ⟨file, symbol, slice⟩
    · exact ih done

theorem grows_putAll {rows : List Slice} (done : putAll s rows = .ok t) : Grows s t := by
  induction rows generalizing s with
  | nil =>
    cases done
    exact Grows.refl _
  | cons c rest ih =>
    obtain ⟨u, put, others⟩ := putAll_cons_iff.1 done
    exact (grows_putSlice put).trans (ih others)

theorem grows_writeChunks {groups : List ChunkGroup}
    (done : writeChunks q now fileId ids groups s o = .ok (t, o')) : Grows s t := by
  induction groups generalizing s o with
  | nil =>
    cases done
    exact Grows.refl _
  | cons g rest ih =>
    simp only [writeChunks, bind_ok_iff] at done
    obtain ⟨⟨u, o1⟩, first, others⟩ := done
    refine Grows.trans ?_ (ih others)
    obtain ⟨-, contents, -, ⟨rows, -, rfl⟩ | ⟨-, first, put⟩⟩ := writeChunk_cases first
    · exact ⟨Int.le_refl _, Int.le_refl _, Int.le_refl _⟩
    · obtain ⟨file, symbol, slice⟩ := grows_putAll put
      exact ⟨file, symbol, slice⟩

theorem grows_stage (done : stage s now q = .ok (t, o)) : Grows s t := by
  obtain ⟨groups, s1, fileId, s2, o2, ids, s3, -, ⟨f, -, file⟩, symbols, links, chunks⟩ :=
    stage_steps done
  exact (grows_upsertFile file).trans ((grows_writeSymbols symbols).trans
    ((grows_linkParents links).trans (grows_writeChunks chunks)))

end Staging

/-! ### The rows of one file -/

namespace Store

variable {s t u u' : Store} {fileId : Int} {m : Renaming} {f : FileInfo}

theorem slicesOf_ascending (sound : s.Sound) (fileId : Int) :
    (s.slicesOf fileId).Pairwise (·.id < ·.id) :=
  sound.sliceOrder.filter _

theorem SameFile.slicesOf (same : SameFile s t fileId) (sound : s.Sound) (soundT : t.Sound) :
    t.slicesOf fileId = s.slicesOf fileId := by
  have distinct {s : Store} (sound : s.Sound) : (s.slicesOf fileId).Nodup :=
    (slicesOf_ascending sound fileId).imp fun {a b} less eq => Int.ne_of_lt less (congrArg Slice.id eq)
  have members {s : Store} (r : Slice) :
      r ∈ s.slicesOf fileId ↔ r ∈ s.rowsAt r.slot ∧ r.content.fileId = fileId := by
    simp [mem_slicesOf, mem_rowsAt]
  have perm : (t.slicesOf fileId).Perm (s.slicesOf fileId) := by
    refine (List.perm_ext_iff_of_nodup (distinct soundT) (distinct sound)).2 fun r => ?_
    rw [members, members]
    exact and_congr_left fun own => by rw [same.slices r.slot own]
  exact perm.eq_of_pairwise (fun _ _ _ _ ab ba => absurd ab (Int.lt_asymm ba))
    (slicesOf_ascending soundT fileId) (slicesOf_ascending sound fileId)

theorem symbolsOf_new (sound : s.Sound) (referenced : s.Referenced) (new : s.lastFile < fileId) :
    s.symbolsOf fileId = [] := by
  refine List.filter_eq_nil_iff.2 fun r mem own => ?_
  obtain ⟨f, inside, same⟩ := referenced.symbolFiles r mem
  have := sound.fileNumbers f inside
  have := of_decide_eq_true own
  omega

theorem slicesOf_new (sound : s.Sound) (new : s.lastFile < fileId) : s.slicesOf fileId = [] := by
  refine List.filter_eq_nil_iff.2 fun r mem own => ?_
  obtain ⟨f, inside, same⟩ := sound.sliceFiles r mem
  have := sound.fileNumbers f inside
  have := of_decide_eq_true own
  omega

/-- A store that has kept the rows of a file holds them under their old numbers. -/
theorem alike_of_sameFile (sound : s.Sound) (referenced : s.Referenced) (soundT : t.Sound)
    (same : SameFile s t fileId) (known : ∃ f ∈ s.files, f.id = fileId) :
    Alike (Renaming.between s t) s t fileId := by
  have agree := Renaming.agree_between s t
  have number : (Renaming.between s t).file fileId = fileId := agree.fileId sound known
  refine ⟨?_, ?_, follows_shift _ _, follows_shift _ _, follows_shift _ _⟩
  · rw [number, same.symbols]
    refine (List.map_id _).symm.trans (List.map_congr_left fun r mem => ?_)
    rw [agree.symbolRow sound referenced (List.mem_filter.1 mem).1, Renaming.symbolRow_same]
    rfl
  · rw [number, same.slicesOf sound soundT]
    refine (List.map_id _).symm.trans (List.map_congr_left fun r mem => ?_)
    rw [agree.sliceRow sound referenced (mem_slicesOf.1 mem).1, Renaming.sliceRow_same]
    rfl

/-- Recording a file in both stores gives it the same number, or the next one of each. -/
theorem upsertFile_alike (sound : s.Sound) (referenced : s.Referenced) (soundT : t.Sound)
    (referencedT : t.Referenced) (kept : Keeps s t f.path) {id id' : Int}
    (done : s.upsertFile f = .ok (u, id)) (done' : t.upsertFile f = .ok (u', id')) :
    id' = (Renaming.between s t).file id ∧ Alike (Renaming.between s t) u u' id := by
  have record : t.fileId? f.path = s.fileId? f.path := by rw [fileId?, kept.record, fileId?]
  unfold upsertFile at done done'
  split at done
  · split at done'
    · rw [record] at done'
      cases found : s.fileId? f.path with
      | some old =>
        simp only [found] at done done'
        cases done
        cases done'
        have known := fileId_mem found
        obtain ⟨symbols, slices, nextFile, nextSymbol, nextSlice⟩ :=
          alike_of_sameFile sound referenced soundT (kept.rows _ found) known
        exact ⟨((Renaming.agree_between s t).fileId sound known).symm,
          symbols, slices, nextFile.succ, nextSymbol, nextSlice⟩
      | none =>
        simp only [found] at done done'
        cases done
        cases done'
        -- A new file gets the next number in either store, and has no rows in it yet.
        have next : (Renaming.between s t).file (s.lastFile + 1) = t.lastFile + 1 :=
          (follows_shift _ _).next
        refine ⟨next.symm, ?_, ?_, (follows_shift _ _).succ, follows_shift _ _, follows_shift _ _⟩
        · rw [next]
          have none := symbolsOf_new sound referenced (Int.lt_succ s.lastFile)
          have none' := symbolsOf_new soundT referencedT (Int.lt_succ t.lastFile)
          exact none'.trans (congrArg (List.map (Renaming.between s t).symbolRow) none).symm
        · rw [next]
          have none := slicesOf_new sound (Int.lt_succ s.lastFile)
          have none' := slicesOf_new soundT (Int.lt_succ t.lastFile)
          exact none'.trans (congrArg (List.map (Renaming.between s t).sliceRow) none).symm
    · cases done'
  · cases done

/-! ### What a batch shows -/

theorem fileSlices_eq (s : Store) (batch : String) (fileId : Int) :
    s.fileSlices batch fileId = ((s.slicesOf fileId).filter fun c => c.isSeenIn batch &&
      (s.slicesOf fileId).all fun v =>
        !(v.isSeenIn batch && v.slot = c.slot) || v.id ≤ c.id).mergeSort byChunk := by
  rw [fileSlices, visibleIn, List.filter_filter, slicesOf, List.filter_filter]
  congr 1
  refine List.filter_congr fun c _ => ?_
  by_cases own : c.content.fileId = fileId
  · -- A row in the slot of `c` belongs to its file.
    have inside : s.isNewestIn batch c = (s.slicesOf fileId).all fun v =>
        !(v.isSeenIn batch && v.slot = c.slot) || v.id ≤ c.id := by
      rw [isNewestIn, slicesOf, List.all_filter]
      refine congrArg s.slices.all (funext fun v => ?_)
      by_cases here : v.slot = c.slot
      · have file : v.content.fileId = fileId := (congrArg Prod.fst here).trans own
        simp [file]
      · simp [here]
    simp only [own, decide_true, Bool.true_and, Bool.and_true, inside, slicesOf]
  · simp [own]

theorem Alike.fileSlices (ascending : m.Ascending) (alike : Alike m s t fileId) (batch : String) :
    t.fileSlices batch (m.file fileId) = (s.fileSlices batch fileId).map m.sliceRow := by
  have newest (c : Slice) : ((s.slicesOf fileId).map m.sliceRow).all (fun v =>
        !(v.isSeenIn batch && v.slot = (m.sliceRow c).slot) || v.id ≤ (m.sliceRow c).id) =
      (s.slicesOf fileId).all fun v => !(v.isSeenIn batch && v.slot = c.slot) || v.id ≤ c.id := by
    rw [List.all_map]
    refine congrArg (s.slicesOf fileId).all (funext fun v => ?_)
    have slot : (m.sliceRow v).slot = (m.sliceRow c).slot ↔ v.slot = c.slot := slot_sliceRow_iff ascending
    have order : (m.sliceRow v).id ≤ (m.sliceRow c).id ↔ v.id ≤ c.id := ascending.slice.le_iff_le
    simp only [Function.comp, slot, order]
    rfl
  rw [fileSlices_eq, fileSlices_eq, alike.slices, List.filter_map, List.map_mergeSort]
  · simp only [Function.comp_def, newest]
    rfl
  · exact fun _ _ _ _ => rfl

end Store

namespace Staging

open Store

variable {q : StageRequest} {now : Instant} {s s' t t' : Store} {o p : StageOutcome}

theorem stage_record (done : stage s now q = .ok (t, o)) :
    t.file? (repoPath q) = some ⟨o.fileId, fileInfo q⟩ := by
  obtain ⟨groups, s1, i, s2, o2, ids, s3, -, file, symbols, links, chunks⟩ := stage_ok_iff.1 done
  obtain ⟨same2, -, number, -⟩ := writeSymbols_rows symbols
  obtain ⟨same3, -⟩ := linkParents_rows links
  obtain ⟨same4, number'⟩ := writeChunks_tables chunks
  have own : o.fileId = i := number'.trans number
  rw [file?, same4.files, same3.files, same2.files, own]
  exact upsertFile_file file

/-- Staging a file does the same in a store that has grown by other files: it leaves the same record and
the same rows of the file, and counts the same. -/
theorem stage_grown (sound : s.Sound) (referenced : s.Referenced) (sound' : s'.Sound)
    (referenced' : s'.Referenced) (grows : Grows s s') (kept : Keeps s s' (repoPath q))
    (done : stage s now q = .ok (t, o)) (done' : stage s' now q = .ok (t', p)) :
    Alike (Renaming.between s s') t t' o.fileId ∧ p = (Renaming.between s s').outcome o ∧
      t'.file? (repoPath q) = (t.file? (repoPath q)).map (Renaming.between s s').fileRow := by
  have ascending := ascending_between grows
  obtain ⟨-, u, i, -, -, -, -, -, file, -⟩ := stage_ok_iff.1 done
  obtain ⟨-, u', i', -, -, -, -, -, file', -⟩ := stage_ok_iff.1 done'
  obtain ⟨number, alike⟩ := upsertFile_alike sound referenced sound' referenced' kept file file'
  obtain ⟨rows, counts⟩ := stage_alike_of_file ascending file file' number alike done done'
  refine ⟨rows, counts, ?_⟩
  rw [stage_record done, stage_record done', counts]
  rfl

end Staging

end SourceSlices
