import SourceSlices.Proofs.ChunkGroups
import SourceSlices.Proofs.Slots
import SourceSlices.Staging

/-!
Symbols while a file is staged. Every symbol of the result gets a row, rows keep their numbers, and
the other tables are left alone.
-/
namespace SourceSlices

namespace Store

/-- The number of the row of a symbol. -/
def symbolId? (s : Store) (fileId : Int) (path : String) : Option Int :=
  (s.symbol? fileId path).map (·.id)

/-- Two stores that differ in their symbols only. -/
structure SameButSymbols (s t : Store) : Prop where
  batches : t.batches = s.batches
  files : t.files = s.files
  slices : t.slices = s.slices

theorem sameButSymbols_trans {s t u : Store} (st : SameButSymbols s t) (tu : SameButSymbols t u) :
    SameButSymbols s u :=
  ⟨tu.1.trans st.1, tu.2.trans st.2, tu.3.trans st.3⟩

/-- No symbol loses its row, and no row changes its number. -/
def KeepsSymbols (s t : Store) : Prop :=
  ∀ fileId path id, s.symbolId? fileId path = some id → t.symbolId? fileId path = some id

/-- A change of a row that keeps its number, its file and its path. -/
def KeepsKeys (change : SymbolRow → SymbolRow) : Prop :=
  ∀ r, (change r).id = r.id ∧ (change r).fileId = r.fileId ∧ (change r).path = r.path

theorem symbol_changeSymbol (s : Store) (id : Int) {change : SymbolRow → SymbolRow}
    (keeps : KeepsKeys change) (fileId : Int) (path : String) :
    (s.changeSymbol id change).symbol? fileId path =
      (s.symbol? fileId path).map fun r => if r.id = id then change r else r := by
  have keys (r : SymbolRow) :
      (if r.id = id then change r else r).fileId = r.fileId ∧
        (if r.id = id then change r else r).path = r.path := by
    split
    · exact (keeps r).2
    · exact ⟨rfl, rfl⟩
  simp only [symbol?, changeSymbol, List.find?_map, Function.comp_def, keys]

theorem symbolId_changeSymbol (s : Store) (id : Int) {change : SymbolRow → SymbolRow}
    (keeps : KeepsKeys change) (fileId : Int) (path : String) :
    (s.changeSymbol id change).symbolId? fileId path = s.symbolId? fileId path := by
  have ids (r : SymbolRow) : (if r.id = id then change r else r).id = r.id := by
    split
    · exact (keeps r).1
    · rfl
  simp only [symbolId?, symbol_changeSymbol s id keeps, Option.map_map, Function.comp_def, ids]

theorem changeSymbol_spec {s : Store} (sound : s.Sound) (id : Int) (change : SymbolRow → SymbolRow)
    (keeps : KeepsKeys change) :
    (s.changeSymbol id change).Sound ∧ SameButSymbols s (s.changeSymbol id change) ∧
      ∀ f p, (s.changeSymbol id change).symbolId? f p = s.symbolId? f p :=
  ⟨sound_changeSymbol sound id change fun r => (keeps r).1, ⟨rfl, rfl, rfl⟩,
    symbolId_changeSymbol s id keeps⟩

theorem symbolId_insertSymbol_of_some {s : Store} {r : SymbolRow} {fileId : Int} {path : String}
    {id : Int} (there : s.symbolId? fileId path = some id) :
    (s.insertSymbol r).1.symbolId? fileId path = some id := by
  simp only [symbolId?, symbol?, Option.map_eq_some_iff] at there
  obtain ⟨old, found, same⟩ := there
  simp only [symbolId?, symbol?, insertSymbol, List.find?_append, found, Option.some_or,
    Option.map_some, same]

theorem symbolId_insertSymbol_new {s : Store} {r : SymbolRow}
    (missing : s.symbol? r.fileId r.path = none) :
    (s.insertSymbol r).1.symbolId? r.fileId r.path = some (s.insertSymbol r).2 := by
  simp only [symbol?] at missing
  simp only [symbolId?, symbol?, insertSymbol, List.find?_append, missing, Option.none_or]
  simp

end Store

namespace Staging

open Store

variable {q : StageRequest} {fileId : Int} {s t : Store} {o o' : StageOutcome}

/-- The rows that a store holds for the symbols of a result. -/
def symbolRows (s : Store) (fileId : Int) (symbols : List Symbol) : SymbolIds :=
  symbols.filterMap fun y => (s.symbolId? fileId y.symbolId).map (y.symbolId, ·)

/-- The row that a new symbol gets. -/
def symbolRow (q : StageRequest) (fileId : Int) (y : Symbol) (content : SymbolContent) : SymbolRow :=
  { id := 0, fileId, path := y.symbolId, content, firstSeen := q.batchId, lastSeen := q.batchId }

/-- What writing a symbol makes of the store and the counts: its row is confirmed or changed, or it
gets a new one. -/
inductive SymbolWrite (q : StageRequest) (fileId : Int) (s : Store) (o : StageOutcome) (y : Symbol)
    (content : SymbolContent) : Store → StageOutcome → Int → Prop where
  | confirm (old : SymbolRow) (found : s.symbol? fileId y.symbolId = some old)
      (same : old.content = content) :
      SymbolWrite q fileId s o y content
        (s.changeSymbol old.id fun r => { r with lastSeen := q.batchId })
        { o with symbolsReused := o.symbolsReused + 1 } old.id
  | change (old : SymbolRow) (found : s.symbol? fileId y.symbolId = some old)
      (differs : old.content ≠ content) :
      SymbolWrite q fileId s o y content
        (s.changeSymbol old.id fun r => { r with content, lastSeen := q.batchId })
        { o with symbolsWritten := o.symbolsWritten + 1 } old.id
  | insert (missing : s.symbol? fileId y.symbolId = none) :
      SymbolWrite q fileId s o y content (s.insertSymbol (symbolRow q fileId y content)).1
        { o with symbolsWritten := o.symbolsWritten + 1 }
        (s.insertSymbol (symbolRow q fileId y content)).2

theorem writeSymbol_cases {y : Symbol} {id : Int}
    (done : writeSymbol q fileId s o y = .ok (t, o', id)) :
    ∃ content, symbolContent q y = .ok content ∧ SymbolWrite q fileId s o y content t o' id := by
  simp only [writeSymbol, bind_ok_iff] at done
  obtain ⟨content, made, done⟩ := done
  refine ⟨content, made, ?_⟩
  cases found : s.symbol? fileId y.symbolId with
  | some old =>
    simp only [found] at done
    split at done <;> rename_i same <;> cases done
    · exact .confirm old found same
    · exact .change old found same
  | none =>
    simp only [found] at done
    cases done
    exact .insert found

/-- Writing a symbol gives it a row and changes the counts of symbols only. -/
theorem writeSymbol_rows {y : Symbol} {id : Int}
    (done : writeSymbol q fileId s o y = .ok (t, o', id)) :
    SameButSymbols s t ∧ KeepsSymbols s t ∧ t.symbolId? fileId y.symbolId = some id ∧
      o'.fileId = o.fileId := by
  have changed {old : SymbolRow} (found : s.symbol? fileId y.symbolId = some old)
      (change : SymbolRow → SymbolRow) (keeps : KeepsKeys change) :
      SameButSymbols s (s.changeSymbol old.id change) ∧ KeepsSymbols s (s.changeSymbol old.id change) ∧
        (s.changeSymbol old.id change).symbolId? fileId y.symbolId = some old.id := by
    have rows := symbolId_changeSymbol s old.id keeps
    have row : s.symbolId? fileId y.symbolId = some old.id := by simp [symbolId?, found]
    exact ⟨⟨rfl, rfl, rfl⟩, fun f p i there => (rows f p).trans there, (rows _ _).trans row⟩
  obtain ⟨content, -, write⟩ := writeSymbol_cases done
  cases write with
  | confirm old found same =>
    obtain ⟨tables, keeps, row⟩ := changed found (fun r => { r with lastSeen := q.batchId })
      fun r => ⟨rfl, rfl, rfl⟩
    exact ⟨tables, keeps, row, rfl⟩
  | change old found differs =>
    obtain ⟨tables, keeps, row⟩ := changed found (fun r => { r with content, lastSeen := q.batchId })
      fun r => ⟨rfl, rfl, rfl⟩
    exact ⟨tables, keeps, row, rfl⟩
  | insert missing =>
    exact ⟨⟨rfl, rfl, rfl⟩, fun f p i there => symbolId_insertSymbol_of_some there,
      symbolId_insertSymbol_new missing, rfl⟩

theorem sound_writeSymbol {y : Symbol} {id : Int} (sound : s.Sound)
    (done : writeSymbol q fileId s o y = .ok (t, o', id)) : t.Sound := by
  obtain ⟨content, -, write⟩ := writeSymbol_cases done
  cases write with
  | confirm old found same => exact sound_changeSymbol sound _ _ fun _ => rfl
  | change old found differs => exact sound_changeSymbol sound _ _ fun _ => rfl
  | insert missing => exact sound_insertSymbol sound _

theorem writeSymbols_rows {symbols : List Symbol} {ids : SymbolIds}
    (done : writeSymbols q fileId symbols s o = .ok (t, o', ids)) :
    SameButSymbols s t ∧ KeepsSymbols s t ∧ o'.fileId = o.fileId ∧
      ids = symbolRows t fileId symbols ∧ ids.map (·.1) = symbols.map (·.symbolId) := by
  induction symbols generalizing s o t o' ids with
  | nil =>
    cases done
    exact ⟨⟨rfl, rfl, rfl⟩, fun _ _ _ there => there, rfl, rfl, rfl⟩
  | cons y rest ih =>
    simp only [writeSymbols, bind_ok_iff] at done
    obtain ⟨⟨s1, o1, id⟩, first, ⟨s2, o2, more⟩, others, eq⟩ := done
    cases eq
    obtain ⟨same1, keeps1, row, file1⟩ := writeSymbol_rows first
    obtain ⟨same2, keeps2, file2, rows, names⟩ := ih others
    refine ⟨sameButSymbols_trans same1 same2,
      fun f p i there => keeps2 f p i (keeps1 f p i there), file2.trans file1, ?_, by simp [names]⟩
    simp only [symbolRows, List.filterMap_cons, keeps2 _ _ _ row, Option.map_some]
    exact congrArg _ rows

theorem sound_writeSymbols {symbols : List Symbol} {ids : SymbolIds} (sound : s.Sound)
    (done : writeSymbols q fileId symbols s o = .ok (t, o', ids)) : t.Sound := by
  induction symbols generalizing s o t o' ids with
  | nil =>
    cases done
    exact sound
  | cons y rest ih =>
    simp only [writeSymbols, bind_ok_iff] at done
    obtain ⟨⟨s1, o1, id⟩, first, ⟨s2, o2, more⟩, others, eq⟩ := done
    cases eq
    exact ih (sound_writeSymbol sound first) others

theorem writeSymbols_spec {symbols : List Symbol} {ids : SymbolIds} (sound : s.Sound)
    (done : writeSymbols q fileId symbols s o = .ok (t, o', ids)) :
    t.Sound ∧ SameButSymbols s t ∧ KeepsSymbols s t ∧ o'.fileId = o.fileId ∧
      ids = symbolRows t fileId symbols ∧ ids.map (·.1) = symbols.map (·.symbolId) :=
  ⟨sound_writeSymbols sound done, writeSymbols_rows done⟩

/-- All ids are those of rows of the file. -/
def Own (s : Store) (fileId : Int) (ids : SymbolIds) : Prop :=
  ∀ e ∈ ids, s.symbolId? fileId e.1 = some e.2

theorem own_symbolRows (s : Store) (fileId : Int) (symbols : List Symbol) :
    Own s fileId (symbolRows s fileId symbols) := by
  intro e mem
  obtain ⟨y, -, made⟩ := List.mem_filterMap.1 mem
  obtain ⟨id, there, rfl⟩ := Option.map_eq_some_iff.1 made
  exact there

theorem linkParents_rows {ids : SymbolIds} {symbols : List Symbol}
    (done : linkParents ids symbols s = .ok t) :
    SameButSymbols s t ∧ ∀ f p, t.symbolId? f p = s.symbolId? f p := by
  induction symbols generalizing s with
  | nil =>
    cases done
    exact ⟨⟨rfl, rfl, rfl⟩, fun _ _ => rfl⟩
  | cons y rest ih =>
    simp only [linkParents, bind_ok_iff] at done
    obtain ⟨parent, -, done⟩ := done
    split at done
    · rename_i e _
      have keeps : KeepsKeys fun r => { r with parentId := parent } := fun r => ⟨rfl, rfl, rfl⟩
      obtain ⟨same, rows⟩ := ih done
      exact ⟨⟨same.1, same.2, same.3⟩,
        fun f p => (rows f p).trans (symbolId_changeSymbol s e.2 keeps f p)⟩
    · exact ih done

theorem sound_linkParents {ids : SymbolIds} {symbols : List Symbol} (sound : s.Sound)
    (done : linkParents ids symbols s = .ok t) : t.Sound := by
  induction symbols generalizing s with
  | nil =>
    cases done
    exact sound
  | cons y rest ih =>
    simp only [linkParents, bind_ok_iff] at done
    obtain ⟨parent, -, done⟩ := done
    split at done
    · rename_i e _
      exact ih (sound_changeSymbol sound e.2 (fun r => { r with parentId := parent }) fun _ => rfl)
        done
    · exact ih sound done

theorem linkParents_spec {ids : SymbolIds} {symbols : List Symbol} (sound : s.Sound)
    (done : linkParents ids symbols s = .ok t) :
    t.Sound ∧ SameButSymbols s t ∧ ∀ f p, t.symbolId? f p = s.symbolId? f p :=
  ⟨sound_linkParents sound done, linkParents_rows done⟩

end Staging

end SourceSlices
