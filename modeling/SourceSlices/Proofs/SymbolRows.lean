import SourceSlices.Proofs.Namesakes
import SourceSlices.Proofs.Renaming

/-!
Rows of symbols. A file has one row for each path of a symbol, and staging leaves in it what the result
says of the symbol, the batch that first inserted it and the row of its parent. Rows that the result
does not name stay as they are.
-/
namespace SourceSlices

namespace Store

variable {s t : Store} {fileId : Int} {path : String}

/-- No two symbols of a file share a path. -/
def Keyed (s : Store) : Prop := (s.symbols.map fun r => (r.fileId, r.path)).Nodup

theorem keyed_empty : empty.Keyed := List.nodup_nil

theorem keyed_changeSymbol (keyed : s.Keyed) (id : Int) (change : SymbolRow → SymbolRow)
    (keeps : KeepsKeys change) : (s.changeSymbol id change).Keyed := by
  have keys (r : SymbolRow) : ((if r.id = id then change r else r).fileId,
      (if r.id = id then change r else r).path) = (r.fileId, r.path) := by
    split
    · rw [(keeps r).2.1, (keeps r).2.2]
    · rfl
  simpa only [Keyed, changeSymbol, List.map_map, Function.comp_def, keys] using keyed

theorem keyed_insertSymbol (keyed : s.Keyed) {r : SymbolRow}
    (missing : s.symbol? r.fileId r.path = none) : (s.insertSymbol r).1.Keyed := by
  simp only [Keyed, insertSymbol, List.map_append, List.map_cons, List.map_nil]
  refine List.nodup_append.2 ⟨keyed, List.nodup_singleton _, ?_⟩
  intro a old b new same
  obtain ⟨x, mem, rfl⟩ := List.mem_map.1 old
  rw [List.mem_singleton.1 new, Prod.mk.injEq] at same
  exact List.find?_eq_none.1 missing x mem (decide_eq_true same)

theorem symbol_of_mem (keyed : s.Keyed) {r : SymbolRow} (mem : r ∈ s.symbols) :
    s.symbol? r.fileId r.path = some r := by
  cases found : s.symbol? r.fileId r.path with
  | none =>
    have apart := List.find?_eq_none.1 found r mem
    simp at apart
  | some x =>
    obtain ⟨there, file, named⟩ := symbol_found found
    rw [List.inj_on_of_nodup_map keyed there mem (Prod.ext file named)]

theorem mem_symbols_iff (keyed : s.Keyed) {r : SymbolRow} :
    r ∈ s.symbols ↔ s.symbol? r.fileId r.path = some r :=
  ⟨symbol_of_mem keyed, fun found => (symbol_found found).1⟩

theorem rows_of_symbol (keyed : s.Keyed) {r : SymbolRow} (found : s.symbol? fileId path = some r) :
    s.symbols.filter (fun x => x.fileId = fileId ∧ x.path = path) = [r] := by
  obtain ⟨mem, file, named⟩ := symbol_found found
  have distinct : s.symbols.Nodup := keyed.of_map
  have one : List.Perm (s.symbols.filter fun x => x.fileId = fileId ∧ x.path = path) [r] := by
    refine (List.perm_ext_iff_of_nodup (distinct.filter _) (List.nodup_singleton r)).2 ?_
    intro x
    rw [List.mem_filter, List.mem_singleton, decide_eq_true_eq]
    constructor
    · rintro ⟨there, rfl, rfl⟩
      exact Option.some.inj ((symbol_of_mem keyed there).symm.trans found)
    · rintro rfl
      exact ⟨mem, file, named⟩
  exact List.perm_singleton.1 one

theorem symbol_change (sound : s.Sound) {old : SymbolRow} (found : s.symbol? fileId path = some old)
    (change : SymbolRow → SymbolRow) (keeps : KeepsKeys change) (other : String) :
    (s.changeSymbol old.id change).symbol? fileId other =
      if other = path then some (change old) else s.symbol? fileId other := by
  rw [symbol_changeSymbol s old.id keeps]
  split
  · rename_i same
    simp [same, found]
  · rename_i away
    cases there : s.symbol? fileId other with
    | none => rfl
    | some r =>
      obtain ⟨mem, -, here⟩ := symbol_found there
      obtain ⟨mem', -, here'⟩ := symbol_found found
      have apart : r.id ≠ old.id := by
        intro same
        rw [symbol_eq_of_id sound mem mem' same] at here
        exact away (here.symm.trans here')
      rw [Option.map_some, if_neg apart]

theorem symbol_insert {r : SymbolRow} (missing : s.symbol? r.fileId r.path = none) (other : String) :
    (s.insertSymbol r).1.symbol? r.fileId other =
      if other = r.path then some { r with id := s.lastSymbol + 1, parentId := none }
      else s.symbol? r.fileId other := by
  simp only [symbol?] at missing ⊢
  simp only [insertSymbol, List.find?_append]
  split
  · rename_i same
    rw [same, missing]
    simp
  · rename_i away
    have apart : ¬ r.path = other := fun same => away same.symm
    simp [apart]

/-- The batch that a symbol is first seen in once a batch has written it. -/
def birth (s : Store) (fileId : Int) (path batch : String) : String :=
  ((s.symbol? fileId path).map (·.firstSeen)).getD batch

end Store

namespace Staging

open Store

variable {q : StageRequest} {now : Instant} {fileId : Int} {ids : SymbolIds} {s t : Store}
  {o o' : StageOutcome} {path : String}

/-! ### Writing symbols -/

/-- The row of a symbol once it has been written: its old one with new content, or a new one. -/
def rowAfter (q : StageRequest) (s : Store) (fileId : Int) (y : Symbol) (content : SymbolContent) :
    SymbolRow :=
  match s.symbol? fileId y.symbolId with
  | some old => { old with content, lastSeen := q.batchId }
  | none => { symbolRow q fileId y content with id := s.lastSymbol + 1 }

theorem writeSymbol_row {y : Symbol} {id : Int} (sound : s.Sound)
    (done : writeSymbol q fileId s o y = .ok (t, o', id)) :
    ∃ content, symbolContent q y = .ok content ∧ ∀ path, t.symbol? fileId path =
      if path = y.symbolId then some (rowAfter q s fileId y content) else s.symbol? fileId path := by
  obtain ⟨content, made, write⟩ := writeSymbol_cases done
  refine ⟨content, made, ?_⟩
  intro path
  cases write with
  | confirm old found same =>
    subst same
    simp only [rowAfter, found]
    exact symbol_change sound found (fun r => { r with lastSeen := q.batchId })
      (fun r => ⟨rfl, rfl, rfl⟩) path
  | change old found differs =>
    simp only [rowAfter, found]
    exact symbol_change sound found (fun r => { r with content, lastSeen := q.batchId })
      (fun r => ⟨rfl, rfl, rfl⟩) path
  | insert missing =>
    simp only [rowAfter, missing]
    exact symbol_insert missing path

/-- The row of a symbol that a request has written to a store, apart from its parent. -/
structure Refreshed (q : StageRequest) (s : Store) (fileId : Int) (y : Symbol) (r : SymbolRow) :
    Prop where
  content : symbolContent q y = .ok r.content
  lastSeen : r.lastSeen = q.batchId
  firstSeen : r.firstSeen = s.birth fileId y.symbolId q.batchId

theorem refreshed_rowAfter {y : Symbol} {content : SymbolContent}
    (made : symbolContent q y = .ok content) :
    Refreshed q s fileId y (rowAfter q s fileId y content) := by
  unfold rowAfter
  split <;> rename_i found <;> exact ⟨made, rfl, by simp [birth, found, symbolRow]⟩

/-- The row that a path is left with is that of the last symbol of this id. -/
theorem writeSymbols_row {symbols : List Symbol} (sound : s.Sound)
    (done : writeSymbols q fileId symbols s o = .ok (t, o', ids)) (path : String) :
    (∃ y ∈ symbols, y.symbolId = path ∧
        ∃ r, t.symbol? fileId path = some r ∧ Refreshed q s fileId y r) ∨
      (∀ y ∈ symbols, y.symbolId ≠ path) ∧ t.symbol? fileId path = s.symbol? fileId path := by
  induction symbols generalizing s o t o' ids with
  | nil =>
    cases done
    exact Or.inr ⟨by simp, rfl⟩
  | cons z rest ih =>
    simp only [writeSymbols, bind_ok_iff] at done
    obtain ⟨⟨s1, o1, id⟩, first, ⟨s2, o2, more⟩, others, eq⟩ := done
    cases eq
    obtain ⟨content, made, table⟩ := writeSymbol_row sound first
    -- Whether or not the first symbol has this id, the path is born as before.
    have born : s1.birth fileId path q.batchId = s.birth fileId path q.batchId := by
      unfold birth
      rw [table]
      split
      · rename_i own
        subst own
        have row : Refreshed q s fileId z (rowAfter q s fileId z content) := refreshed_rowAfter made
        exact row.firstSeen
      · rfl
    rcases ih (sound_writeSymbol sound first) others with ⟨y, mem, rfl, r, found, row⟩ | ⟨unnamed, kept⟩
    · exact Or.inl ⟨y, List.mem_cons_of_mem _ mem, rfl, r, found,
        row.content, row.lastSeen, row.firstSeen.trans born⟩
    · rw [table] at kept
      by_cases own : path = z.symbolId
      · subst own
        rw [if_pos rfl] at kept
        exact Or.inl ⟨z, List.mem_cons_self, rfl, _, kept, refreshed_rowAfter made⟩
      · rw [if_neg own] at kept
        exact Or.inr ⟨List.forall_mem_cons.2 ⟨fun same => own same.symm, unnamed⟩, kept⟩

theorem keyed_writeSymbols {symbols : List Symbol} (keyed : s.Keyed)
    (done : writeSymbols q fileId symbols s o = .ok (t, o', ids)) : t.Keyed := by
  induction symbols generalizing s o t o' ids with
  | nil =>
    cases done
    exact keyed
  | cons z rest ih =>
    simp only [writeSymbols, bind_ok_iff] at done
    obtain ⟨⟨s1, o1, id⟩, first, ⟨s2, o2, more⟩, others, eq⟩ := done
    cases eq
    refine ih ?_ others
    obtain ⟨content, -, write⟩ := writeSymbol_cases first
    cases write with
    | confirm old found same => exact keyed_changeSymbol keyed old.id _ fun r => ⟨rfl, rfl, rfl⟩
    | change old found differs => exact keyed_changeSymbol keyed old.id _ fun r => ⟨rfl, rfl, rfl⟩
    | insert missing => exact keyed_insertSymbol keyed missing

/-! ### Linking parents -/

theorem keyed_linkParents {symbols : List Symbol} (keyed : s.Keyed)
    (done : linkParents ids symbols s = .ok t) : t.Keyed := by
  induction symbols generalizing s with
  | nil =>
    cases done
    exact keyed
  | cons y rest ih =>
    simp only [linkParents, bind_ok_iff] at done
    obtain ⟨parent, -, done⟩ := done
    split at done
    · refine ih (keyed_changeSymbol keyed _ (fun r => { r with parentId := parent }) ?_) done
      exact fun r => ⟨rfl, rfl, rfl⟩
    · exact ih keyed done

/-- The last symbol of an id is also the one whose parent its row is linked to. -/
theorem linkParents_row {symbols : List Symbol} (sound : s.Sound) (own : Own s fileId ids)
    (listed : ∀ y ∈ symbols, y.symbolId ∈ ids.map (·.1)) (done : linkParents ids symbols s = .ok t)
    (path : String) :
    (∃ y ∈ symbols, y.symbolId = path ∧ ∃ parentId, rowOf ids y.parentId = .ok parentId ∧
        t.symbol? fileId path = (s.symbol? fileId path).map fun r => { r with parentId }) ∨
      (∀ y ∈ symbols, y.symbolId ≠ path) ∧ t.symbol? fileId path = s.symbol? fileId path := by
  induction symbols generalizing s with
  | nil =>
    cases done
    exact Or.inr ⟨by simp, rfl⟩
  | cons z rest ih =>
    obtain ⟨here, listed⟩ := List.forall_mem_cons.1 listed
    simp only [linkParents, bind_ok_iff] at done
    obtain ⟨parent, resolved, done⟩ := done
    split at done
    · rename_i e entry
      have named : e.1 = z.symbolId := by simpa using List.find?_some entry
      obtain ⟨old, found, same⟩ :=
        Option.map_eq_some_iff.1 (own e (List.mem_of_find?_eq_some entry))
      rw [named] at found
      rw [← same] at done
      have keeps : KeepsKeys fun r => { r with parentId := parent } := fun r => ⟨rfl, rfl, rfl⟩
      have table := symbol_change sound found _ keeps
      have own' : Own (s.changeSymbol old.id fun r => { r with parentId := parent }) fileId ids :=
        fun e' mem => (symbolId_changeSymbol s old.id keeps fileId e'.1).trans (own e' mem)
      have sound' := sound_changeSymbol sound old.id (fun r => { r with parentId := parent })
        fun r => rfl
      -- A later symbol of this id overrides the link; if there is none, this symbol is the last.
      rcases ih sound' own' listed done with
        ⟨y, mem, rfl, parentId, linked, row⟩ | ⟨unnamed, kept⟩
      · refine Or.inl ⟨y, List.mem_cons_of_mem _ mem, rfl, parentId, linked, ?_⟩
        rw [row, table]
        split
        · rename_i twice
          simp [twice, found]
        · rfl
      · rw [table] at kept
        by_cases mine : path = z.symbolId
        · subst mine
          rw [if_pos rfl] at kept
          exact Or.inl ⟨z, List.mem_cons_self, rfl, parent, resolved, by rw [kept, found]; rfl⟩
        · rw [if_neg mine] at kept
          exact Or.inr ⟨List.forall_mem_cons.2 ⟨fun same => mine same.symm, unnamed⟩, kept⟩
    · rename_i missing
      obtain ⟨e, mem, named⟩ := List.mem_map.1 here
      exact absurd named (by simpa using List.find?_eq_none.1 missing e mem)

/-- A row points to the row of the parent of its symbol, or nowhere if the symbol has no parent. -/
def PointsUp (s : Store) (fileId : Int) (y : Symbol) (r : SymbolRow) : Prop :=
  match y.parentId with
  | none => r.parentId = none
  | some path => ∃ p, s.symbol? fileId path = some p ∧ r.parentId = some p.id

theorem rowOf_own (own : Own s fileId ids) {y : Symbol} {r : SymbolRow}
    (resolved : rowOf ids y.parentId = .ok r.parentId) : PointsUp s fileId y r := by
  unfold PointsUp
  cases parent : y.parentId with
  | none =>
    simp only [parent, rowOf, Except.ok.injEq] at resolved
    exact resolved.symm
  | some path =>
    simp only [parent, rowOf] at resolved
    split at resolved
    · rename_i e entry
      have named : e.1 = path := by simpa using List.find?_some entry
      obtain ⟨p, found, same⟩ :=
        Option.map_eq_some_iff.1 (own e (List.mem_of_find?_eq_some entry))
      rw [named] at found
      refine ⟨p, found, ?_⟩
      rw [same]
      exact (Except.ok.inj resolved).symm
    · cases resolved

/-! ### Staging -/

theorem keyed_stage (keyed : s.Keyed) (done : stage s now q = .ok (t, o)) : t.Keyed := by
  obtain ⟨groups, s1, fileId, s2, o2, ids, s3, -, ⟨f, -, file⟩, symbols, links, chunks⟩ :=
    stage_steps done
  obtain ⟨-, symbols1, -, -⟩ := upsertFile_tables file
  have keyed1 : s1.Keyed := by rwa [Keyed, symbols1]
  have keyed3 := keyed_linkParents (keyed_writeSymbols keyed1 symbols) links
  rwa [Keyed, (writeChunks_tables chunks).1.symbols]

theorem stage_keepsSymbols (done : stage s now q = .ok (t, o)) : KeepsSymbols s t := by
  obtain ⟨groups, s1, fileId, s2, o2, ids, s3, -, ⟨f, -, file⟩, symbols, links, chunks⟩ :=
    stage_steps done
  obtain ⟨-, symbols1, -, -⟩ := upsertFile_tables file
  obtain ⟨-, keeps, -⟩ := writeSymbols_rows symbols
  obtain ⟨-, linked⟩ := linkParents_rows links
  intro file path id there
  have there1 : s1.symbolId? file path = some id := by
    simpa only [symbolId?, symbol?, symbols1] using there
  have there3 := (linked file path).trans (keeps file path id there1)
  simpa only [symbolId?, symbol?, (writeChunks_tables chunks).1.symbols] using there3

/-- A row keeps its number, whatever else is written to it. -/
theorem stage_symbol_stays (keyed : s.Keyed) (done : stage s now q = .ok (t, o)) {p : SymbolRow}
    (mem : p ∈ s.symbols) : ∃ p', t.symbol? p.fileId p.path = some p' ∧ p'.id = p.id := by
  have number : s.symbolId? p.fileId p.path = some p.id := by
    rw [symbolId?, symbol_of_mem keyed mem]
    rfl
  exact Option.map_eq_some_iff.1 (stage_keepsSymbols done p.fileId p.path p.id number)

/-- What staging makes of the row of a path: it is left with what the last symbol of this id says and
linked to the parent of that symbol. The rows of other paths and files stay. -/
theorem stage_row (sound : s.Sound) (done : stage s now q = .ok (t, o)) (fileId : Int)
    (path : String) :
    (fileId = o.fileId ∧ ∃ y ∈ q.result.symbols, y.symbolId = path ∧
        ∃ z ∈ q.result.symbols, z.symbolId = path ∧ ∃ r, t.symbol? fileId path = some r ∧
          Refreshed q s fileId y r ∧ PointsUp t fileId z r) ∨
      ¬ (fileId = o.fileId ∧ ∃ y ∈ q.result.symbols, y.symbolId = path) ∧
        t.symbol? fileId path = s.symbol? fileId path := by
  by_cases away : fileId = o.fileId
  · subst away
    obtain ⟨groups, s1, fileId, s2, o2, ids, s3, -, ⟨f, -, file⟩, symbols, links, chunks⟩ :=
      stage_steps done
    obtain ⟨sound1, -, symbols1, -, -⟩ := upsertFile_spec sound file
    obtain ⟨sound2, -, -, file2, rows, names⟩ := writeSymbols_spec sound1 symbols
    obtain ⟨tables, fileT⟩ := writeChunks_tables chunks
    have number : o.fileId = fileId := fileT.trans file2
    have first (p : String) : s1.symbol? fileId p = s.symbol? fileId p := by
      simp only [symbol?, symbols1]
    have last (p : String) : t.symbol? fileId p = s3.symbol? fileId p := by
      simp only [symbol?, tables.symbols]
    have own : Own s2 fileId ids := rows ▸ own_symbolRows s2 fileId _
    have ownT : Own t fileId ids := by
      intro e mem
      rw [symbolId?, last, ← symbolId?, (linkParents_rows links).2]
      exact own e mem
    have listed (y : Symbol) (mem : y ∈ q.result.symbols) : y.symbolId ∈ ids.map (·.1) :=
      names ▸ List.mem_map_of_mem mem
    rw [number, last, ← first]
    -- What the row says and where it points are settled by symbols of this id, or by none.
    rcases writeSymbols_row sound1 symbols path with ⟨y, mem, named, r, found, row⟩ | ⟨unnamed, kept⟩
    · rcases linkParents_row sound2 own listed links path with
        ⟨z, mem', named', parentId, resolved, linked⟩ | ⟨unnamed, -⟩
      · rw [found] at linked
        refine Or.inl ⟨rfl, y, mem, named, z, mem', named', _, linked, ⟨row.content, row.lastSeen, ?_⟩,
          rowOf_own ownT resolved⟩
        rw [row.firstSeen, birth, birth, first]
      · exact absurd named (unnamed y mem)
    · rcases linkParents_row sound2 own listed links path with ⟨z, mem', named', -⟩ | ⟨-, kept'⟩
      · exact absurd named' (unnamed z mem')
      · exact Or.inr ⟨fun both => both.2.elim fun y there => unnamed y there.1 there.2,
          kept'.trans kept⟩
  · refine Or.inr ⟨fun both => away both.1, ?_⟩
    rw [symbol_eq_find, symbol_eq_find, (stage_elsewhere sound done away).symbols]

end Staging

namespace Ledger

open Staging

/-- Symbols change only by a staging that succeeds. -/
theorem symbols_step (l : Ledger) (c : Call) :
    (l.step c).store.symbols = l.store.symbols ∧ (l.step c).staged = l.staged ∨
      ∃ now q t o, c = .stage now q ∧ stage l.store now q = .ok (t, o) ∧
        l.step c = ⟨t, l.staged ++ [⟨q, o.fileId⟩]⟩ := by
  cases c with
  | ensureBatch b =>
    left
    refine ⟨?_, rfl⟩
    simp only [step, Store.ensureBatch]
    split <;> rfl
  | dropBatch b =>
    left
    refine ⟨?_, rfl⟩
    simp only [step, Store.dropBatch]
    split <;> rfl
  | deleteSlices b => exact Or.inl ⟨rfl, rfl⟩
  | stage now q =>
    cases done : stage l.store now q with
    | error e =>
      left
      have same : l.step (.stage now q) = l := by simp only [step, done]
      rw [same]
      exact ⟨rfl, rfl⟩
    | ok result => exact Or.inr ⟨now, q, result.1, result.2, rfl, done, by simp only [step, done]⟩

/-- Every staged request is one of the calls. -/
theorem staged_called (calls : List Call) {e : Staged} (mem : e ∈ (after calls).staged) :
    ∃ now, Call.stage now e.request ∈ calls := by
  induction calls using List.reverseRecOn with
  | nil => cases mem
  | append_singleton calls c ih =>
    rw [after_snoc] at mem
    rcases symbols_step (after calls) c with ⟨-, same⟩ | ⟨now, q, t, o, rfl, -, next⟩
    · obtain ⟨now, called⟩ := ih (same ▸ mem)
      exact ⟨now, List.mem_append_left _ called⟩
    · rw [next] at mem
      rcases List.mem_append.1 mem with old | new
      · obtain ⟨now, called⟩ := ih old
        exact ⟨now, List.mem_append_left _ called⟩
      · obtain rfl := List.mem_singleton.1 new
        exact ⟨now, by simp⟩

theorem keyed_after (calls : List Call) : (after calls).store.Keyed := by
  refine after_induction (P := fun l => l.store.Keyed) Store.keyed_empty ?_ calls
  intro l c keyed
  rcases symbols_step l c with ⟨same, -⟩ | ⟨now, q, t, o, -, done, next⟩
  · rwa [Store.Keyed, same]
  · rw [next]
    exact keyed_stage keyed done

end Ledger

/-! ### A class that moves into a module -/

namespace Staging

/-- A file with symbols given by id, kind and parent. -/
def outline (batch : String) (symbols : List (String × String × Option String))
    (chunks : List Chunk) : StageRequest where
  batchId := batch
  handlerName := "python"
  handlerVersion := "1"
  versions := SortedMap.empty
  result := {
    file := { path := "a.py", language := "python", checksum := "" }
    symbols := symbols.map fun (id, kind, parentId) =>
      { symbolId := id, name := id, kind, startOffset := 0, endOffset := 0, parentId }
    chunks }

/-- A class with a method. -/
def outlined : List Call := twoBatches ++
  [.stage .epoch (outline "b1" [("m.C", "class", none), ("m.C.f", "method", some "m.C")] [])]

/-- The class has lost its method and stands below a module that is listed after it. -/
def movedClass : StageRequest :=
  outline "b2" [("m.C", "function", some "m"), ("m", "module", none)]
    [{ chunkId := "head", text := "class C:\n", tokenCount := 3, startOffset := 0, endOffset := 9
       parentSymbolId := some "m.C" },
     { chunkId := "body", text := "    x = [1]\n", tokenCount := 5, startOffset := 9, endOffset := 21
       parentSymbolId := some "m.C" }]

end Staging

end SourceSlices
