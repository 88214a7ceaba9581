import SourceSlices.Languages
import SourceSlices.Proofs.OtherBatches
import SourceSlices.Proofs.Restaging
import SourceSlices.Run.Batch

/-!
Symbols that share an id. They share one row of the store, which is left with what the last of them
says; when the same result is staged once more, each of them finds there what the one before it has
left. All of them are confirmed exactly if they say the same.
-/
namespace SourceSlices

namespace Store

/-! ### Contents of symbols -/

/-- What the row of a symbol says. -/
def symbolContent? (s : Store) (fileId : Int) (path : String) : Option SymbolContent :=
  (s.symbol? fileId path).map (·.content)

variable {s t : Store} {fileId : Int} {path : String}

theorem symbol_eq_of_id (sound : s.Sound) {a b : SymbolRow} (ha : a ∈ s.symbols) (hb : b ∈ s.symbols)
    (same : a.id = b.id) : a = b := by
  have distinct : (s.symbols.map (·.id)).Nodup :=
    List.pairwise_map.2 (sound.symbolOrder.imp Int.ne_of_lt)
  exact List.inj_on_of_nodup_map distinct ha hb same

theorem symbol_found {r : SymbolRow} (found : s.symbol? fileId path = some r) :
    r ∈ s.symbols ∧ r.fileId = fileId ∧ r.path = path :=
  ⟨List.mem_of_find?_eq_some found, by simpa [symbol?] using List.find?_some found⟩

theorem symbolContent_keep (s : Store) (id : Int) (change : SymbolRow → SymbolRow)
    (keeps : KeepsKeys change) (same : ∀ r, (change r).content = r.content) (fileId : Int)
    (path : String) :
    (s.changeSymbol id change).symbolContent? fileId path = s.symbolContent? fileId path := by
  have content (r : SymbolRow) : (if r.id = id then change r else r).content = r.content := by
    split
    · exact same r
    · rfl
  simp only [symbolContent?, symbol_changeSymbol s id keeps, Option.map_map, Function.comp_def, content]

/-- Changing the row of a symbol changes what is found under its own path. -/
theorem symbolContent_change (sound : s.Sound) {old : SymbolRow}
    (found : s.symbol? fileId path = some old) (change : SymbolRow → SymbolRow)
    (keeps : KeepsKeys change) (other : String) :
    (s.changeSymbol old.id change).symbolContent? fileId other =
      if other = path then some (change old).content else s.symbolContent? fileId other := by
  simp only [symbolContent?, symbol_changeSymbol s old.id keeps, Option.map_map, Function.comp_def]
  split
  · rename_i same
    simp [same, found]
  · rename_i away
    cases there : s.symbol? fileId other with
    | none => rfl
    | some r =>
      obtain ⟨mem, -, here⟩ := symbol_found there
      obtain ⟨mem', -, here'⟩ := symbol_found found
      have apart : r.id ≠ old.id := by
        intro same
        rw [symbol_eq_of_id sound mem mem' same] at here
        exact away (here.symm.trans here')
      simp [apart]

theorem symbolContent_insert {r : SymbolRow} (missing : s.symbol? r.fileId r.path = none)
    (other : String) : (s.insertSymbol r).1.symbolContent? r.fileId other =
      if other = r.path then some r.content else s.symbolContent? r.fileId other := by
  simp only [symbol?] at missing
  simp only [symbolContent?, symbol?, insertSymbol, List.find?_append]
  split
  · rename_i same
    rw [same, missing]
    simp
  · rename_i away
    have apart : ¬ r.path = other := fun same => away same.symm
    simp [apart]

end Store

namespace Staging

open Store

variable {q : StageRequest} {now : Instant} {fileId : Int} {ids : SymbolIds} {s t : Store}
  {o o' : StageOutcome}

/-! ### Symbols that the store holds -/

/-- The store says of these symbols what the result says. -/
def Stored (q : StageRequest) (fileId : Int) (s : Store) (symbols : List Symbol) : Prop :=
  ∀ y ∈ symbols, ∃ content, symbolContent q y = .ok content ∧
    s.symbolContent? fileId y.symbolId = some content

/-- Writing a symbol puts its content under its path; it counts as written if something else was
there before. -/
theorem writeSymbol_stored {y : Symbol} {id : Int} (sound : s.Sound)
    (done : writeSymbol q fileId s o y = .ok (t, o', id)) :
    ∃ content, symbolContent q y = .ok content ∧
      (∀ path, t.symbolContent? fileId path =
        if path = y.symbolId then some content else s.symbolContent? fileId path) ∧
      o' = if s.symbolContent? fileId y.symbolId = some content then
          { o with symbolsReused := o.symbolsReused + 1 }
        else { o with symbolsWritten := o.symbolsWritten + 1 } := by
  obtain ⟨content, made, write⟩ := writeSymbol_cases done
  refine ⟨content, made, ?_⟩
  cases write with
  | confirm old found same =>
    have here : s.symbolContent? fileId y.symbolId = some content := by
      simp [symbolContent?, found, same]
    refine ⟨fun path => ?_, (if_pos here).symm⟩
    rw [symbolContent_keep s old.id (fun r => { r with lastSeen := q.batchId })
      (fun r => ⟨rfl, rfl, rfl⟩) fun r => rfl]
    split
    · rename_i own
      exact own ▸ here
    · rfl
  | change old found differs =>
    refine ⟨fun path => symbolContent_change sound found
      (fun r => { r with content, lastSeen := q.batchId }) (fun r => ⟨rfl, rfl, rfl⟩) path,
      (if_neg ?_).symm⟩
    simpa [symbolContent?, found] using differs
  | insert missing =>
    refine ⟨fun path => symbolContent_insert missing path, (if_neg ?_).symm⟩
    simp [symbolContent?, missing]

/-- Every symbol counts as written or as reused, and none as written exactly if all were stored. -/
theorem writeSymbols_counts {symbols : List Symbol} (sound : s.Sound)
    (done : writeSymbols q fileId symbols s o = .ok (t, o', ids)) :
    o'.symbolsWritten + o'.symbolsReused = o.symbolsWritten + o.symbolsReused + symbols.length ∧
      o.symbolsWritten ≤ o'.symbolsWritten ∧
      (o'.symbolsWritten = o.symbolsWritten ↔ Stored q fileId s symbols) := by
  induction symbols generalizing s o t o' ids with
  | nil =>
    cases done
    exact ⟨rfl, Nat.le_refl _, by simp [Stored]⟩
  | cons y rest ih =>
    simp only [writeSymbols, bind_ok_iff] at done
    obtain ⟨⟨s1, o1, id⟩, first, ⟨s2, o2, more⟩, others, eq⟩ := done
    cases eq
    obtain ⟨content, made, table, counted⟩ := writeSymbol_stored sound first
    obtain ⟨total, least, stored⟩ := ih (sound_writeSymbol sound first) others
    rw [List.length_cons]
    by_cases here : s.symbolContent? fileId y.symbolId = some content
    · rw [if_pos here] at counted
      subst counted
      -- A symbol that is confirmed leaves all contents, so the others meet what was there before.
      have same (path : String) : s1.symbolContent? fileId path = s.symbolContent? fileId path := by
        rw [table]
        split
        · rename_i own
          exact (own ▸ here).symm
        · rfl
      simp only [Stored, same] at stored
      dsimp only at total ⊢
      refine ⟨by omega, least, stored.trans ?_⟩
      simp only [Stored, List.forall_mem_cons]
      exact ⟨fun all => ⟨⟨content, made, here⟩, all⟩, And.right⟩
    · rw [if_neg here] at counted
      subst counted
      dsimp only at total least ⊢
      refine ⟨by omega, by omega, fun equal => by omega, fun all => ?_⟩
      obtain ⟨other, made', there⟩ := all y List.mem_cons_self
      cases made.symm.trans made'
      exact absurd there here

/-- The last symbol of an id is the one that its row is left with. -/
theorem writeSymbols_last {symbols : List Symbol} (sound : s.Sound)
    (done : writeSymbols q fileId symbols s o = .ok (t, o', ids)) (path : String) :
    (∃ y ∈ symbols, y.symbolId = path ∧ ∃ content, symbolContent q y = .ok content ∧
        t.symbolContent? fileId path = some content) ∨
      (∀ y ∈ symbols, y.symbolId ≠ path) ∧
        t.symbolContent? fileId path = s.symbolContent? fileId path := by
  induction symbols generalizing s o t o' ids with
  | nil =>
    cases done
    exact Or.inr ⟨by simp, rfl⟩
  | cons y rest ih =>
    simp only [writeSymbols, bind_ok_iff] at done
    obtain ⟨⟨s1, o1, id⟩, first, ⟨s2, o2, more⟩, others, eq⟩ := done
    cases eq
    obtain ⟨content, made, table, -⟩ := writeSymbol_stored sound first
    rcases ih (sound_writeSymbol sound first) others with ⟨z, mem, named, last⟩ | ⟨unnamed, kept⟩
    · exact Or.inl ⟨z, List.mem_cons_of_mem _ mem, named, last⟩
    · rw [table] at kept
      by_cases own : path = y.symbolId
      · rw [if_pos own] at kept
        exact Or.inl ⟨y, List.mem_cons_self, own.symm, content, made, kept⟩
      · rw [if_neg own] at kept
        exact Or.inr ⟨List.forall_mem_cons.2 ⟨fun same => own same.symm, unnamed⟩, kept⟩

/-- Symbols of one id say the same. -/
def NamesakesAgree (q : StageRequest) : Prop :=
  ∀ y ∈ q.result.symbols, ∀ z ∈ q.result.symbols, y.symbolId = z.symbolId →
    symbolContent q y = symbolContent q z

theorem agree_of_distinct (distinct : (q.result.symbols.map (·.symbolId)).Nodup) :
    NamesakesAgree q := by
  intro y ymem z zmem same
  rw [List.inj_on_of_nodup_map distinct ymem zmem same]

theorem stored_iff_agree (sound : s.Sound)
    (done : writeSymbols q fileId q.result.symbols s o = .ok (t, o', ids)) :
    Stored q fileId t q.result.symbols ↔ NamesakesAgree q := by
  constructor
  · intro stored y ymem z zmem same
    obtain ⟨content, made, there⟩ := stored y ymem
    obtain ⟨content', made', there'⟩ := stored z zmem
    cases (same ▸ there).symm.trans there'
    exact made.trans made'.symm
  · intro agree y mem
    rcases writeSymbols_last sound done y.symbolId with ⟨z, there, named, content, made, last⟩ | ⟨unnamed, -⟩
    · exact ⟨content, (agree y mem z there named.symm).trans made, last⟩
    · exact absurd rfl (unnamed y mem)

theorem linkParents_contents {symbols : List Symbol} (done : linkParents ids symbols s = .ok t)
    (path : String) : t.symbolContent? fileId path = s.symbolContent? fileId path := by
  induction symbols generalizing s with
  | nil =>
    cases done
    rfl
  | cons y rest ih =>
    simp only [linkParents, bind_ok_iff] at done
    obtain ⟨parent, -, done⟩ := done
    split at done
    · rename_i e _
      rw [ih done]
      exact symbolContent_keep s e.2 (fun r => { r with parentId := parent })
        (fun r => ⟨rfl, rfl, rfl⟩) (fun r => rfl) fileId path
    · exact ih done

theorem writeChunks_symbolCounts {groups : List ChunkGroup}
    (done : writeChunks q now fileId ids groups s o = .ok (t, o')) :
    o'.symbolsWritten = o.symbolsWritten ∧ o'.symbolsReused = o.symbolsReused := by
  induction groups generalizing s o with
  | nil =>
    cases done
    exact ⟨rfl, rfl⟩
  | cons g rest ih =>
    simp only [writeChunks, bind_ok_iff] at done
    obtain ⟨⟨u, o1⟩, first, others⟩ := done
    obtain ⟨⟨inserted, reused, same⟩, -⟩ := writeChunk_cases first
    have kept : o1.symbolsWritten = o.symbolsWritten ∧ o1.symbolsReused = o.symbolsReused := by
      rw [same]
      exact ⟨rfl, rfl⟩
    exact ⟨(ih others).1.trans kept.1, (ih others).2.trans kept.2⟩

/-- A staged result is stored as a whole if its symbols of one id say the same. -/
theorem stage_stored_iff (sound : s.Sound) (done : stage s now q = .ok (t, o)) :
    Stored q o.fileId t q.result.symbols ↔ NamesakesAgree q := by
  obtain ⟨groups, s1, fileId, s2, o2, ids, s3, -, file, symbols, links, chunks⟩ := stage_ok_iff.1 done
  obtain ⟨-, -, file2, -⟩ := writeSymbols_rows symbols
  obtain ⟨tables, file3⟩ := writeChunks_tables chunks
  have contents (path : String) : t.symbolContent? fileId path = s2.symbolContent? fileId path := by
    rw [← linkParents_contents links]
    simp only [symbolContent?, symbol?, tables.symbols]
  rw [file3.trans file2, ← stored_iff_agree (sound_upsertFile sound file) symbols]
  simp only [Stored, contents]

theorem again_symbols (sound : s.Sound) (done : stage s now q = .ok (t, o)) {batch : String}
    {u : Store} {p : StageOutcome} {later : Instant} {fileSha : Option String} {mtimeNs : Option Int}
    (again : stage t later (q.again batch fileSha mtimeNs) = .ok (u, p)) :
    p.symbolsWritten + p.symbolsReused = q.result.symbols.length ∧
      (p.symbolsWritten = 0 ↔ NamesakesAgree q) := by
  have known : t.hasBatch batch = true := ((stage_succeeds_iff later).1 ⟨_, again⟩).batch
  obtain ⟨u', p', s1, s2, o2, s3, again', ⟨sound1, symbols1⟩, symbols, -, chunks⟩ :=
    again_steps sound done known later fileSha mtimeNs
  cases again.symm.trans again'
  obtain ⟨written, reused⟩ := writeChunks_symbolCounts chunks
  obtain ⟨total, -, stored⟩ := writeSymbols_counts sound1 symbols
  have before : Stored (q.again batch fileSha mtimeNs) o.fileId s1 q.result.symbols ↔
      Stored q o.fileId t q.result.symbols := by
    simp only [Stored, symbolContent?, symbol?, symbols1]
    exact Iff.rfl
  rw [written, reused]
  refine ⟨by simpa using total, stored.trans (before.trans (stage_stored_iff sound done))⟩

/-- After any history, a result that has been staged can be staged once more, under any batch that is
recorded. All its symbols count as reused exactly if those of one id say the same; and then, if the
first batch was new to the file, the file counts as reused. -/
theorem restaged_symbols_reused_iff (calls : List Call)
    (done : stage (Ledger.after calls).store now q = .ok (t, o)) {batch : String}
    (known : t.hasBatch batch = true) (later : Instant) (fileSha : Option String)
    (mtimeNs : Option Int) :
    ∃ u p, stage t later (q.again batch fileSha mtimeNs) = .ok (u, p) ∧
      (p.symbolsWritten = 0 ∧ p.symbolsReused = q.result.symbols.length ↔ NamesakesAgree q) ∧
      (Countable q.result → (Ledger.after calls).store.Fresh q.batchId (repoPath q) → ∀ m : RunMetrics,
        (StagedBatch.countOutcome m p).filesReused = m.filesReused + 1 ↔ NamesakesAgree q) := by
  have sound := Ledger.sound_after calls
  obtain ⟨⟨u, p⟩, again⟩ := (stage_succeeds_iff later).2 (stageable_again done known fileSha mtimeNs)
  obtain ⟨total, written⟩ := again_symbols sound done again
  refine ⟨u, p, again, ?_, fun countable fresh m => ?_⟩
  · rw [← written]
    omega
  · obtain ⟨inserted, -⟩ := again_chunks sound countable fresh done again
    simp only [StagedBatch.countOutcome, inserted, and_true, ← written]
    split <;> omega

/-! ### A function that is defined twice -/

/-- A reading of one text, of which a grammar makes one tree. -/
def pythonReading (text : String) (root : Syntax.Node) : Reading where
  root := "/"
  config := {}
  count cs := cs.length
  autoBudget := 100
  registry := { descriptors := Descriptor.defaults, settings := {} }
  readers := {
    css _ := default
    html _ := default
    python _ := root
    javascript _ := default
    typescript _ := default
    tsx _ := default
    markdown _ := [] }
  disk _ := .error .notFound
  view := some text.toList

def pythonRequest (batch text : String) (root : Syntax.Node) : StageRequest where
  batchId := batch
  handlerName := "python"
  handlerVersion := "1.0.0"
  versions := .empty
  result := readSource .python (pythonReading text root) "a.py"

/-- The function `f` with a body of one statement; the body begins 13 bytes after the function. -/
def functionNode (start stop : Nat) (statement : Syntax.Node) : Syntax.Node :=
  ⟨"function_definition", true, none, start, stop, false,
    [⟨"identifier", true, some "name", start + 4, start + 5, false, []⟩,
      ⟨"block", true, some "body", start + 13, stop, false, [statement]⟩]⟩

def documentedNode : Syntax.Node :=
  functionNode 0 18 ⟨"expression_statement", true, none, 13, 18, false,
    [⟨"string", true, none, 13, 18, false, []⟩]⟩

def documented (batch : String) : StageRequest :=
  pythonRequest batch "def f():\n    \"one\"\n" ⟨"module", true, none, 0, 19, false, [documentedNode]⟩

def redefinedText : String := "def f():\n    \"one\"\ndef f():\n    pass\n"

/-- The second definition of the function has no description. -/
def redefinedNode : Syntax.Node :=
  ⟨"module", true, none, 0, 37, false,
    [documentedNode, functionNode 19 36 ⟨"pass_statement", true, none, 32, 36, false, []⟩]⟩

def redefined (batch : String) : StageRequest := pythonRequest batch redefinedText redefinedNode

theorem documented_function_reused : ∃ t o u p,
    stage (Ledger.after twoBatches).store .epoch (documented "b1") = .ok (t, o) ∧
      stage t .epoch ((documented "b1").again "b2" none none) = .ok (u, p) ∧
      (p.symbolsWritten = 0 ∧ p.symbolsReused = 2) ∧
      (StagedBatch.countOutcome {} p).filesReused = 1 := by
  obtain ⟨⟨t, o⟩, done⟩ := (stage_succeeds_iff .epoch).2
    (by decide +kernel : Stageable (Ledger.after twoBatches).store (documented "b1"))
  have known : t.hasBatch "b2" = true := by
    rw [Store.hasBatch, stage_batches (Ledger.sound_after twoBatches) done]
    rfl
  have agree : NamesakesAgree (documented "b1") := agree_of_distinct (by decide +kernel)
  have two : (documented "b1").result.symbols.length = 2 := by decide +kernel
  have countable : Countable (documented "b1").result := countable_of_length (by decide +kernel)
  obtain ⟨u, p, again, symbols, file⟩ :=
    restaged_symbols_reused_iff twoBatches done known .epoch none none
  refine ⟨t, o, u, p, done, again, two ▸ symbols.2 agree, ?_⟩
  exact (file countable (fun fileId there => by cases there) {}).2 agree

theorem symbolContent_docstring {y : Symbol} {content : SymbolContent}
    (made : symbolContent q y = .ok content) : content.docstring = y.docstring := by
  obtain ⟨v, -, made⟩ := bind_ok_iff.1 made
  cases made
  rfl

theorem redefined_disagree : ¬ NamesakesAgree (redefined "b1") := by
  intro agree
  obtain ⟨y, ymem, z, zmem, same, known, differs⟩ : ∃ y ∈ (redefined "b1").result.symbols,
      ∃ z ∈ (redefined "b1").result.symbols, y.symbolId = z.symbolId ∧
        (redefined "b1").Knows (symbolHandler (redefined "b1") y) ∧ y.docstring ≠ z.docstring := by
    decide +kernel
  obtain ⟨content, made⟩ := symbolContent_succeeds_iff.2 known
  have made' := (agree y ymem z zmem same).symm.trans made
  exact differs ((symbolContent_docstring made).symm.trans (symbolContent_docstring made'))

/-- What a handler returns for a function that is defined twice is not reused as a whole when it is
staged again: its two symbols share a row, and each finds there what the other has left. -/
theorem redefined_function_rewritten :
    ¬ ∀ (h : Handler) (r : Reading) (path : String) (q : StageRequest) (calls : List Call)
      (now later : Instant) (batch : String) (t u : Store) (o p : StageOutcome),
      q.result = readSource h r path →
      stage (Ledger.after calls).store now q = .ok (t, o) →
      t.Fresh batch (repoPath q) →
      stage t later (q.again batch q.fileSha q.mtimeNs) = .ok (u, p) →
      p.symbolsWritten = 0 ∧ p.symbolsReused = q.result.symbols.length := by
  intro claim
  have sound := Ledger.sound_after twoBatches
  obtain ⟨⟨t, o⟩, done⟩ := (stage_succeeds_iff .epoch).2
    (by decide +kernel : Stageable (Ledger.after twoBatches).store (redefined "b1"))
  have known : t.hasBatch "b2" = true := by
    rw [Store.hasBatch, stage_batches sound done]
    rfl
  have fresh : t.Fresh "b2" (repoPath (redefined "b1")) := by
    intro fileId _ r mem _
    by_contra seen
    obtain ⟨r', there, -⟩ := (stage_spares sound done).origin r mem "b2" (by decide) (by simpa using seen)
    cases there
  obtain ⟨⟨u, p⟩, again⟩ := (stage_succeeds_iff .epoch).2 (stageable_again done known none none)
  obtain ⟨written, -⟩ := claim .python (pythonReading redefinedText redefinedNode) "a.py"
    (redefined "b1") twoBatches .epoch .epoch "b2" t u o p rfl done fresh again
  exact redefined_disagree ((again_symbols sound done again).2.1 written)

end Staging

end SourceSlices
