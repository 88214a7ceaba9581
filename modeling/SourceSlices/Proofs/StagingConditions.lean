import SourceSlices.Proofs.StagingEffect

/-!
When staging succeeds. It needs a recorded batch, complete chunks, a version of every handler that
answers for a symbol or for a part, and a symbol for every reference. Nothing else makes it fail,
whatever the store holds.
-/
namespace SourceSlices

/-- A handler whose version a request knows. -/
def StageRequest.Knows (q : StageRequest) (handler : String) : Prop :=
  (q.versions.find? handler).isSome = true ∨ handler = q.handlerName

/-- A reference to nothing or to a symbol of the result. -/
def HandlerResult.Resolves (r : HandlerResult) (key : Option String) : Prop :=
  ∀ id, key = some id → ∃ y ∈ r.symbols, y.symbolId = id

/-! ### Writing slices -/

namespace Store

/-- A reference to nothing or to a row of a symbol. -/
def HoldsSymbol (s : Store) (id : Option Int) : Prop :=
  ∀ i, id = some i → ∃ r ∈ s.symbols, r.id = i

/-- The rows that a slice of a batch refers to are there. -/
structure Admissible (s : Store) (batch : String) (c : SliceContent) : Prop where
  batch : s.hasBatch batch = true
  file : ∃ f ∈ s.files, f.id = c.fileId
  symbol : s.HoldsSymbol c.symbolId
  parent : s.HoldsSymbol c.parentSymbolId

theorem admits_iff {s : Store} {c : Slice} :
    s.admits c = true ↔ s.Admissible c.batchId c.content := by
  have symbol (id : Option Int) :
      (id.all fun i => s.symbols.any (·.id = i)) = true ↔ s.HoldsSymbol id := by
    simp only [HoldsSymbol, Option.all_eq_true, List.any_eq_true, decide_eq_true_eq]
  simp only [admits, Bool.and_eq_true, symbol, List.any_eq_true, decide_eq_true_eq]
  constructor
  · rintro ⟨⟨⟨batch, file⟩, own⟩, parent⟩
    exact ⟨batch, file, own, parent⟩
  · rintro ⟨batch, file, own, parent⟩
    exact ⟨⟨⟨batch, file⟩, own⟩, parent⟩

theorem putSlice_succeeds {s : Store} {c : Slice} (good : s.Admissible c.batchId c.content) :
    Succeeds (s.putSlice c) := by
  simp only [putSlice, admits_iff.2 good, if_true]
  split <;> exact ⟨_, rfl⟩

theorem admissible_of_tables {s t : Store} {batch : String} {c : SliceContent}
    (good : s.Admissible batch c) (same : SameButSlices s t) : t.Admissible batch c where
  batch := by simpa only [hasBatch, same.batches] using good.batch
  file := same.files ▸ good.file
  symbol i named := same.symbols ▸ good.symbol i named
  parent i named := same.symbols ▸ good.parent i named

theorem upsertFile_succeeds_iff {s : Store} {f : FileInfo} :
    Succeeds (s.upsertFile f) ↔ s.hasBatch f.batchId = true := by
  unfold upsertFile
  split
  · rename_i known
    refine ⟨fun _ => known, fun _ => ?_⟩
    split <;> exact ⟨_, rfl⟩
  · rename_i missing
    exact ⟨fun ⟨_, done⟩ => (by cases done), fun known => absurd known missing⟩

theorem mem_of_symbolId {s : Store} {fileId id : Int} {path : String}
    (row : s.symbolId? fileId path = some id) : ∃ r ∈ s.symbols, r.id = id := by
  obtain ⟨r, found, same⟩ := Option.map_eq_some_iff.1 row
  exact ⟨r, List.mem_of_find?_eq_some found, same⟩

end Store

namespace Staging

open Store

variable {q : StageRequest} {now : Instant} {fileId : Int} {ids : SymbolIds} {s t : Store}
  {o o' : StageOutcome}

theorem putAll_succeeds (now : Instant) (first : String) {contents : List SliceContent}
    {batch : String} (good : ∀ c ∈ contents, s.Admissible batch c) :
    Succeeds (putAll s (contents.map (freshRow batch first now))) := by
  induction contents generalizing s with
  | nil => exact ⟨s, rfl⟩
  | cons c rest ih =>
    obtain ⟨own, others⟩ := List.forall_mem_cons.1 good
    obtain ⟨u, put⟩ := putSlice_succeeds (c := freshRow batch first now c) own
    obtain ⟨batches, files, symbols⟩ := putSlice_tables put
    obtain ⟨t, more⟩ := ih fun d mem =>
      admissible_of_tables (others d mem) ⟨batches, files, symbols⟩
    exact ⟨t, putAll_cons_iff.2 ⟨u, put, more⟩⟩

/-! ### What the request decides -/

/-- The handler that answers for a symbol: the one it records, or that of the file. -/
def symbolHandler (q : StageRequest) (y : Symbol) : String :=
  (y.metadata.str? "handler").getD q.handlerName

theorem versionOf_succeeds_iff {handler : String} :
    Succeeds (versionOf q handler) ↔ q.Knows handler := by
  unfold versionOf StageRequest.Knows
  cases q.versions.find? handler with
  | some v => exact ⟨fun _ => Or.inl rfl, fun _ => ⟨v, rfl⟩⟩
  | none =>
    simp only [Option.isSome_none, Bool.false_eq_true, false_or]
    split
    · rename_i same
      exact ⟨fun _ => same, fun _ => ⟨_, rfl⟩⟩
    · rename_i other
      exact ⟨fun ⟨_, done⟩ => (by cases done), fun same => absurd same other⟩

theorem rowOf_succeeds_iff {key : Option String} :
    Succeeds (rowOf ids key) ↔ ∀ id, key = some id → id ∈ ids.map (·.1) := by
  cases key with
  | none => exact ⟨fun _ id named => (by cases named), fun _ => ⟨none, rfl⟩⟩
  | some name =>
    simp only [rowOf, Option.some.injEq, forall_eq']
    cases found : ids.find? (·.1 = name) with
    | some e =>
      have named : e.1 = name := by simpa using List.find?_some found
      exact ⟨fun _ => List.mem_map.2 ⟨e, List.mem_of_find?_eq_some found, named⟩, fun _ => ⟨_, rfl⟩⟩
    | none =>
      refine ⟨fun ⟨_, done⟩ => (by cases done), fun mem => ?_⟩
      obtain ⟨e, there, named⟩ := List.mem_map.1 mem
      exact absurd named (by simpa using List.find?_eq_none.1 found e there)

theorem rowOf_mem {key : Option String} {row : Option Int} (done : rowOf ids key = .ok row) {i : Int}
    (named : row = some i) : ∃ e ∈ ids, e.2 = i := by
  cases key with
  | none =>
    cases done
    cases named
  | some name =>
    simp only [rowOf] at done
    split at done
    · rename_i e found
      cases done
      exact ⟨e, List.mem_of_find?_eq_some found, Option.some.inj named⟩
    · cases done

theorem symbolContent_succeeds_iff {y : Symbol} :
    Succeeds (symbolContent q y) ↔ q.Knows (symbolHandler q y) := by
  rw [← versionOf_succeeds_iff]
  constructor
  · rintro ⟨content, done⟩
    obtain ⟨v, known, -⟩ := bind_ok_iff.1 done
    exact ⟨v, known⟩
  · rintro ⟨v, known⟩
    exact ⟨_, bind_ok_iff.2 ⟨v, known, rfl⟩⟩

theorem sliceContent_succeeds_iff {p : Chunk} :
    Succeeds (sliceContent q fileId ids p) ↔ q.Knows (chunkHandler q p) ∧
      (∀ id, p.parentSymbolId = some id → id ∈ ids.map (·.1)) ∧
        ∀ id, p.metadata.str? "delegate_parent_symbol" = some id → id ∈ ids.map (·.1) := by
  rw [← versionOf_succeeds_iff, ← rowOf_succeeds_iff, ← rowOf_succeeds_iff]
  constructor
  · rintro ⟨content, done⟩
    simp only [sliceContent, bind_ok_iff] at done
    obtain ⟨v, known, row, own, parentRow, parent, -⟩ := done
    exact ⟨⟨v, known⟩, ⟨row, own⟩, ⟨parentRow, parent⟩⟩
  · rintro ⟨⟨v, known⟩, ⟨row, own⟩, ⟨parentRow, parent⟩⟩
    simp only [sliceContent, known, own, parent, bind, Except.bind]
    exact ⟨_, rfl⟩

theorem writeSymbol_succeeds_iff {y : Symbol} :
    Succeeds (writeSymbol q fileId s o y) ↔ q.Knows (symbolHandler q y) := by
  rw [← symbolContent_succeeds_iff]
  constructor
  · rintro ⟨⟨t, o', id⟩, done⟩
    obtain ⟨content, made, -⟩ := writeSymbol_cases done
    exact ⟨content, made⟩
  · rintro ⟨content, made⟩
    simp only [writeSymbol, made, bind, Except.bind]
    split
    · split <;> exact ⟨_, rfl⟩
    · exact ⟨_, rfl⟩

theorem writeSymbols_succeeds_iff {symbols : List Symbol} :
    Succeeds (writeSymbols q fileId symbols s o) ↔ ∀ y ∈ symbols, q.Knows (symbolHandler q y) := by
  induction symbols generalizing s o with
  | nil => exact ⟨fun _ => by simp, fun _ => ⟨_, rfl⟩⟩
  | cons y rest ih =>
    rw [List.forall_mem_cons]
    constructor
    · rintro ⟨result, done⟩
      simp only [writeSymbols, bind_ok_iff] at done
      obtain ⟨⟨s1, o1, id⟩, first, others, more, -⟩ := done
      exact ⟨writeSymbol_succeeds_iff.1 ⟨_, first⟩, ih.1 ⟨_, more⟩⟩
    · rintro ⟨own, others⟩
      obtain ⟨⟨s1, o1, id⟩, first⟩ := writeSymbol_succeeds_iff.2 own
      obtain ⟨⟨s2, o2, ids⟩, more⟩ := ih.2 others
      exact ⟨_, bind_ok_iff.2 ⟨_, first, bind_ok_iff.2 ⟨_, more, rfl⟩⟩⟩

theorem linkParents_succeeds_iff {symbols : List Symbol} :
    Succeeds (linkParents ids symbols s) ↔
      ∀ y ∈ symbols, ∀ id, y.parentId = some id → id ∈ ids.map (·.1) := by
  induction symbols generalizing s with
  | nil => exact ⟨fun _ => by simp, fun _ => ⟨s, rfl⟩⟩
  | cons y rest ih =>
    rw [List.forall_mem_cons, ← rowOf_succeeds_iff]
    constructor
    · rintro ⟨t, done⟩
      simp only [linkParents, bind_ok_iff] at done
      obtain ⟨parent, own, done⟩ := done
      refine ⟨⟨parent, own⟩, ?_⟩
      split at done <;> exact ih.1 ⟨t, done⟩
    · rintro ⟨⟨parent, own⟩, others⟩
      simp only [linkParents, own, bind, Except.bind]
      split <;> exact ih.2 others

/-! ### Writing chunks -/

/-- The rows that the slices of a file refer to are there. -/
structure Ready (s : Store) (batch : String) (fileId : Int) (ids : SymbolIds) : Prop where
  batch : s.hasBatch batch = true
  file : ∃ f ∈ s.files, f.id = fileId
  symbols : Own s fileId ids

theorem ready_of_tables {batch : String} (ready : Ready s batch fileId ids)
    (same : SameButSlices s t) : Ready t batch fileId ids where
  batch := by simpa only [hasBatch, same.batches] using ready.batch
  file := same.files ▸ ready.file
  symbols e mem := by simpa only [symbolId?, symbol?, same.symbols] using ready.symbols e mem

theorem admissible_of_ready {p : Chunk} {content : SliceContent} (ready : Ready s q.batchId fileId ids)
    (done : sliceContent q fileId ids p = .ok content) : s.Admissible q.batchId content := by
  have row {i : Int} (given : ∃ e ∈ ids, e.2 = i) : ∃ r ∈ s.symbols, r.id = i := by
    obtain ⟨e, mem, rfl⟩ := given
    exact mem_of_symbolId (ready.symbols e mem)
  simp only [sliceContent, bind_ok_iff] at done
  obtain ⟨v, -, symbolId, own, parentId, parent, done⟩ := done
  cases done
  exact ⟨ready.batch, ready.file, fun i named => row (rowOf_mem own named),
    fun i named => row (rowOf_mem parent named)⟩

theorem writeChunk_succeeds_iff {g : ChunkGroup} (ready : Ready s q.batchId fileId ids) :
    Succeeds (writeChunk q now fileId ids s o g) ↔
      ∀ p ∈ g.parts, Succeeds (sliceContent q fileId ids p) := by
  rw [← mapM_succeeds_iff]
  constructor
  · rintro ⟨⟨t, o'⟩, done⟩
    obtain ⟨-, contents, made, -⟩ := writeChunk_cases done
    exact ⟨contents, mapM_ok_iff.2 made⟩
  · rintro ⟨contents, made⟩
    simp only [writeChunk, made, bind, Except.bind]
    split
    · exact ⟨_, rfl⟩
    · have good : ∀ c ∈ contents,
          (s.dropParts q.batchId fileId g.chunkId contents.length).Admissible q.batchId c := by
        intro c mem
        have there : Except.ok c ∈ g.parts.map (sliceContent q fileId ids) :=
          mapM_ok_iff.1 made ▸ List.mem_map_of_mem mem
        obtain ⟨p, -, done⟩ := List.mem_map.1 there
        exact admissible_of_tables (admissible_of_ready ready done) ⟨rfl, rfl, rfl⟩
      obtain ⟨t, put⟩ := putAll_succeeds now (firstSeen q (s.chunkHistory fileId g.chunkId)) good
      unfold freshRow at put
      simp only [put]
      exact ⟨_, rfl⟩

theorem writeChunks_succeeds_iff {groups : List ChunkGroup} (ready : Ready s q.batchId fileId ids) :
    Succeeds (writeChunks q now fileId ids groups s o) ↔
      ∀ g ∈ groups, ∀ p ∈ g.parts, Succeeds (sliceContent q fileId ids p) := by
  induction groups generalizing s o with
  | nil => exact ⟨fun _ => by simp, fun _ => ⟨_, rfl⟩⟩
  | cons g rest ih =>
    rw [List.forall_mem_cons]
    constructor
    · rintro ⟨result, done⟩
      simp only [writeChunks, bind_ok_iff] at done
      obtain ⟨⟨u, o1⟩, first, more⟩ := done
      exact ⟨(writeChunk_succeeds_iff ready).1 ⟨_, first⟩,
        (ih (ready_of_tables ready (writeChunk_tables first).1)).1 ⟨_, more⟩⟩
    · rintro ⟨own, others⟩
      obtain ⟨⟨u, o1⟩, first⟩ := (writeChunk_succeeds_iff ready).2 own
      obtain ⟨result, more⟩ :=
        (ih (o := o1) (ready_of_tables ready (writeChunk_tables first).1)).2 others
      exact ⟨result, bind_ok_iff.2 ⟨_, first, more⟩⟩

/-! ### Staging -/

/-- What a store and a request need for the request to be staged. -/
structure Stageable (s : Store) (q : StageRequest) : Prop where
  batch : s.hasBatch q.batchId = true
  chunks : Succeeds (ChunkGroup.ofChunks q.result.chunks)
  symbolVersions : ∀ y ∈ q.result.symbols, q.Knows (symbolHandler q y)
  chunkVersions : ∀ p ∈ q.result.chunks, q.Knows (chunkHandler q p)
  parents : ∀ y ∈ q.result.symbols, q.result.Resolves y.parentId
  owners : ∀ p ∈ q.result.chunks, q.result.Resolves p.parentSymbolId
  delegating : ∀ p ∈ q.result.chunks, q.result.Resolves (p.metadata.str? "delegate_parent_symbol")

/-- Ids of the symbols of a result are what references resolve to. -/
theorem resolves_iff {key : Option String}
    (names : ids.map (·.1) = q.result.symbols.map (·.symbolId)) :
    q.result.Resolves key ↔ ∀ id, key = some id → id ∈ ids.map (·.1) := by
  simp only [HandlerResult.Resolves, names, List.mem_map]

theorem ready_linked {f : FileInfo} {s1 s2 s3 : Store} (known : s.hasBatch q.batchId = true)
    (file : s.upsertFile f = .ok (s1, fileId))
    (symbols : writeSymbols q fileId q.result.symbols s1 o = .ok (s2, o', ids))
    (links : linkParents ids q.result.symbols s2 = .ok s3) : Ready s3 q.batchId fileId ids := by
  obtain ⟨batches1, -, -, file1⟩ := upsertFile_tables file
  obtain ⟨same2, -, -, rows, -⟩ := writeSymbols_rows symbols
  obtain ⟨same3, kept⟩ := linkParents_rows links
  refine ⟨?_, ?_, fun e mem => (kept _ _).trans ?_⟩
  · simpa only [hasBatch, same3.batches, same2.batches, batches1] using known
  · rw [same3.files, same2.files]
    exact file1
  · exact own_symbolRows s2 fileId q.result.symbols e (rows ▸ mem)

theorem stage_succeeds_iff (now : Instant) : Succeeds (stage s now q) ↔ Stageable s q := by
  constructor
  · rintro ⟨⟨t, o⟩, done⟩
    obtain ⟨groups, s1, fileId, s2, o2, ids, s3, grouped, file, symbols, links, chunks⟩ :=
      stage_ok_iff.1 done
    have known : s.hasBatch q.batchId = true := upsertFile_succeeds_iff.1 ⟨_, file⟩
    obtain ⟨rfl, -⟩ := ChunkGroup.ofChunks_ok_iff.1 grouped
    obtain ⟨-, -, -, -, names⟩ := writeSymbols_rows symbols
    have parts := ChunkGroup.forall_parts_iff.1
      ((writeChunks_succeeds_iff (ready_linked known file symbols links)).1 ⟨_, chunks⟩)
    exact {
      batch := known
      chunks := ⟨_, grouped⟩
      symbolVersions := writeSymbols_succeeds_iff.1 ⟨_, symbols⟩
      chunkVersions p mem := (sliceContent_succeeds_iff.1 (parts p mem)).1
      parents y mem := (resolves_iff names).2 (linkParents_succeeds_iff.1 ⟨_, links⟩ y mem)
      owners p mem := (resolves_iff names).2 (sliceContent_succeeds_iff.1 (parts p mem)).2.1
      delegating p mem := (resolves_iff names).2 (sliceContent_succeeds_iff.1 (parts p mem)).2.2 }
  · intro good
    -- Step by step: each can be taken because the ones before it have left what it asks for.
    obtain ⟨groups, grouped⟩ := good.chunks
    obtain ⟨⟨s1, fileId⟩, file⟩ : Succeeds (s.upsertFile (fileInfo q)) :=
      upsertFile_succeeds_iff.2 good.batch
    obtain ⟨⟨s2, o2, ids⟩, symbols⟩ :
        Succeeds (writeSymbols q fileId q.result.symbols s1 { fileId }) :=
      writeSymbols_succeeds_iff.2 good.symbolVersions
    obtain ⟨-, -, -, -, names⟩ := writeSymbols_rows symbols
    obtain ⟨s3, links⟩ : Succeeds (linkParents ids q.result.symbols s2) :=
      linkParents_succeeds_iff.2 fun y mem => (resolves_iff names).1 (good.parents y mem)
    have parts (p : Chunk) (mem : p ∈ q.result.chunks) : Succeeds (sliceContent q fileId ids p) :=
      sliceContent_succeeds_iff.2 ⟨good.chunkVersions p mem,
        (resolves_iff names).1 (good.owners p mem), (resolves_iff names).1 (good.delegating p mem)⟩
    obtain ⟨rfl, -⟩ := ChunkGroup.ofChunks_ok_iff.1 grouped
    obtain ⟨⟨t, o⟩, chunks⟩ :
        Succeeds (writeChunks q now fileId ids (ChunkGroup.all q.result.chunks) s3 o2) :=
      (writeChunks_succeeds_iff (ready_linked good.batch file symbols links)).2
        (ChunkGroup.forall_parts_iff.2 parts)
    exact ⟨⟨t, o⟩, stage_ok_iff.2
      ⟨_, s1, fileId, s2, o2, ids, s3, grouped, file, symbols, links, chunks⟩⟩

instance {ε α : Type} (x : Except ε α) : Decidable (Succeeds x) :=
  match x with
  | .ok a => isTrue ⟨a, rfl⟩
  | .error _ => isFalse fun ⟨_, done⟩ => nomatch done

instance (handler : String) : Decidable (q.Knows handler) :=
  inferInstanceAs (Decidable (_ ∨ _))

instance (r : HandlerResult) (key : Option String) : Decidable (r.Resolves key) :=
  decidable_of_iff ((key.all fun id => r.symbols.any (·.symbolId = id)) = true)
    (by simp only [HandlerResult.Resolves, Option.all_eq_true, List.any_eq_true, decide_eq_true_eq])

instance : Decidable (Stageable s q) :=
  decidable_of_iff (s.hasBatch q.batchId = true ∧ Succeeds (ChunkGroup.ofChunks q.result.chunks) ∧
      (∀ y ∈ q.result.symbols, q.Knows (symbolHandler q y) ∧ q.result.Resolves y.parentId) ∧
      ∀ p ∈ q.result.chunks, q.Knows (chunkHandler q p) ∧ q.result.Resolves p.parentSymbolId ∧
        q.result.Resolves (p.metadata.str? "delegate_parent_symbol"))
    ⟨fun ⟨batch, chunks, symbols, parts⟩ => ⟨batch, chunks, fun y mem => (symbols y mem).1,
        fun p mem => (parts p mem).1, fun y mem => (symbols y mem).2, fun p mem => (parts p mem).2.1,
        fun p mem => (parts p mem).2.2⟩,
      fun ⟨batch, chunks, symbolVersions, chunkVersions, parents, owners, delegating⟩ =>
        ⟨batch, chunks, fun y mem => ⟨symbolVersions y mem, parents y mem⟩,
          fun p mem => ⟨chunkVersions p mem, owners p mem, delegating p mem⟩⟩⟩

/-- A request is staged exactly if it can be, and one that is refused leaves everything as it was. -/
theorem stages_or_leaves (l : Ledger) (now : Instant) (q : StageRequest) :
    ((∃ t o, stage l.store now q = .ok (t, o)) ↔ Stageable l.store q) ∧
      ((∃ e, stage l.store now q = .error e ∧ l.step (.stage now q) = l) ↔
        ¬ Stageable l.store q) := by
  have whole : (∃ t o, stage l.store now q = .ok (t, o)) ↔ Stageable l.store q := by
    rw [← stage_succeeds_iff now]
    exact ⟨fun ⟨t, o, done⟩ => ⟨(t, o), done⟩, fun ⟨(t, o), done⟩ => ⟨t, o, done⟩⟩
  refine ⟨whole, ?_⟩
  rw [← whole]
  cases done : stage l.store now q with
  | ok result =>
    refine ⟨fun ⟨e, failed, _⟩ => (by cases failed), fun none => ?_⟩
    exact absurd ⟨result.1, result.2, rfl⟩ none
  | error e =>
    refine ⟨fun _ ⟨t, o, made⟩ => (by cases made), fun _ => ⟨e, rfl, ?_⟩⟩
    simp only [Ledger.step, done]

end Staging

end SourceSlices
