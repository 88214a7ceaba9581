import SourceSlices.Proofs.SymbolRows

/-!
Symbols after a staging. Whatever the store held before, each symbol of the result has one row, and the
row says what a first writing of the result would say, except that it keeps the batch of its first
insertion.
-/
namespace SourceSlices

namespace Staging

open Store

variable {q : StageRequest} {now : Instant} {fileId : Int} {s t : Store} {o : StageOutcome}

/-- What the row of a symbol holds in `t` once its result has been staged over `s`. -/
structure Recorded (q : StageRequest) (s t : Store) (fileId : Int) (y : Symbol) (r : SymbolRow) :
    Prop where
  only : t.symbols.filter (fun x => x.fileId = fileId ∧ x.path = y.symbolId) = [r]
  content : symbolContent q y = .ok r.content
  tokens : r.content.tokens = count ((owned q y).map (·.tokenCount)).sum
  lastSeen : r.lastSeen = q.batchId
  firstSeen : r.firstSeen = s.birth fileId y.symbolId q.batchId
  parent : PointsUp t fileId y r

theorem foldl_tokens (chunks : List Chunk) (n : Nat) :
    chunks.foldl (fun n c => n + c.tokenCount) n = n + (chunks.map (·.tokenCount)).sum := by
  induction chunks generalizing n with
  | nil => rfl
  | cons c rest ih => simp only [List.foldl_cons, ih, List.map_cons, List.sum_cons, Nat.add_assoc]

theorem symbolContent_tokens {y : Symbol} {content : SymbolContent}
    (made : symbolContent q y = .ok content) :
    content.tokens = count ((owned q y).map (·.tokenCount)).sum := by
  obtain ⟨v, -, made⟩ := bind_ok_iff.1 made
  cases made
  simp only [foldl_tokens, Nat.zero_add]

theorem stage_recorded (sound : s.Sound) (keyed : s.Keyed)
    (distinct : (q.result.symbols.map (·.symbolId)).Nodup) (done : stage s now q = .ok (t, o))
    {y : Symbol} (mem : y ∈ q.result.symbols) : ∃ r, Recorded q s t o.fileId y r := by
  rcases stage_row sound done o.fileId y.symbolId with
    ⟨-, x, xmem, xid, z, zmem, zid, r, found, row, up⟩ | ⟨unnamed, -⟩
  · -- Only one symbol has this id.
    obtain rfl := List.inj_on_of_nodup_map distinct xmem mem xid
    obtain rfl := List.inj_on_of_nodup_map distinct zmem mem zid
    exact ⟨r, rows_of_symbol (keyed_stage keyed done) found, row.content,
      symbolContent_tokens row.content, row.lastSeen, row.firstSeen, up⟩
  · exact absurd ⟨rfl, y, mem, rfl⟩ unnamed

theorem stage_counts (sound : s.Sound) (done : stage s now q = .ok (t, o)) :
    o.symbolsWritten + o.symbolsReused = q.result.symbols.length := by
  obtain ⟨groups, s1, fileId, s2, o2, ids, s3, -, file, symbols, links, chunks⟩ := stage_ok_iff.1 done
  obtain ⟨total, -⟩ := writeSymbols_counts (sound_upsertFile sound file) symbols
  obtain ⟨written, reused⟩ := writeChunks_symbolCounts chunks
  rw [written, reused, total]
  exact Nat.zero_add _

/-- A row of a symbol that the result does not hold is neither changed nor removed nor added. -/
theorem stage_absent_iff (sound : s.Sound) (keyed : s.Keyed) (done : stage s now q = .ok (t, o))
    {r : SymbolRow} (absent : ¬ (r.fileId = o.fileId ∧ ∃ y ∈ q.result.symbols, y.symbolId = r.path)) :
    r ∈ t.symbols ↔ r ∈ s.symbols := by
  rw [mem_symbols_iff (keyed_stage keyed done), mem_symbols_iff keyed]
  rcases stage_row sound done r.fileId r.path with ⟨file, y, mem, named, -⟩ | ⟨-, same⟩
  · exact absurd ⟨file, y, mem, named⟩ absent
  · rw [same]

end Staging

namespace Ledger

open Staging

variable {fileId : Int} {path batch : String}

/-- A history in which the row of a symbol is added by a staging under a batch: there was none before,
and rows of symbols are never removed. -/
def AddedUnder (calls : List Call) (fileId : Int) (path batch : String) : Prop :=
  ∃ earlier now q later t o, calls = earlier ++ .stage now q :: later ∧
    (after earlier).store.symbol? fileId path = none ∧ stage (after earlier).store now q = .ok (t, o) ∧
    o.fileId = fileId ∧ (∃ y ∈ q.result.symbols, y.symbolId = path) ∧ q.batchId = batch

theorem AddedUnder.snoc {calls : List Call} (added : AddedUnder calls fileId path batch) (c : Call) :
    AddedUnder (calls ++ [c]) fileId path batch := by
  obtain ⟨earlier, now, q, later, t, o, rfl, rest⟩ := added
  exact ⟨earlier, now, q, later ++ [c], t, o, by simp, rest⟩

/-- Every row of a symbol names the batch that added it. -/
theorem added_after (calls : List Call) {r : SymbolRow}
    (found : (after calls).store.symbol? fileId path = some r) :
    AddedUnder calls fileId path r.firstSeen := by
  induction calls using List.reverseRecOn generalizing r with
  | nil => cases found
  | append_singleton calls c ih =>
    rw [after_snoc] at found
    rcases symbols_step (after calls) c with ⟨same, -⟩ | ⟨now, q, t, o, rfl, done, next⟩
    · simp only [Store.symbol?, same] at found
      exact (ih found).snoc c
    · rw [next] at found
      rcases stage_row (sound_after calls) done fileId path with
        ⟨rfl, y, mem, rfl, -, -, -, r', found', row, -⟩ | ⟨-, same⟩
      · cases found.symm.trans found'
        rw [row.firstSeen, Store.birth]
        cases before : (after calls).store.symbol? o.fileId y.symbolId with
        | none => exact ⟨calls, now, q, [], t, o, rfl, before, done, rfl, ⟨y, mem, rfl⟩, rfl⟩
        | some old => exact (ih before).snoc _
      · exact (ih (same.symm.trans found)).snoc _

/-- Writing symbols over what a store holds is as good as writing them afresh. Each symbol of a staged
result has one row, which says what the result says of it, names the batch of the request as the last
and the batch of its first insertion as the first, and points to the row of its parent; every symbol
counts as written or as reused; and rows of symbols that the result does not hold stay. -/
theorem staged_symbols_recorded {s t : Store} {now : Instant} {q : StageRequest} {o : StageOutcome}
    (sound : s.Sound) (keyed : s.Keyed) (distinct : (q.result.symbols.map (·.symbolId)).Nodup)
    (done : stage s now q = .ok (t, o)) :
    (∀ y ∈ q.result.symbols, ∃ r, Recorded q s t o.fileId y r ∧
        ∀ calls, s = (after calls).store →
          AddedUnder (calls ++ [.stage now q]) o.fileId y.symbolId r.firstSeen) ∧
      o.symbolsWritten + o.symbolsReused = q.result.symbols.length ∧
      ∀ r : SymbolRow, ¬ (r.fileId = o.fileId ∧ ∃ y ∈ q.result.symbols, y.symbolId = r.path) →
        (r ∈ t.symbols ↔ r ∈ s.symbols) := by
  refine ⟨?_, stage_counts sound done, fun r absent => stage_absent_iff sound keyed done absent⟩
  intro y mem
  obtain ⟨r, recorded⟩ := stage_recorded sound keyed distinct done mem
  refine ⟨r, recorded, ?_⟩
  rintro calls rfl
  apply added_after
  have inside : r ∈ t.symbols.filter fun x => x.fileId = o.fileId ∧ x.path = y.symbolId :=
    recorded.only ▸ List.mem_singleton.2 rfl
  obtain ⟨there, own⟩ := List.mem_filter.1 inside
  obtain ⟨file, named⟩ := of_decide_eq_true own
  rw [after_snoc]
  simp only [step, done]
  rw [← file, ← named]
  exact Store.symbol_of_mem (keyed_stage keyed done) there

/-- The class keeps the batch of its first insertion and gets the tokens of both chunks; the row of the
method that it has lost stays. -/
theorem moved_class_recorded : ∃ t o, (after outlined).store.Sound ∧ (after outlined).store.Keyed ∧
    (movedClass.result.symbols.map (·.symbolId)).Nodup ∧
    stage (after outlined).store .epoch movedClass = .ok (t, o) ∧
    (∃ y ∈ movedClass.result.symbols, y.symbolId = "m.C" ∧
      ∃ r, Recorded movedClass (after outlined).store t o.fileId y r ∧ r.firstSeen = "b1" ∧
        r.content.tokens = 8 ∧
        AddedUnder (outlined ++ [.stage .epoch movedClass]) o.fileId "m.C" "b1") ∧
    o.symbolsWritten + o.symbolsReused = 2 ∧
    ∀ r : SymbolRow, r.path = "m.C.f" → (r ∈ t.symbols ↔ r ∈ (after outlined).store.symbols) := by
  have sound := sound_after outlined
  have distinct : (movedClass.result.symbols.map (·.symbolId)).Nodup := by decide
  obtain ⟨⟨t, o⟩, done⟩ := (stage_succeeds_iff .epoch).2
    (by decide +kernel : Stageable (after outlined).store movedClass)
  obtain ⟨each, counts, absent⟩ :=
    staged_symbols_recorded sound (keyed_after outlined) distinct done
  have file : (after outlined).store.fileId? (repoPath movedClass) = some 1 := by decide +kernel
  have number : o.fileId = 1 := by
    rcases stage_number sound done with known | ⟨unknown, -⟩
    · exact Option.some.inj (known.symm.trans file)
    · cases file.symm.trans unknown
  obtain ⟨y, mem, named, tokens⟩ : ∃ y ∈ movedClass.result.symbols, y.symbolId = "m.C" ∧
      count ((owned movedClass y).map (·.tokenCount)).sum = 8 := by decide
  obtain ⟨r, recorded, added⟩ := each y mem
  have born : r.firstSeen = "b1" := by
    rw [recorded.firstSeen, number, named]
    decide +kernel
  refine ⟨t, o, sound, keyed_after outlined, distinct, done, ⟨y, mem, named, r, recorded, born,
    recorded.tokens.trans tokens, ?_⟩, counts, ?_⟩
  · rw [← born, ← named]
    exact added outlined rfl
  · rintro r method
    refine absent r ?_
    rintro ⟨-, z, there, same⟩
    rw [method] at same
    revert z
    decide

end Ledger

end SourceSlices
