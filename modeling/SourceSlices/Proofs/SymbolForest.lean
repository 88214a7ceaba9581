import SourceSlices.Proofs.ParentLinks
import SourceSlices.Proofs.SymbolRows

/-!
Parents of symbols. A symbol that vanishes from its file keeps its row and the parent that it had, so the
table mixes links of several versions. It is a forest all the same: a row that is written points to a row
that is written with it, and a row that is not written keeps the way up until it meets a written one.
-/
namespace SourceSlices

namespace HandlerResult

/-- A symbol of the result names another one as its parent. -/
def NamesParent (r : HandlerResult) (child parent : String) : Prop :=
  ∃ y ∈ r.symbols, y.symbolId = child ∧ y.parentId = some parent

/-- No symbol is above itself. -/
def AcyclicSymbols (r : HandlerResult) : Prop := ∀ id, ¬ Relation.TransGen r.NamesParent id id

/-- Parents whose ids rank below those of their children are no cycle. -/
theorem acyclicSymbols_of_rank {r : HandlerResult} (rank : String → Nat)
    (lower : ∀ y ∈ r.symbols, ∀ parent, y.parentId = some parent → rank parent < rank y.symbolId) :
    r.AcyclicSymbols := by
  apply acyclic_of_rank rank
  rintro child parent ⟨y, mem, rfl, named⟩
  exact lower y mem parent named

theorem acyclicSymbols_induction {r : HandlerResult} (acyclic : r.AcyclicSymbols) {P : String → Prop}
    (next : ∀ id, (∃ y ∈ r.symbols, y.symbolId = id) →
      (∀ parent, r.NamesParent id parent → (∃ y ∈ r.symbols, y.symbolId = parent) → P parent) → P id)
    {id : String} (named : ∃ y ∈ r.symbols, y.symbolId = id) : P id := by
  refine induction_of_acyclic (l := r.symbols.map (·.symbolId)) acyclic ?_ (List.mem_map.2 named)
  intro id here ih
  apply next id (List.mem_map.1 here)
  intro parent link there
  exact ih parent (List.mem_map.2 there) link

end HandlerResult

namespace Store

/-- Following parents from a row reaches one without a parent after so many steps. -/
inductive SymbolDepth (s : Store) : SymbolRow → Nat → Prop
  | top {r : SymbolRow} (none : r.parentId = none) : SymbolDepth s r 0
  | up {r p : SymbolRow} {d : Nat} (mem : p ∈ s.symbols) (parent : r.parentId = some p.id)
      (deep : SymbolDepth s p d) : SymbolDepth s r (d + 1)

/-- Every parent is a row of the same file, and no row is without a top. -/
structure SymbolForest (s : Store) : Prop where
  parents : ∀ r ∈ s.symbols, ∀ id, r.parentId = some id →
    ∃ p ∈ s.symbols, p.id = id ∧ p.fileId = r.fileId
  rooted : ∀ r ∈ s.symbols, ∃ d, s.SymbolDepth r d

theorem symbolForest_empty : empty.SymbolForest where
  parents r mem := by cases mem
  rooted r mem := by cases mem

/-- Only the symbols count. -/
theorem SymbolForest.of_symbols {s t : Store} (forest : s.SymbolForest)
    (same : t.symbols = s.symbols) : t.SymbolForest := by
  constructor
  · rw [same]
    exact forest.parents
  · rw [same]
    intro r mem
    obtain ⟨d, deep⟩ := forest.rooted r mem
    refine ⟨d, ?_⟩
    induction deep with
    | top none => exact .top none
    | up there parent _ ih => exact .up (same ▸ there) parent (ih there)

end Store

namespace Staging

open Store

variable {q : StageRequest} {now : Instant} {s t : Store} {o : StageOutcome}

theorem stage_resolves (done : stage s now q = .ok (t, o)) {id parent : String}
    (link : q.result.NamesParent id parent) : ∃ y ∈ q.result.symbols, y.symbolId = parent := by
  obtain ⟨y, mem, -, named⟩ := link
  exact ((stage_succeeds_iff now).1 ⟨_, done⟩).parents y mem parent named

/-- The row of a symbol of the result points to a row of the result, and so on to the top. -/
theorem written_rooted (sound : s.Sound) (acyclic : q.result.AcyclicSymbols)
    (done : stage s now q = .ok (t, o)) {path : String}
    (named : ∃ y ∈ q.result.symbols, y.symbolId = path) {r : SymbolRow}
    (found : t.symbol? o.fileId path = some r) : ∃ d, t.SymbolDepth r d := by
  revert r
  refine HandlerResult.acyclicSymbols_induction acyclic
    (P := fun path => ∀ {r}, t.symbol? o.fileId path = some r → ∃ d, t.SymbolDepth r d) ?_ named
  intro path here ih r found
  rcases stage_row sound done o.fileId path with ⟨-, -, -, -, z, mem, rfl, r', found', -, up⟩ | ⟨away, -⟩
  · obtain rfl := Option.some.inj (found.symm.trans found')
    unfold PointsUp at up
    split at up
    · exact ⟨0, .top up⟩
    · rename_i parent names
      obtain ⟨p, there, points⟩ := up
      have link : q.result.NamesParent z.symbolId parent := ⟨z, mem, rfl, names⟩
      obtain ⟨d, deep⟩ := ih parent link (stage_resolves done link) there
      exact ⟨d + 1, .up (symbol_found there).1 points deep⟩
  · exact absurd ⟨rfl, here⟩ away

/-- A row goes on to have a top: its old way up ends there, or leads to a row that is written. -/
theorem kept_rooted (sound : s.Sound) (acyclic : q.result.AcyclicSymbols) (keyed : s.Keyed)
    (done : stage s now q = .ok (t, o)) {r : SymbolRow} (mem : r ∈ s.symbols) {d : Nat}
    (deep : s.SymbolDepth r d) {r' : SymbolRow} (found : t.symbol? r.fileId r.path = some r') :
    ∃ e, t.SymbolDepth r' e := by
  induction deep generalizing r' with
  | @top r none =>
    rcases stage_row sound done r.fileId r.path with ⟨file, y, there, named, -⟩ | ⟨-, same⟩
    · exact written_rooted sound acyclic done ⟨y, there, named⟩ (file ▸ found)
    · rw [same, symbol_of_mem keyed mem] at found
      obtain rfl := Option.some.inj found
      exact ⟨0, .top none⟩
  | @up r p d above parent _ ih =>
    rcases stage_row sound done r.fileId r.path with ⟨file, y, there, named, -⟩ | ⟨-, same⟩
    · exact written_rooted sound acyclic done ⟨y, there, named⟩ (file ▸ found)
    · rw [same, symbol_of_mem keyed mem] at found
      obtain rfl := Option.some.inj found
      obtain ⟨p', found', id⟩ := stage_symbol_stays keyed done above
      obtain ⟨e, deep'⟩ := ih above found'
      exact ⟨e + 1, .up (symbol_found found').1 (parent.trans (congrArg some id.symm)) deep'⟩

theorem symbolForest_stage (sound : s.Sound) (keyed : s.Keyed) (forest : s.SymbolForest)
    (acyclic : q.result.AcyclicSymbols) (done : stage s now q = .ok (t, o)) : t.SymbolForest := by
  have keyedT := keyed_stage keyed done
  constructor
  · intro r mem id parent
    have found := symbol_of_mem keyedT mem
    -- A row is either written and points where the result says, or it is as it was and so is its parent.
    rcases stage_row sound done r.fileId r.path with
      ⟨file, -, -, -, z, -, -, r', found', -, up⟩ | ⟨-, same⟩
    · obtain rfl := Option.some.inj (found.symm.trans found')
      unfold PointsUp at up
      split at up
      · rw [up] at parent
        cases parent
      · obtain ⟨p, there, points⟩ := up
        obtain ⟨here, own, -⟩ := symbol_found there
        exact ⟨p, here, Option.some.inj (points.symm.trans parent), own⟩
    · have before : r ∈ s.symbols := (mem_symbols_iff keyed).2 (same ▸ found)
      obtain ⟨p, there, rfl, own⟩ := forest.parents r before id parent
      obtain ⟨p', found', id⟩ := stage_symbol_stays keyed done there
      obtain ⟨here, file, -⟩ := symbol_found found'
      exact ⟨p', here, id, file.trans own⟩
  · intro r mem
    have found := symbol_of_mem keyedT mem
    rcases stage_row sound done r.fileId r.path with ⟨file, y, there, named, -⟩ | ⟨-, same⟩
    · exact written_rooted sound acyclic done ⟨y, there, named⟩ (file ▸ found)
    · have before : r ∈ s.symbols := (mem_symbols_iff keyed).2 (same ▸ found)
      obtain ⟨d, deep⟩ := forest.rooted r before
      exact kept_rooted sound acyclic keyed done before deep found

end Staging

namespace Ledger

open Staging

/-- After every history of stagings whose symbols have no cycle of parents, the symbols of the store are
a forest: every parent is a row of the same file, and from every row, also of a symbol that its file has
lost, the way up ends. -/
theorem symbols_stay_forest (calls : List Call)
    (acyclic : ∀ e ∈ (after calls).staged, e.request.result.AcyclicSymbols) :
    (after calls).store.SymbolForest := by
  refine (after_induction (P := fun l => l.store.Sound ∧ l.store.Keyed ∧
    ((∀ e ∈ l.staged, e.request.result.AcyclicSymbols) → l.store.SymbolForest)) ?_ ?_ calls).2.2 acyclic
  · exact ⟨Store.sound_empty, Store.keyed_empty, fun _ => Store.symbolForest_empty⟩
  · rintro l c ⟨sound, keyed, forest⟩
    refine ⟨sound_step sound c, ?_⟩
    rcases symbols_step l c with ⟨same, staged⟩ | ⟨now, q, t, o, -, done, next⟩
    · refine ⟨by rwa [Store.Keyed, same], ?_⟩
      intro acyclic
      exact (forest (staged ▸ acyclic)).of_symbols same
    · rw [next]
      refine ⟨keyed_stage keyed done, ?_⟩
      intro acyclic
      obtain ⟨old, new⟩ := List.forall_mem_append.1 acyclic
      exact symbolForest_stage sound keyed (forest old) (new _ List.mem_cons_self) done

/-- The method that the class has lost still points to it, and the class now points to the module. -/
theorem moved_class_stays_forest : ∃ calls, calls = outlined ++ [.stage .epoch movedClass] ∧
    (after calls).staged.length = 2 ∧
    (∀ e ∈ (after calls).staged, e.request.result.AcyclicSymbols) ∧
    (after calls).store.symbols.map (fun r => (r.path, r.id, r.parentId)) =
      [("m.C", 1, some 3), ("m.C.f", 2, some 1), ("m", 3, none)] ∧
    (after calls).store.SymbolForest := by
  have acyclic : ∀ e ∈ (after (outlined ++ [.stage .epoch movedClass])).staged,
      e.request.result.AcyclicSymbols := by
    intro e mem
    obtain ⟨now, called⟩ := staged_called _ mem
    apply HandlerResult.acyclicSymbols_of_rank String.length
    simp only [outlined, twoBatches, List.cons_append, List.nil_append, List.mem_cons, reduceCtorEq,
      Call.stage.injEq, List.not_mem_nil, or_false, false_or] at called
    rcases called with ⟨-, same⟩ | ⟨-, same⟩ <;> rw [same] <;> decide
  exact ⟨_, rfl, by decide +kernel, acyclic, by decide +kernel, symbols_stay_forest _ acyclic⟩

end Ledger

end SourceSlices
