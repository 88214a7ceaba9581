import SourceSlices.Proofs.LinkedOutput
import SourceSlices.Python.Definitions

/-!
Definitions inside definitions. Each has a symbol under that of the definition around it, and its name stands
behind the names of all that are around it.
-/
namespace SourceSlices.Python

open Syntax Output

namespace Module

variable {m : Module} {s : Scope} {n k : Node} {e : Definition × String}

/-! ### Statements and what stands in them -/

/-- What a statement defines, with its name. -/
def named? (m : Module) (n : Node) : Option (Definition × String) :=
  (m.definition? n).bind fun d => (m.definitionName? d).map (d, ·)

end Module

/-- The statements in the body of a definition. -/
def Definition.statements (d : Definition) : List Node :=
  ((d.node.child? "body").map Module.statements).getD []

namespace Module

variable {m : Module} {s : Scope} {n k : Node} {e : Definition × String}

theorem definition?_eq_some {d : Definition} (found : m.definition? n = some d) : d.outer = n ∧
    if n.kind == "decorated_definition" then n.child? "definition" = some d.node else d.node = n := by
  have made {node : Node} {decorators : List String}
      (there : (if node.kind == "class_definition" then some ⟨n, node, decorators, true⟩
        else if node.kind == "function_definition" then some ⟨n, node, decorators, false⟩
        else none) = some d) : d.outer = n ∧ d.node = node := by
    split at there
    · cases there
      exact ⟨rfl, rfl⟩
    · split at there
      · cases there
        exact ⟨rfl, rfl⟩
      · cases there
  unfold definition? at found
  split at found
  · rename_i decorated
    obtain ⟨node, inner, there⟩ := Option.bind_eq_some_iff.1 found
    obtain ⟨outer, same⟩ := made there
    rw [if_pos decorated, inner, same]
    exact ⟨outer, rfl⟩
  · rename_i plain
    rw [if_neg plain]
    exact made found

theorem named?_eq_some : m.named? n = some e ↔ m.definition? n = some e.1 ∧ m.definitionName? e.1 = some e.2 := by
  simp only [named?, Option.bind_eq_some_iff, Option.map_eq_some_iff]
  constructor
  · rintro ⟨d, found, name, there, rfl⟩
    exact ⟨found, there⟩
  · rintro ⟨found, there⟩
    exact ⟨e.1, found, e.2, there, rfl⟩

theorem defines_nothing (named : ∀ d, m.definition? n = some d → (d.node.child? "name").isSome)
    (missing : m.named? n = none) : m.definition? n = none := by
  cases defined : m.definition? n with
  | none => rfl
  | some d =>
    obtain ⟨name, called⟩ := Option.isSome_iff_exists.1 (named d defined)
    rw [named?, defined, Option.bind_some, definitionName?, called] at missing
    cases missing

theorem visitBlock_eq (m : Module) (s : Scope) (skipsFirst : Bool) (l : List Node) :
    m.visitBlock s skipsFirst l =
      join (((l.filter (·.named)).drop (if skipsFirst then 1 else 0)).map (m.visit s)) := by
  induction l generalizing skipsFirst with
  | nil => cases skipsFirst <;> rfl
  | cons n rest ih =>
    rw [visitBlock]
    cases named : n.named with
    | false => simp [named, ih]
    | true =>
      cases skipsFirst with
      | false => simp [named, ih, join]
      | true => simp [named, ih]

theorem visitBody_eq (m : Module) (s : Scope) (l : List Node) : m.visitBody s l =
    join (((l.find? (·.field == some "body")).map statements).getD [] |>.map (m.visit s)) := by
  induction l with
  | nil => rfl
  | cons b rest ih =>
    have step : m.visitBody s (b :: rest) =
        if b.field == some "body" then m.visitBlock s (docstringNode? b).isSome b.children
        else m.visitBody s rest := by
      cases b
      rw [visitBody]
    rw [step, List.find?_cons]
    cases b.field == some "body" with
    | true =>
      rw [if_pos rfl, visitBlock_eq]
      simp only [Option.map_some, Option.getD_some, statements]
      split <;> rfl
    | false => exact ih

theorem visitDecorated_eq {l : List Node} (found : l.find? (·.field == some "definition") = some n) :
    m.visitDecorated s l = m.visitBody s n.children := by
  induction l with
  | nil => cases found
  | cons c rest ih =>
    have step : m.visitDecorated s (c :: rest) =
        if c.field == some "definition" then m.visitBody s c.children else m.visitDecorated s rest := by
      cases c
      rw [visitDecorated]
    rw [List.find?_cons] at found
    rw [step]
    cases here : c.field == some "definition" with
    | true =>
      rw [here] at found
      rw [if_pos rfl, ← Option.some.inj found]
    | false =>
      rw [here] at found
      exact ih found

/-- A definition comes before what stands in its body. -/
theorem visit_eq (m : Module) (s : Scope) (n : Node) : m.visit s n =
    match m.named? n with
    | none => {}
    | some e => m.define s e.1 e.2 ++ join (e.1.statements.map (m.visit (m.inside s e.2))) := by
  obtain ⟨kind, named, field, start, stop, failing, children⟩ := n
  rw [visit, ← named?]
  split
  · rename_i missing
    rw [missing]
  · rename_i d name found
    rw [found]
    show _ ++ _ = _ ++ _
    congr 1
    obtain ⟨-, inner⟩ := definition?_eq_some (named?_eq_some.1 found).1
    split
    · rename_i decorated
      rw [if_pos decorated] at inner
      rw [visitDecorated_eq inner, visitBody_eq]
      rfl
    · rename_i plain
      rw [if_neg plain] at inner
      have inner : d.node = _ := inner
      rw [visitBody_eq, Definition.statements, inner]
      rfl

theorem sizeOf_child_lt (mem : k ∈ n.children) : sizeOf k < sizeOf n := by
  have inside := List.sizeOf_lt_of_mem mem
  have whole : sizeOf n.children < sizeOf n := by
    cases n
    simp only [Node.mk.sizeOf_spec]
    omega
  exact Nat.lt_trans inside whole

theorem sizeOf_found_lt {field : String} (found : n.child? field = some k) : sizeOf k < sizeOf n :=
  sizeOf_child_lt (List.mem_of_find?_eq_some found)

theorem sizeOf_statement_lt {block : Node} (mem : k ∈ statements block) : sizeOf k < sizeOf block := by
  apply sizeOf_child_lt
  unfold statements at mem
  split at mem
  · exact (List.mem_filter.1 (List.mem_of_mem_drop mem)).1
  · exact (List.mem_filter.1 mem).1

/-- What stands in the body of a definition is smaller than the statement. -/
theorem sizeOf_inner_lt (found : m.named? n = some e) (mem : k ∈ e.1.statements) : sizeOf k < sizeOf n := by
  obtain ⟨-, inner⟩ := definition?_eq_some (named?_eq_some.1 found).1
  have node : sizeOf e.1.node ≤ sizeOf n := by
    split at inner
    · exact Nat.le_of_lt (sizeOf_found_lt inner)
    · rw [inner]
  unfold Definition.statements at mem
  cases body : e.1.node.child? "body" with
  | none => simp [body] at mem
  | some block =>
    rw [body] at mem
    have below := sizeOf_statement_lt mem
    have here := sizeOf_found_lt body
    omega

/-- What holds of a statement if it holds of those in the body of its definition holds of all statements. -/
theorem statement_induction (m : Module) {P : Node → Prop}
    (step : ∀ n, (∀ e, m.named? n = some e → ∀ k ∈ e.1.statements, P k) → P n) (n : Node) : P n := by
  induction size : sizeOf n using Nat.strongRecOn generalizing n with
  | ind size' ih =>
    apply step
    intro e found k mem
    have smaller := sizeOf_inner_lt found mem
    exact ih (sizeOf k) (by omega) k rfl

end Module

/-! ### Symbols -/

/-- A definition with a name in a module, and those around it from the inside outwards. -/
inductive Nested (m : Module) (root : Node) : Definition × String → List (Definition × String) → Prop
  | top {n : Node} {e : Definition × String} : n ∈ Module.statements root → m.named? n = some e →
      Nested m root e []
  | inner {n : Node} {e outer : Definition × String} {around : List (Definition × String)} :
      Nested m root outer around → n ∈ outer.1.statements → m.named? n = some e →
      Nested m root e (outer :: around)

/-- A name behind that of what is around it. -/
def qualify (outer : Option String) (name : String) : String :=
  match outer with
  | none => name
  | some q => q ++ "." ++ name

/-- The qualified name of the innermost of some definitions; outside of them that of the module, if it has one. -/
def qualifiedName (top : Option String) : List (Definition × String) → Option String
  | [] => top
  | e :: around => some (qualify (qualifiedName top around) e.2)

def Module.symbolId (m : Module) (name : String) : String := m.origin ++ "::" ++ name

/-- The symbol of a definition. Its parent is the symbol of what is around it, whose name its own name continues. -/
structure SymbolOf (m : Module) (top : Option String) (e : Definition × String)
    (around : List (Definition × String)) (y : Symbol) : Prop where
  name : y.name = e.2
  kind : y.kind = if e.1.isClass then "class" else "function"
  span : y.startOffset = e.1.outer.start ∧ y.endOffset = e.1.outer.stop
  symbolId : y.symbolId = m.symbolId (qualify (qualifiedName top around) e.2)
  qualified : y.metadata.str? "qualified_name" = some (qualify (qualifiedName top around) e.2)
  parentId : y.parentId = (qualifiedName top around).map m.symbolId

/-- The scope inside some definitions. -/
structure Scope.Inside (m : Module) (top : Option String) (around : List (Definition × String))
    (s : Scope) : Prop where
  parent : s.parent = (qualifiedName top around).map m.symbolId
  names : ∀ name, Module.qualified s name = qualify (qualifiedName top around) name

namespace Module

variable {m : Module} {s : Scope} {n k root : Node} {e : Definition × String} {top : Option String}
  {around : List (Definition × String)} {key other : String}

theorem qualified_inside (m : Module) (s : Scope) (name inner : String) :
    qualified (m.inside s name) inner = qualified s name ++ "." ++ inner := by
  rw [qualified, qualified, inside, String.intercalate_append_of_ne_nil (by simp) (by simp)]
  rw [String.intercalate_singleton]

theorem inside_step (inside : s.Inside m top around) (e : Definition × String) :
    (m.inside s e.2).Inside m top (e :: around) where
  parent := congrArg (fun name => some (m.symbolId name)) (inside.names e.2)
  names name := by
    rw [qualified_inside, inside.names]
    rfl

theorem find?_putList (different : key ≠ other) (d : Metadata) (items : List String) :
    (putList d other items).find? key = d.find? key := by
  unfold putList
  split
  · rfl
  · exact Metadata.find?_put_ne different _

theorem find?_putTrimmed (different : key ≠ other) (m : Module) (d : Metadata) (n : Option Node) :
    (m.putTrimmed d other n).find? key = d.find? key := by
  cases n with
  | none => rfl
  | some n => exact Metadata.find?_put_ne different _

theorem qualified_name_describe (m : Module) (d : Definition) (name : String) :
    (m.describe d name).str? "qualified_name" = some name := by
  have found : (m.describe d name).find? "qualified_name" = some (.str name) := by
    unfold describe
    extract_lets kind named base async parameters
    have own : base.find? "qualified_name" = some (.str name) := by
      rw [find?_putList (by decide), Metadata.find?_putLines_ne (by decide) (by decide)]
      exact SortedMap.find?_insert_self _ _ _
    have flagged : async.find? "qualified_name" = base.find? "qualified_name" :=
      Metadata.find?_put_ne (by decide) _
    cases d.isClass with
    | true =>
      rw [if_pos rfl]
      split
      · rw [find?_putList (by decide), own]
      · exact own
    | false =>
      rw [if_neg Bool.false_ne_true, find?_putTrimmed (by decide), find?_putTrimmed (by decide), flagged, own]
  rw [Metadata.str?, found]
  rfl

theorem symbols_define (inside : s.Inside m top around) (e : Definition × String) :
    ∃ y, (m.define s e.1 e.2).symbols = [y] ∧ SymbolOf m top e around y := by
  unfold define
  extract_lets name id kind symbol
  have same : name = qualify (qualifiedName top around) e.2 := inside.names e.2
  refine ⟨symbol, rfl, rfl, rfl, ⟨rfl, rfl⟩, ?_, ?_, inside.parent⟩
  · rw [← same]
    rfl
  · rw [← same]
    exact qualified_name_describe m e.1 name

theorem symbols_visit (s : Scope) (found : m.named? n = some e) : (m.visit s n).symbols =
    (m.define s e.1 e.2).symbols ++ e.1.statements.flatMap fun k => (m.visit (m.inside s e.2) k).symbols := by
  rw [visit_eq, found]
  show (_ ++ _ : Output).symbols = _
  rw [symbols_append, symbols_join, List.flatMap_map]

/-- All symbols of a statement are those of definitions in it. -/
theorem nested_of_symbol (m : Module) (root : Node) (top : Option String) (n : Node) :
    ∀ s around, s.Inside m top around → (∀ e, m.named? n = some e → Nested m root e around) →
      ∀ y ∈ (m.visit s n).symbols, ∃ e around, Nested m root e around ∧ SymbolOf m top e around y := by
  induction n using statement_induction m with
  | step n ih =>
    intro s around inside nested y mem
    cases found : m.named? n with
    | none =>
      rw [visit_eq, found] at mem
      cases mem
    | some e =>
      have here := nested e found
      obtain ⟨own, symbol, described⟩ := symbols_define inside e
      rw [symbols_visit s found, symbol] at mem
      rcases List.mem_append.1 mem with mem | mem
      · rw [List.mem_singleton.1 mem]
        exact ⟨e, around, here, described⟩
      · obtain ⟨k, there, mem⟩ := List.mem_flatMap.1 mem
        apply ih e found k there _ _ (inside_step inside e) _ y mem
        intro e' found'
        exact .inner here there found'

theorem visited_of_nested (nested : Nested m root e around) (outermost : s.Inside m top []) :
    ∃ n inner, m.named? n = some e ∧ inner.Inside m top around ∧
      ∀ y ∈ (m.visit inner n).symbols, ∃ k ∈ statements root, y ∈ (m.visit s k).symbols := by
  induction nested with
  | @top n e mem found => exact ⟨n, s, found, outermost, fun y there => ⟨n, mem, there⟩⟩
  | @inner n e outer around _ mem found ih =>
    obtain ⟨k, scope, found', inside, visited⟩ := ih
    refine ⟨n, m.inside scope outer.2, found, inside_step inside outer, ?_⟩
    intro y there
    apply visited y
    rw [symbols_visit scope found']
    exact List.mem_append_right _ (List.mem_flatMap.2 ⟨n, mem, there⟩)

theorem symbol_of_nested (nested : Nested m root e around) (outermost : s.Inside m top []) :
    ∃ y, SymbolOf m top e around y ∧ ∃ k ∈ statements root, y ∈ (m.visit s k).symbols := by
  obtain ⟨n, inner, found, inside, visited⟩ := visited_of_nested nested outermost
  obtain ⟨y, symbol, described⟩ := symbols_define inside e
  refine ⟨y, described, visited y ?_⟩
  rw [symbols_visit inner found, symbol]
  exact List.mem_append_left _ (List.mem_singleton_self y)

end Module

/-- Symbols of all definitions in a module. -/
structure Declares (m : Module) (root : Node) (top : Option String) (symbols : List Symbol) : Prop where
  each : ∀ y ∈ symbols, ∃ e around, Nested m root e around ∧ SymbolOf m top e around y
  all : ∀ e around, Nested m root e around → ∃ y ∈ symbols, SymbolOf m top e around y
  under : ∀ e outer around y, Nested m root e (outer :: around) → SymbolOf m top e (outer :: around) y →
    ∃ z ∈ symbols, SymbolOf m top outer around z ∧ y.parentId = some z.symbolId

/-- Symbols under the scope of a module, or under none, are those of its definitions. -/
theorem declares_visits {m : Module} {s : Scope} {root : Node} {top : Option String}
    (outermost : s.Inside m top []) :
    Declares m root top ((Module.statements root).flatMap fun n => (m.visit s n).symbols) := by
  have all : ∀ e around, Nested m root e around →
      ∃ y ∈ (Module.statements root).flatMap fun n => (m.visit s n).symbols, SymbolOf m top e around y := by
    intro e around nested
    obtain ⟨y, described, k, there, mem⟩ := Module.symbol_of_nested nested outermost
    exact ⟨y, List.mem_flatMap.2 ⟨k, there, mem⟩, described⟩
  refine ⟨?_, all, ?_⟩
  · intro y mem
    obtain ⟨n, there, mem⟩ := List.mem_flatMap.1 mem
    exact Module.nested_of_symbol m root top n s [] outermost (fun e found => .top there found) y mem
  · intro e outer around y nested described
    cases nested with
    | inner nested there found =>
      obtain ⟨z, mem, above⟩ := all outer around nested
      refine ⟨z, mem, above, ?_⟩
      rw [described.parentId, above.symbolId]
      rfl

end SourceSlices.Python
