import SourceSlices.Css.Rules
import SourceSlices.Plain.Blocks
import SourceSlices.Proofs.LinkedDelegation
import SourceSlices.Python.Definitions

/-!
Handlers that hand nothing over: plain text, style sheets and Python. Whatever tree a text is read
as, their outputs are linked, at the top and below a delegation.
-/
namespace SourceSlices

open Output

variable {known : String → Prop} {symbols chunks : Set String}

/-! ### Results -/

theorem linked_toResult {o : Output} (linked : o.Linked known symbols chunks) (source : LoadedSource) :
    (o.toResult source).output.Linked known symbols chunks :=
  linked_of_same linked rfl rfl

theorem linked_unreadable (r : Reading) (path language : String) (e : Error) :
    (r.unreadable path language e).output.Linked known symbols chunks :=
  linked_of_same linked_empty rfl rfl

theorem linked_trouble (failing : Bool) (w : String) :
    Linked known symbols chunks (if failing then .ofWarning w else {}) := by
  split
  · exact linked_ofWarning w
  · exact linked_empty

/-! ### Plain text -/

theorem Plain.linked_read (r : Reading) (path : String) :
    (Plain.read r path).output.Linked known ∅ ∅ := by
  unfold Plain.read
  split
  · exact linked_unreadable r path "text" _
  · refine linked_toResult ?_ _
    unfold Plain.output
    split
    · exact linked_empty
    · refine linked_join fun o mem => ?_
      obtain ⟨b, -, rfl⟩ := List.mem_map.1 mem
      refine linked_ofChunk _ _ _ _ ?_ rfl (refersTo_none _)
      simp (disch := decide) [Metadata.Free]

/-! ### Style sheets -/

namespace Css

namespace Sheet

variable {s : Sheet} {at' : Scope}

theorem linked_piece (exact : Bool) (id : String) (start stop : Nat) {parent : Option String}
    {m : Metadata} (free : m.Free) (owner : RefersTo symbols parent) :
    (s.chunk exact (s.piece id start stop parent m)).Linked known symbols chunks :=
  linked_ofChunk _ _ _ _ ((Metadata.links_putLines m _ _ _).trans free) rfl owner

@[simp] theorem links_putCascade (m : Metadata) (cascade : Option String) :
    (putCascade m cascade).links = m.links := by
  cases cascade with
  | none => rfl
  | some c => exact Metadata.links_putStr (by decide) c

theorem linked_comment (above : RefersTo symbols at'.parent) (n : Syntax.Node) :
    (s.comment at' n).Linked known symbols chunks :=
  linked_piece true _ _ _ (by simp (disch := decide) [Metadata.Free]) above

theorem linked_error (above : RefersTo symbols at'.parent) (n : Syntax.Node) :
    (s.error at' n).Linked known symbols chunks :=
  (linked_ofWarning _).beside
    (linked_piece true _ _ _ (by simp (disch := decide) [Metadata.Free]) above)

theorem linked_keyframe (above : RefersTo symbols at'.parent) (n : Syntax.Node) :
    (s.keyframe at' n).Linked known symbols chunks :=
  linked_piece true _ _ _ (by simp (disch := decide) [Metadata.Free]) above

theorem linked_selector {id : String} (owner : id ∈ symbols) (n : Syntax.Node) (body : List Char)
    (cascade : Option String) (total index : Nat) (sel : List Char) :
    (s.selector n id body cascade total index sel).Linked known symbols chunks := by
  have free : Metadata.Free (putCascade (Metadata.ofList [("kind", .str "rule"),
      ("selector", .str (String.ofList sel)), ("selector_index", .nat index),
      ("selector_total", .nat total), ("body", .str (String.ofList body))]) cascade) := by
    refine (links_putCascade _ _).trans (Metadata.free_ofList ?_)
    simp [linkKeys]
  unfold selector
  split
  · exact linked_piece true _ _ _ free (refersTo_some owner)
  · exact linked_ofChunk _ _ _ _ ((Metadata.links_putLines _ _ _ _).trans free) rfl (refersTo_some owner)

theorem linked_rule (above : RefersTo symbols at'.parent) (n block : Syntax.Node)
    {below : Output}
    (linked : below.Linked known (insert ("css:rule:" ++ toString n.start) symbols) chunks) :
    (s.ruleHead at' n block ++ below).Linked known symbols chunks := by
  unfold ruleHead
  rw [append_assoc]
  refine Linked.under (Metadata.links_putLines _ _ _ _) above ((linked_join fun o mem => ?_).beside linked)
  obtain ⟨i, _, rfl⟩ := List.mem_mapIdx.1 mem
  exact linked_selector (Set.mem_insert _ _) _ _ _ _ _ _

theorem linked_atRule (above : RefersTo symbols at'.parent) (n keyword : Syntax.Node)
    (body : Option Syntax.Node) {below : Output}
    (linked : below.Linked known (insert (atRuleId n) symbols) chunks) :
    (s.atRuleHead at' n keyword body ++ below).Linked known symbols chunks := by
  unfold atRuleHead
  rw [append_assoc]
  refine Linked.under (Metadata.links_putLines _ _ _ _) above ((linked_piece true _ _ _ ?_ ?_).beside linked)
  · refine (links_putCascade _ _).trans (Metadata.free_ofList ?_)
    simp [linkKeys]
  · exact refersTo_some (Set.mem_insert _ _)

mutual

theorem linked_visit (s : Sheet) (at' : Scope) {symbols : Set String}
    (above : RefersTo symbols at'.parent) :
    ∀ n : Syntax.Node, (s.visit at' n).Linked known symbols chunks
  | ⟨kind, named, field, start, stop, failing, children⟩ => by
    unfold visit
    split
    · split
      · exact linked_empty
      · exact linked_rule above _ _ (linked_visitBlock s _
          (refersTo_some (Set.mem_insert _ _)) children)
    · split
      · exact linked_comment above _
      · split
        · exact linked_error above _
        · split
          · split
            · exact linked_empty
            · exact linked_atRule above _ _ _ (linked_visitBody s _
                (refersTo_some (Set.mem_insert _ _)) children)
          · exact linked_empty

theorem linked_visitBlock (s : Sheet) (at' : Scope) {symbols : Set String}
    (above : RefersTo symbols at'.parent) :
    ∀ l : List Syntax.Node, (s.visitBlock at' l).Linked known symbols chunks
  | [] => linked_empty
  | ⟨kind, named, field, start, stop, failing, children⟩ :: rest => by
    unfold visitBlock
    split
    · exact linked_visitNested s at' above children
    · exact linked_visitBlock s at' above rest

theorem linked_visitNested (s : Sheet) (at' : Scope) {symbols : Set String}
    (above : RefersTo symbols at'.parent) :
    ∀ l : List Syntax.Node, (s.visitNested at' l).Linked known symbols chunks
  | [] => linked_empty
  | n :: rest => by
    unfold visitNested
    refine Linked.beside ?_ (linked_visitNested s at' above rest)
    split
    · exact linked_visit s at' above n
    · exact linked_empty

theorem linked_visitBody (s : Sheet) (at' : Scope) {symbols : Set String}
    (above : RefersTo symbols at'.parent) :
    ∀ l : List Syntax.Node, (s.visitBody at' l).Linked known symbols chunks
  | [] => linked_empty
  | ⟨kind, named, field, start, stop, failing, children⟩ :: rest => by
    unfold visitBody
    split
    · exact linked_visitAll s at' above children
    · split
      · exact linked_visitFrames s at' above children
      · exact linked_visitBody s at' above rest

theorem linked_visitFrames (s : Sheet) (at' : Scope) {symbols : Set String}
    (above : RefersTo symbols at'.parent) :
    ∀ l : List Syntax.Node, (s.visitFrames at' l).Linked known symbols chunks
  | [] => linked_empty
  | n :: rest => by
    unfold visitFrames
    refine Linked.beside ?_ (linked_visitFrames s at' above rest)
    split
    · exact linked_keyframe above n
    · exact linked_visit s at' above n

theorem linked_visitAll (s : Sheet) (at' : Scope) {symbols : Set String}
    (above : RefersTo symbols at'.parent) :
    ∀ l : List Syntax.Node, (s.visitAll at' l).Linked known symbols chunks
  | [] => linked_empty
  | n :: rest => (linked_visit s at' above n).beside (linked_visitAll s at' above rest)

end

end Sheet

theorem linked_read (r : Reading) (path : String) : (read r path).output.Linked known ∅ ∅ := by
  unfold read
  split
  · exact linked_unreadable r path "css" _
  · refine linked_toResult ?_ _
    by_cases top : r.depth = 0
    · simp only [if_pos top]
      refine Linked.under (Metadata.links_putLines _ _ _ _) (refersTo_none _)
        (Sheet.linked_visitAll _ _ (refersTo_some (Set.mem_insert _ _)) _)
    · simp only [if_neg top]
      exact linked_empty.beside (Sheet.linked_visitAll _ _ (refersTo_none _) _)

end Css

/-! ### Python -/

namespace Python

namespace Module

variable {m : Module} {scope : Scope}

@[simp] theorem links_putList {key : String} (other : key ∉ linkKeys) (d : Metadata)
    (items : List String) : (putList d key items).links = d.links := by
  unfold putList
  split
  · rfl
  · exact Metadata.links_put other _

@[simp] theorem links_putTrimmed {key : String} (other : key ∉ linkKeys) (m : Module) (d : Metadata)
    (n : Option Syntax.Node) : (m.putTrimmed d key n).links = d.links := by
  cases n with
  | none => rfl
  | some n => exact Metadata.links_putStr other _

theorem free_describe (m : Module) (d : Definition) (name : String) : (m.describe d name).Free := by
  unfold describe
  cases d.isClass with
  | true =>
    simp only [if_true]
    split <;> simp (disch := decide) [Metadata.Free]
  | false => simp (disch := decide) [Metadata.Free]

theorem linked_chunks (id kind : String) (start stop : Nat) {parent : Option String} (label : String)
    {more : Metadata → Metadata} (owner : RefersTo symbols parent)
    (links : ∀ d, (more d).links = d.links) :
    (m.chunks id kind start stop parent label more).Linked known symbols chunks := by
  refine (linked_ofChunk _ _ _ _ ?_ rfl owner).mapMetadata more links
  simp (disch := decide) [Metadata.Free]

theorem linked_define (above : RefersTo symbols scope.parent) (d : Definition) (name : String)
    {below : Output}
    (linked : below.Linked known (insert (m.origin ++ "::" ++ qualified scope name) symbols) chunks) :
    (m.define scope d name ++ below).Linked known symbols chunks := by
  unfold define
  rw [append_assoc]
  refine Linked.under (free_describe m d _) above ((linked_chunks _ _ _ _ _ ?_ fun c => ?_).beside linked)
  · exact refersTo_some (Set.mem_insert _ _)
  · rw [links_putList (by decide)]
    split
    · exact Metadata.links_putBool (by decide) true
    · rfl

mutual

theorem linked_visit (m : Module) (scope : Scope) {symbols : Set String}
    (above : RefersTo symbols scope.parent) :
    ∀ n : Syntax.Node, (m.visit scope n).Linked known symbols chunks
  | ⟨kind, named, field, start, stop, failing, children⟩ => by
    unfold visit
    split
    · exact linked_empty
    · rename_i d name _
      refine linked_define above d name ?_
      split
      · exact linked_visitDecorated m _ (refersTo_some (Set.mem_insert _ _)) children
      · exact linked_visitBody m _ (refersTo_some (Set.mem_insert _ _)) children

theorem linked_visitDecorated (m : Module) (scope : Scope) {symbols : Set String}
    (above : RefersTo symbols scope.parent) :
    ∀ l : List Syntax.Node, (m.visitDecorated scope l).Linked known symbols chunks
  | [] => linked_empty
  | ⟨kind, named, field, start, stop, failing, children⟩ :: rest => by
    unfold visitDecorated
    split
    · exact linked_visitBody m scope above children
    · exact linked_visitDecorated m scope above rest

theorem linked_visitBody (m : Module) (scope : Scope) {symbols : Set String}
    (above : RefersTo symbols scope.parent) :
    ∀ l : List Syntax.Node, (m.visitBody scope l).Linked known symbols chunks
  | [] => linked_empty
  | ⟨kind, named, field, start, stop, failing, children⟩ :: rest => by
    unfold visitBody
    split
    · exact linked_visitBlock m scope _ above children
    · exact linked_visitBody m scope above rest

theorem linked_visitBlock (m : Module) (scope : Scope) (skipsFirst : Bool) {symbols : Set String}
    (above : RefersTo symbols scope.parent) :
    ∀ l : List Syntax.Node, (m.visitBlock scope skipsFirst l).Linked known symbols chunks
  | [] => linked_empty
  | n :: rest => by
    unfold visitBlock
    split
    · exact linked_visitBlock m scope skipsFirst above rest
    · split
      · exact linked_visitBlock m scope false above rest
      · exact (linked_visit m scope above n).beside (linked_visitBlock m scope false above rest)

end

theorem linked_looseCode (above : RefersTo symbols scope.parent) (pending : Option (Nat × Nat)) :
    (m.looseCode scope pending).Linked known symbols chunks := by
  cases pending with
  | none => exact linked_empty
  | some span => exact linked_chunks _ _ _ _ _ above fun _ => rfl

theorem linked_topLevel (above : RefersTo symbols scope.parent) (l : List Syntax.Node) :
    ∀ pending, (m.topLevel scope pending l).Linked known symbols chunks := by
  induction l with
  | nil => exact linked_looseCode above
  | cons n rest ih =>
    intro pending
    unfold topLevel
    split
    · exact ih _
    · refine (linked_looseCode above pending).beside ?_
      split
      · exact (linked_visit m scope above n).beside (ih none)
      · exact ih _

theorem linked_docstringChunk (above : RefersTo symbols scope.parent) (name : String)
    (root : Syntax.Node) : (m.docstringChunk scope name root).Linked known symbols chunks := by
  unfold docstringChunk
  split
  · exact linked_chunks _ _ _ _ _ above fun _ => rfl
  · exact linked_empty

end Module

theorem linked_read (r : Reading) (path : String) : (read r path).output.Linked known ∅ ∅ := by
  unfold read
  split
  · exact linked_unreadable r path "python" _
  · refine linked_toResult ?_ _
    have inner (m : Module) (scope : Scope) (name : String) (root : Syntax.Node) {symbols : Set String}
        (above : RefersTo symbols scope.parent) :
        (m.docstringChunk scope name root ++ m.topLevel scope none (Module.statements root)).Linked known
          symbols ∅ :=
      (Module.linked_docstringChunk above name root).beside (Module.linked_topLevel above _ none)
    simp only [append_assoc]
    refine (linked_trouble _ _).beside ?_
    by_cases top : r.depth = 0
    · simp only [if_pos top]
      refine Linked.under ?_ (refersTo_none _) (inner _ _ _ _ (refersTo_some (Set.mem_insert _ _)))
      simp (disch := decide) [Metadata.Free]
    · simp only [if_neg top]
      exact linked_empty.beside (inner _ _ _ _ (refersTo_none _))

end Python

end SourceSlices
