import SourceSlices.Delegation
import SourceSlices.Proofs.LinkedOutput

/-!
What a delegation adds is linked. The chunk of the part that is handed over refers to the symbol and
the chunk that it comes from; all that the other handler found hangs below it, under ids of its own.
-/
namespace SourceSlices

namespace Metadata

variable {m m' : Metadata} {key other : String}

theorem str?_union (free : m.Free) (mem : key ∈ linkKeys) :
    Metadata.str? (m.union m') key = m'.str? key := by
  have nothing : m.find? key = none := links_eq_iff.1 free key mem
  rw [str?, SortedMap.find?_union, nothing, Option.or_none, str?]

end Metadata

/-- A handler that a reading can look up. -/
def Reading.Registered (r : Reading) (handler : String) : Prop := r.registry.contains handler = true

namespace Delegation

open Output

variable {known : String → Prop} {symbols chunks : Set String} {r : Reading} {q : Request}
  {ns : String → String} {shift : Nat} {c : Chunk} {m : Metadata} {key : String}

/-! ### The keys that a delegation writes -/

theorem str?_putSome_self (m : Metadata) (key : String) (value : Option String) :
    (putSome m key value).str? key = value.or (m.str? key) := by
  cases value with
  | none => rfl
  | some v => exact Metadata.str?_putStr_self m key v

theorem find?_putSome_ne {other : String} (different : key ≠ other) (value : Option String) :
    (putSome m other value).find? key = m.find? key := by
  cases value with
  | none => rfl
  | some v => exact Metadata.find?_put_ne different _

theorem str?_putSome_ne {other : String} (different : key ≠ other) (value : Option String) :
    (putSome m other value).str? key = m.str? key := by
  rw [Metadata.str?, find?_putSome_ne different, Metadata.str?]

@[simp] theorem links_putSome (other : key ∉ linkKeys) (value : Option String) :
    (putSome m key value).links = m.links := by
  cases value with
  | none => rfl
  | some v => exact Metadata.links_putStr other v

theorem linkage_symbol (delegate parentHandler : String) (symbol chunk : Option String) :
    (linkage delegate parentHandler symbol chunk []).str? "delegate_parent_symbol" = symbol := by
  simp only [linkage, List.foldl_nil]
  rw [str?_putSome_ne (by decide), str?_putSome_self, Metadata.str?_putStr_ne (by decide),
    Metadata.str?_putStr_ne (by decide)]
  exact Option.or_none

theorem linkage_chunk (delegate parentHandler : String) (symbol chunk : Option String) :
    (linkage delegate parentHandler symbol chunk []).str? "delegate_parent_chunk" = chunk := by
  simp only [linkage, List.foldl_nil]
  rw [str?_putSome_self, str?_putSome_ne (by decide), Metadata.str?_putStr_ne (by decide),
    Metadata.str?_putStr_ne (by decide)]
  exact Option.or_none

/-- The number under one key moved down. -/
def moveLine (shift : Nat) (m : Metadata) (key : String) : Metadata :=
  match m.int? key with
  | some line => m.put key (.int (line + shift))
  | none => m

theorem find?_moveLine_ne {other : String} (different : key ≠ other) (shift : Nat) (m : Metadata) :
    (moveLine shift m other).find? key = m.find? key := by
  unfold moveLine
  split
  · exact Metadata.find?_put_ne different _
  · rfl

theorem int?_moveLine_self (shift : Nat) (m : Metadata) (key : String) :
    (moveLine shift m key).int? key = (m.int? key).map (· + (shift : Int)) := by
  unfold moveLine
  split
  · rename_i line recorded
    rw [recorded, Metadata.int?, Metadata.put, SortedMap.find?_insert_self]
    rfl
  · rename_i none
    rw [none]
    rfl

theorem shiftLines_eq (some : shift ≠ 0) (m : Metadata) :
    shiftLines shift m = lineKeys.foldl (moveLine shift) m := by
  rw [shiftLines, if_neg some]
  rfl

theorem find?_moveLines {keys : List String} (other : key ∉ keys) (shift : Nat) (m : Metadata) :
    (keys.foldl (moveLine shift) m).find? key = m.find? key := by
  induction keys generalizing m with
  | nil => rfl
  | cons k rest ih =>
    obtain ⟨different, later⟩ := not_or.1 (mt List.mem_cons.2 other)
    rw [List.foldl_cons, ih later, find?_moveLine_ne different]

/-- Every number is moved once. -/
theorem int?_moveLines {keys : List String} (distinct : keys.Nodup) (mem : key ∈ keys) (shift : Nat)
    (m : Metadata) :
    (keys.foldl (moveLine shift) m).int? key = (m.int? key).map (· + (shift : Int)) := by
  induction keys generalizing m with
  | nil => cases mem
  | cons k rest ih =>
    obtain ⟨away, distinct'⟩ := List.nodup_cons.1 distinct
    rw [List.foldl_cons]
    rcases List.mem_cons.1 mem with rfl | later
    · rw [Metadata.int?, find?_moveLines away]
      exact int?_moveLine_self shift m key
    · have different : key ≠ k := fun same => away (same ▸ later)
      rw [ih distinct' later, Metadata.int?, find?_moveLine_ne different, Metadata.int?]

theorem find?_shiftLines (other : key ∉ lineKeys) (shift : Nat) (m : Metadata) :
    (shiftLines shift m).find? key = m.find? key := by
  by_cases none : shift = 0
  · rw [shiftLines, if_pos none]
  · rw [shiftLines_eq none, find?_moveLines other]

theorem int?_shiftLines (mem : key ∈ lineKeys) (shift : Nat) (m : Metadata) :
    (shiftLines shift m).int? key = (m.int? key).map (· + (shift : Int)) := by
  by_cases none : shift = 0
  · rw [shiftLines, if_pos none, none]
    cases m.int? key <;> simp
  · rw [shiftLines_eq none, int?_moveLines (by decide) mem]

theorem links_shiftLines (shift : Nat) (m : Metadata) : (shiftLines shift m).links = m.links := by
  have others : ∀ key ∈ linkKeys, key ∉ lineKeys := by decide
  exact Metadata.links_eq_iff.2 fun key mem => find?_shiftLines (others key mem) shift m

theorem find?_putHandler_ne (different : key ≠ "handler") (delegate : String) (m : Metadata) :
    (putHandler delegate m).find? key = m.find? key := by
  unfold putHandler
  split
  · rfl
  · exact Metadata.find?_put_ne different _

theorem str?_putHandler_ne (different : key ≠ "handler") (delegate : String) (m : Metadata) :
    (putHandler delegate m).str? key = m.str? key := by
  rw [Metadata.str?, find?_putHandler_ne different, Metadata.str?]

/-- A handler that is recorded stays, and where there is none the delegate is recorded. -/
theorem str?_putHandler {delegate h : String}
    (named : (putHandler delegate m).str? "handler" = some h) :
    m.str? "handler" = some h ∨ h = delegate := by
  unfold putHandler at named
  split at named
  · exact Or.inl named
  · rw [Metadata.str?_putStr_self] at named
    exact Or.inr (Option.some.inj named).symm

/-! ### The part itself -/

/-- A request whose part comes from a symbol and a chunk that are there. -/
structure Request.Placed (symbols chunks : Set String) (q : Request) : Prop where
  free : q.metadata.Free
  symbol : RefersTo symbols q.parentSymbol
  chunk : RefersTo chunks q.parentChunk

theorem links_shell (q : Request) : q.shell.metadata.links = Metadata.links
    (q.metadata.union (linkage q.delegate q.parentHandler q.parentSymbol q.parentChunk [])) := by
  unfold Request.shell
  simp (disch := decide) only [Metadata.links_putNat]

theorem shell_delegating (free : q.metadata.Free) : q.shell.delegating? = q.parentSymbol := by
  rw [Chunk.delegating?, Metadata.str?_of_links (links_shell q) (by decide),
    Metadata.str?_union free (by decide), linkage_symbol]

theorem shell_enclosing (free : q.metadata.Free) : q.shell.enclosing? = q.parentChunk := by
  rw [Chunk.enclosing?, Metadata.str?_of_links (links_shell q) (by decide),
    Metadata.str?_union free (by decide), linkage_chunk]

theorem attached_shell (placed : q.Placed symbols chunks) (registered : known q.delegate) :
    q.shell.Attached known symbols where
  owner := placed.symbol
  delegating p named := placed.symbol p (shell_delegating placed.free ▸ named)
  handler h named := by
    have same : q.delegate = h := Option.some.inj named
    exact same ▸ registered
  rooted _ some := by
    rw [shell_delegating placed.free] at some
    exact some

/-- A part that is kept as it is names no handler. -/
theorem linked_keepPlain (placed : q.Placed symbols chunks) (status : Status) (warning : String) :
    (keepPlain r q status warning).output.Linked known symbols chunks := by
  have kept {key : String} (other : key ≠ "handler") (own : key ≠ "delegate_status") :
      (Metadata.putStr (q.shell.metadata.erase "handler") "delegate_status" status.name).str? key =
        q.shell.metadata.str? key := by
    rw [Metadata.str?_putStr_ne own, Metadata.str?, SortedMap.find?_erase_ne other, Metadata.str?]
  have handler : (Metadata.putStr (q.shell.metadata.erase "handler") "delegate_status"
      status.name).str? "handler" = none := by
    rw [Metadata.str?_putStr_ne (by decide), Metadata.str?, SortedMap.find?_erase_self]
    rfl
  have delegating := (kept (by decide) (by decide)).trans (shell_delegating placed.free)
  have enclosing := (kept (by decide) (by decide)).trans (shell_enclosing placed.free)
  refine linked_of_same (linked_parts r.count (r.maxTokens q.parentHandler) none
    ⟨placed.symbol, fun p named => ?_, fun h named => ?_, fun _ some => ?_⟩ fun p named => ?_) rfl rfl
  · exact placed.symbol p (delegating.symm.trans named)
  · cases handler.symm.trans named
  · exact (congrArg Option.isSome delegating).symm.trans some
  · exact placed.chunk p (enclosing.symm.trans named)

/-! ### What the other handler found -/

/-- The keys that link what is taken over to the part. -/
def relinkKeys : List String :=
  ["delegate_parent_chunk", "delegate_parent_handler", "delegate_parent_symbol"]

theorem find?_relink (other : key ∉ relinkKeys) (q : Request) (ns : String → String)
    (symbol : Option String) (m : Metadata) : (relink q ns symbol m).find? key = m.find? key := by
  simp only [relinkKeys, List.mem_cons, not_or] at other
  obtain ⟨chunk, handler, owner, -⟩ := other
  unfold relink
  split
  · rw [find?_putSome_ne owner, Metadata.putStr, Metadata.find?_put_ne chunk]
  · rw [find?_putSome_ne owner, Metadata.putStr, Metadata.find?_put_ne handler, Metadata.putStr,
      Metadata.find?_put_ne chunk]

theorem relink_handler (q : Request) (ns : String → String) (symbol : Option String) (m : Metadata) :
    (relink q ns symbol m).str? "handler" = m.str? "handler" := by
  rw [Metadata.str?, find?_relink (by decide), Metadata.str?]

/-- What names a chunk and its handler is all that changes before the lines are moved. -/
theorem find?_relinked (other : key ∉ "handler" :: relinkKeys) (q : Request) (ns : String → String)
    (symbol : Option String) (m : Metadata) :
    (putHandler q.delegate (relink q ns symbol m)).find? key = m.find? key := by
  obtain ⟨handler, link⟩ := not_or.1 (mt List.mem_cons.2 other)
  rw [find?_putHandler_ne handler, find?_relink link]

theorem find?_adoptChunk (other : key ∉ "handler" :: relinkKeys) (noLine : key ∉ lineKeys)
    (q : Request) (ns : String → String) (shift : Nat) (c : Chunk) :
    (adoptChunk q ns shift c).metadata.find? key = c.metadata.find? key := by
  rw [adoptChunk, find?_shiftLines noLine, find?_relinked other]

theorem int?_adoptChunk (mem : key ∈ lineKeys) (q : Request) (ns : String → String) (shift : Nat)
    (c : Chunk) : (adoptChunk q ns shift c).metadata.int? key =
      (c.metadata.int? key).map (· + (shift : Int)) := by
  have others : ∀ key ∈ lineKeys, key ∉ "handler" :: relinkKeys := by decide
  rw [adoptChunk, int?_shiftLines mem, Metadata.int?, find?_relinked (others key mem), Metadata.int?]

theorem int?_adoptSymbol (mem : key ∈ lineKeys) (q : Request) (ns : String → String) (shift : Nat)
    (y : Symbol) : (adoptSymbol q ns shift y).metadata.int? key =
      (y.metadata.int? key).map (· + (shift : Int)) := by
  have others : ∀ key ∈ lineKeys, key ≠ "handler" := by decide
  rw [adoptSymbol, Metadata.int?, find?_putHandler_ne (others key mem), ← Metadata.int?,
    int?_shiftLines mem]

/-- What is taken over hangs below a chunk that it came from, or below the part. -/
theorem adopt_enclosing (q : Request) (ns : String → String) (shift : Nat) (c : Chunk) :
    (adoptChunk q ns shift c).enclosing? = (c.enclosing?.map ns).or (some q.id) := by
  unfold Chunk.enclosing? adoptChunk
  rw [Metadata.str?_of_links (links_shiftLines _ _) (by decide), str?_putHandler_ne (by decide), relink]
  split
  · rename_i parent named
    rw [str?_putSome_ne (by decide), Metadata.str?_putStr_self, named]
    rfl
  · rename_i none
    rw [str?_putSome_ne (by decide), Metadata.str?_putStr_ne (by decide), Metadata.str?_putStr_self, none]
    rfl

theorem adopt_delegating (q : Request) (ns : String → String) (shift : Nat) (c : Chunk) :
    (adoptChunk q ns shift c).delegating? =
      if c.enclosing?.isSome then c.delegating?.map ns
      else (adoptChunk q ns shift c).parentSymbolId.or c.delegating? := by
  unfold Chunk.delegating? Chunk.enclosing? adoptChunk
  rw [Metadata.str?_of_links (links_shiftLines _ _) (by decide), str?_putHandler_ne (by decide), relink]
  split
  · rename_i parent named
    rw [str?_putSome_self, Metadata.str?_putStr_ne (by decide), named, Option.isSome_some, if_pos rfl]
    cases c.metadata.str? "delegate_parent_symbol" <;> rfl
  · rename_i none
    rw [str?_putSome_self, Metadata.str?_putStr_ne (by decide), Metadata.str?_putStr_ne (by decide), none]
    rfl

theorem adopt_handler {known : String → Prop} (registered : known q.delegate)
    (own : ∀ h, c.handler? = some h → known h) (h : String)
    (named : (adoptChunk q ns shift c).handler? = some h) : known h := by
  unfold Chunk.handler? adoptChunk at named
  dsimp only at named
  rw [Metadata.str?_of_links (links_shiftLines _ _) (by decide)] at named
  cases delegate : c.delegate with
  | some d =>
    rw [delegate] at named
    exact own h (by rw [Chunk.handler?, delegate]; exact named)
  | none =>
    rw [delegate, Option.none_or] at named
    rcases str?_putHandler named with recorded | rfl
    · rw [relink_handler] at recorded
      exact own h (by rw [Chunk.handler?, delegate]; exact recorded)
    · exact registered

theorem adopt_parent (q : Request) (ns : String → String) (shift : Nat) (y : Symbol) :
    (adoptSymbol q ns shift y).parentId = (y.parentId.map ns).or q.parentSymbol := by
  unfold adoptSymbol
  cases y.parentId <;> rfl

theorem adopt_owner (q : Request) (ns : String → String) (shift : Nat) (c : Chunk) :
    (adoptChunk q ns shift c).parentSymbolId = (c.parentSymbolId.map ns).or q.parentSymbol := by
  unfold adoptChunk
  cases c.parentSymbolId <;> rfl

theorem adopt_continued (q : Request) (ns : String → String) (shift : Nat) (c : Chunk) :
    (adoptChunk q ns shift c).continued? = c.continued?.map ns := by
  change (if c.partIndex = 0 then none else some (ns c.chunkId)) = c.continued?.map ns
  unfold Chunk.continued?
  split <;> rfl

theorem adopt_symbol_handler {y : Symbol} (registered : known q.delegate)
    (own : ∀ h, y.handler? = some h → known h) (h : String)
    (named : (adoptSymbol q ns shift y).handler? = some h) : known h := by
  rcases str?_putHandler named with recorded | rfl
  · rw [Metadata.str?_of_links (links_shiftLines _ _) (by decide)] at recorded
    exact own h recorded
  · exact registered

/-- A chunk that is taken over stays attached to symbols that are taken over with it. -/
theorem attached_adopted {names : Set String} (registered : known q.delegate)
    (renamed : ∀ p ∈ names, ns p ∈ symbols) (symbol : RefersTo symbols q.parentSymbol)
    (good : c.Attached known names) : (adoptChunk q ns shift c).Attached known symbols := by
  have owner : RefersTo symbols (adoptChunk q ns shift c).parentSymbolId := by
    rw [adopt_owner]
    exact refersTo_renamed (fun p own => renamed p (good.owner p own)) symbol
  refine ⟨owner, ?_, adopt_handler registered good.handler, fun none => ?_⟩
  · rw [adopt_delegating]
    split
    · intro p named
      obtain ⟨p', own, rfl⟩ := Option.map_eq_some_iff.1 named
      exact renamed p' (good.delegating p' own)
    · rename_i outer
      intro p named
      cases taken : (adoptChunk q ns shift c).parentSymbolId with
      | some p' =>
        rw [taken] at named
        exact owner p (taken.trans named)
      | none =>
        -- Without an owner there is no delegating symbol either.
        rw [taken, Option.none_or] at named
        have rooted := good.rooted (Option.not_isSome_iff_eq_none.1 outer)
          (Option.isSome_iff_exists.2 ⟨p, named⟩)
        obtain ⟨p', own⟩ := Option.isSome_iff_exists.1 rooted
        rw [adopt_owner, own] at taken
        cases taken
  · rw [adopt_enclosing] at none
    cases linked : c.enclosing? <;> simp [linked] at none

/-- An output that is linked in itself is linked to the part when it is taken over. -/
theorem linked_adopted {o : Output} (ns : String → String) (shift : Nat) (registered : known q.delegate)
    (symbol : RefersTo symbols q.parentSymbol) (part : q.id ∈ chunks)
    (linked : o.Linked known ∅ ∅) :
    Linked known symbols chunks
      { o with
        symbols := o.symbols.map (adoptSymbol q ns shift)
        chunks := o.chunks.map (adoptChunk q ns shift) } where
  parents := linksBack_map ns (fun _ => rfl) (adopt_parent q ns shift) symbol
    (fun _ there => there.elim) linked.parents
  handlers y mem := by
    obtain ⟨y, there, rfl⟩ := List.mem_map.1 mem
    exact adopt_symbol_handler registered (linked.handlers y there)
  enclosing := linksBack_map ns (fun _ => rfl) (adopt_enclosing q ns shift) (refersTo_some part)
    (fun _ there => there.elim) linked.enclosing
  continued := linksBack_map ns (fun _ => rfl)
    (fun c => (adopt_continued q ns shift c).trans Option.or_none.symm) (refersTo_none _)
    (fun _ there => there) linked.continued
  attached c mem := by
    obtain ⟨c, there, rfl⟩ := List.mem_map.1 mem
    refine attached_adopted registered (fun p named => ?_) (fun p named => Or.inl (symbol p named))
      (linked.attached c there)
    obtain ⟨y, mem, rfl⟩ := named.resolve_left id
    exact Or.inr ⟨_, List.mem_map_of_mem mem, rfl⟩

/-! ### A delegation -/

/-- What another handler found hangs below the chunk of the part. -/
theorem linked_merge {result : HandlerResult} (noText : r.count [] = 0)
    (placed : q.Placed symbols chunks) (registered : known q.delegate)
    (linked : result.output.Linked known ∅ ∅) : (merge r q result).Linked known symbols chunks := by
  have shell : Linked known symbols chunks
      { chunks := Split.chunk r.count (r.maxTokens q.parentHandler) none q.shell } :=
    linked_parts _ _ _ (attached_shell placed registered)
      fun p named => placed.chunk p ((shell_enclosing placed.free).symm.trans named)
  have part : q.id ∈ chunks ∪
      chunkNames (Split.chunk r.count (r.maxTokens q.parentHandler) none q.shell) :=
    Or.inr (mem_parts noText _ _ q.shell)
  have below := linked_adopted (fun id => q.id ++ "/" ++ id) (q.startLine - 1) registered
    placed.symbol part linked
  exact shell.append (below.mono Set.subset_union_left Set.Subset.rfl)

/-- The empty text costs nothing, and every handler that a part may be handed to makes linked
outputs. -/
structure LinkedBelow (read : ReadSource) (r : Reading) (path : String) : Prop where
  noText : r.count [] = 0
  handlers : ∀ name h text, r.registry.instantiate name = .ok h →
    (read h (r.delegated text) path).output.Linked r.Registered ∅ ∅

/-- A delegation is linked to what is known of the part. -/
theorem linked_delegate {read : ReadSource} {path : String}
    (below : LinkedBelow read r path) (placed : q.Placed symbols chunks) :
    (delegate read r path q).output.Linked r.Registered symbols chunks := by
  unfold delegate
  split
  · exact linked_keepPlain placed _ _
  · split
    · exact linked_keepPlain placed _ _
    · split
      · exact linked_keepPlain placed _ _
      · rename_i h found
        have registered : r.registry.contains q.delegate = true := by
          unfold Registry.instantiate at found
          split at found
          · rename_i d there
            exact Option.isSome_iff_exists.2 ⟨d, there⟩
          · cases found
        dsimp only
        split
        · exact linked_merge below.noText placed registered (below.handlers q.delegate h q.text found)
        · exact linked_keepPlain placed _ _

end Delegation

end SourceSlices
