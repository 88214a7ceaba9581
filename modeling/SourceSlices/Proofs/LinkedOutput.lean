import Mathlib.Data.Set.Insert
import SourceSlices.Proofs.SplitChunks
import SourceSlices.Reading

/-!
References inside an output. A symbol refers to its parent, a chunk to its symbols and to the chunk
that it was taken out of; both may also name a handler. An output is linked when parents and
enclosing chunks come before what refers to them, all symbols are there, and all handlers are known.
Outputs that are linked to what stands before them make one linked output.
-/
namespace SourceSlices

/-! ### Members that refer to earlier ones -/

variable {α β : Type}

/-- The names that the members of a list have. -/
def namesOf (key : α → String) (l : List α) : Set String := {name | ∃ a ∈ l, key a = name}

theorem namesOf_append (key : α → String) (l l' : List α) :
    namesOf key (l ++ l') = namesOf key l ∪ namesOf key l' := by
  ext name
  simp [namesOf, or_and_right, exists_or]

/-- What is referred to, if anything is, is among the names. -/
def RefersTo (names : Set String) (link : Option String) : Prop := ∀ p, link = some p → p ∈ names

theorem refersTo_none (names : Set String) : RefersTo names none := fun _ named => nomatch named

theorem refersTo_some {names : Set String} {p : String} (mem : p ∈ names) : RefersTo names (some p) :=
  fun _ named => Option.some.inj named ▸ mem

theorem refersTo_renamed {names : Set String} {rename : String → String} {link above : Option String}
    (own : ∀ p, link = some p → rename p ∈ names) (top : RefersTo names above) :
    RefersTo names ((link.map rename).or above) := by
  cases link with
  | none => exact top
  | some p => exact refersTo_some (own p rfl)

/-- Every member refers only to what is given or to a member before it. -/
def LinksBack (key : α → String) (link : α → Option String) : Set String → List α → Prop
  | _, [] => True
  | given, a :: rest =>
    RefersTo given (link a) ∧ LinksBack key link (insert (key a) given) rest

section LinksBack

variable {key : α → String} {link : α → Option String} {given more : Set String} {l l' : List α}

theorem linksBack_mono (sub : given ⊆ more) (linked : LinksBack key link given l) :
    LinksBack key link more l := by
  induction l generalizing given more with
  | nil => trivial
  | cons a rest ih =>
    obtain ⟨own, others⟩ := linked
    exact ⟨fun p named => sub (own p named), ih (Set.insert_subset_insert sub) others⟩

theorem linksBack_append : LinksBack key link given (l ++ l') ↔
    LinksBack key link given l ∧ LinksBack key link (given ∪ namesOf key l) l' := by
  induction l generalizing given with
  | nil => simp [LinksBack, namesOf]
  | cons a rest ih =>
    have names : insert (key a) given ∪ namesOf key rest = given ∪ namesOf key (a :: rest) := by
      ext name
      simp only [namesOf, Set.mem_union, Set.mem_insert_iff, Set.mem_ofPred_eq, List.mem_cons,
        exists_eq_or_imp, eq_comm (a := name)]
      exact or_assoc.trans or_left_comm
    rw [List.cons_append, LinksBack, ih, names, LinksBack, and_assoc]

/-- Links lead back exactly if what they name is given or stands before. -/
theorem linksBack_iff : LinksBack key link given l ↔
    ∀ before a after, l = before ++ a :: after → ∀ p, link a = some p →
      p ∈ given ∨ p ∈ namesOf key before := by
  constructor
  · rintro linked before a after rfl p named
    exact (linksBack_append.1 linked).2.1 p named
  · intro all
    induction l generalizing given with
    | nil => trivial
    | cons a rest ih =>
      refine ⟨fun p named => ?_, ih fun before b after split p named => ?_⟩
      · exact (all [] a rest rfl p named).resolve_right (by simp [namesOf])
      · subst split
        rcases all (a :: before) b after rfl p named with there | ⟨c, mem, same⟩
        · exact Or.inl (Set.mem_insert_of_mem _ there)
        · rcases List.mem_cons.1 mem with rfl | mem
          · exact Or.inl (same ▸ Set.mem_insert _ _)
          · exact Or.inr ⟨c, mem, same⟩

theorem linksBack_of_given (all : ∀ a ∈ l, RefersTo given (link a)) :
    LinksBack key link given l :=
  linksBack_iff.2 fun _ a _ split p named =>
    Or.inl (all a (split ▸ List.mem_append_right _ List.mem_cons_self) p named)

/-- Members that are renamed alike still refer to earlier ones; those that referred to nothing may
refer to something that is given. -/
theorem linksBack_map {f : α → β} {key' : β → String} {link' : β → Option String}
    (rename : String → String) {above : Option String} (keys : ∀ a, key' (f a) = rename (key a))
    (links : ∀ a, link' (f a) = ((link a).map rename).or above) (top : RefersTo more above)
    (sub : ∀ p ∈ given, rename p ∈ more) (linked : LinksBack key link given l) :
    LinksBack key' link' more (l.map f) := by
  induction l generalizing given more with
  | nil => trivial
  | cons a rest ih =>
    obtain ⟨own, others⟩ := linked
    refine ⟨?_, ih (fun p named => Set.mem_insert_of_mem _ (top p named)) (fun p there => ?_) others⟩
    · rw [links]
      exact refersTo_renamed (fun p named => sub p (own p named)) top
    · rcases there with rfl | there
      · exact keys a ▸ Set.mem_insert _ _
      · exact Set.mem_insert_of_mem _ (sub p there)

end LinksBack

/-! ### Keys of metadata that refer to something -/

def linkKeys : List String := ["handler", "delegate_parent_symbol", "delegate_parent_chunk"]

namespace Metadata

variable {m m' : Metadata} {key : String}

/-- What metadata hold under the keys that refer to something. -/
def links (m : Metadata) : List (Option MetaValue) := linkKeys.map m.find?

theorem links_eq_iff : m'.links = m.links ↔ ∀ key ∈ linkKeys, m'.find? key = m.find? key :=
  List.map_inj_left

/-- Metadata that refer to nothing. -/
def Free (m : Metadata) : Prop := m.links = empty.links

theorem str?_of_links (same : m'.links = m.links) (mem : key ∈ linkKeys) :
    m'.str? key = m.str? key := by
  rw [str?, links_eq_iff.1 same key mem, str?]

theorem str?_of_free (free : m.Free) (mem : key ∈ linkKeys) : m.str? key = none := by
  rw [str?_of_links free mem]
  rfl

@[simp] theorem links_put (other : key ∉ linkKeys) (value : MetaValue) :
    (m.put key value).links = m.links :=
  links_eq_iff.2 fun _ mem => find?_put_ne (ne_of_mem_of_not_mem mem other) value

@[simp] theorem links_putStr (other : key ∉ linkKeys) (value : String) :
    (m.putStr key value).links = m.links :=
  links_put other _

@[simp] theorem links_putNat (other : key ∉ linkKeys) (n : Nat) : (m.putNat key n).links = m.links :=
  links_put other _

@[simp] theorem links_putBool (other : key ∉ linkKeys) (b : Bool) : (m.putBool key b).links = m.links :=
  links_put other _

@[simp] theorem links_putLines (m : Metadata) (lines : LineIndex) (start stop : Nat) :
    (m.putLines lines start stop).links = m.links :=
  links_eq_iff.2 fun key mem => find?_putLines_ne (by rintro rfl; revert mem; decide)
    (by rintro rfl; revert mem; decide) lines start stop

theorem links_foldl {f : Metadata → α → Metadata} {l : List α}
    (kept : ∀ a ∈ l, ∀ m, (f m a).links = m.links) (m : Metadata) : (l.foldl f m).links = m.links := by
  induction l generalizing m with
  | nil => rfl
  | cons a rest ih =>
    obtain ⟨own, others⟩ := List.forall_mem_cons.1 kept
    rw [List.foldl_cons, ih others, own]

theorem free_ofList {entries : List (String × MetaValue)} (others : ∀ e ∈ entries, e.1 ∉ linkKeys) :
    (ofList entries).Free :=
  links_foldl (fun e mem _ => links_put (others e mem) e.2) empty

end Metadata

/-! ### Linked outputs -/

def Symbol.handler? (y : Symbol) : Option String := y.metadata.str? "handler"

namespace Chunk

def handler? (c : Chunk) : Option String := c.delegate.or (c.metadata.str? "handler")
def enclosing? (c : Chunk) : Option String := c.metadata.str? "delegate_parent_chunk"
def delegating? (c : Chunk) : Option String := c.metadata.str? "delegate_parent_symbol"

/-- A part that is not the first one refers to the parts before it. -/
def continued? (c : Chunk) : Option String := if c.partIndex = 0 then none else some c.chunkId

/-- The symbols and the handler of a chunk are known. Without an enclosing chunk it has no
delegating symbol but its own. -/
structure Attached (known : String → Prop) (symbols : Set String) (c : Chunk) : Prop where
  owner : RefersTo symbols c.parentSymbolId
  delegating : RefersTo symbols c.delegating?
  handler : ∀ h, c.handler? = some h → known h
  rooted : c.enclosing? = none → c.delegating?.isSome = true → c.parentSymbolId.isSome = true

variable {known : String → Prop} {symbols more : Set String} {c : Chunk}

theorem Attached.mono (good : c.Attached known symbols) (sub : symbols ⊆ more) :
    c.Attached known more :=
  ⟨fun p named => sub (good.owner p named), fun p named => sub (good.delegating p named),
    good.handler, good.rooted⟩

theorem Attached.of_free (free : c.metadata.Free) (delegate : c.delegate = none)
    (owner : RefersTo symbols c.parentSymbolId) : c.Attached known symbols := by
  have delegating : c.delegating? = none := Metadata.str?_of_free free (by decide)
  have handler : c.handler? = none := by
    rw [handler?, delegate, Metadata.str?_of_free free (by decide)]
    rfl
  refine ⟨owner, fun p named => ?_, fun h named => ?_, fun _ some => ?_⟩
  · cases delegating.symm.trans named
  · cases handler.symm.trans named
  · rw [delegating] at some
    cases some

theorem Attached.of_same {c' : Chunk} (good : c.Attached known symbols)
    (owner : c'.parentSymbolId = c.parentSymbolId) (delegate : c'.delegate = c.delegate)
    (links : c'.metadata.links = c.metadata.links) : c'.Attached known symbols := by
  have handler : c'.handler? = c.handler? := by
    rw [handler?, handler?, delegate, Metadata.str?_of_links links (by decide)]
  have enclosing : c'.enclosing? = c.enclosing? := Metadata.str?_of_links links (by decide)
  have delegating : c'.delegating? = c.delegating? := Metadata.str?_of_links links (by decide)
  exact ⟨owner ▸ good.owner, delegating ▸ good.delegating, handler ▸ good.handler,
    enclosing ▸ delegating ▸ owner ▸ good.rooted⟩

end Chunk

abbrev symbolNames (symbols : List Symbol) : Set String := namesOf Symbol.symbolId symbols
abbrev chunkNames (chunks : List Chunk) : Set String := namesOf Chunk.chunkId chunks

/-- An output that is linked to given symbols and chunks. -/
structure Output.Linked (known : String → Prop) (symbols chunks : Set String) (o : Output) : Prop where
  parents : LinksBack Symbol.symbolId Symbol.parentId symbols o.symbols
  handlers : ∀ y ∈ o.symbols, ∀ h, y.handler? = some h → known h
  enclosing : LinksBack Chunk.chunkId Chunk.enclosing? chunks o.chunks
  continued : LinksBack Chunk.chunkId Chunk.continued? ∅ o.chunks
  attached : ∀ c ∈ o.chunks, c.Attached known (symbols ∪ symbolNames o.symbols)

def HandlerResult.output (r : HandlerResult) : Output := ⟨r.symbols, r.chunks, r.warnings⟩

namespace Output

variable {known : String → Prop} {symbols chunks : Set String} {a b o : Output}

theorem symbols_append (a b : Output) : (a ++ b).symbols = a.symbols ++ b.symbols := rfl

theorem chunks_append (a b : Output) : (a ++ b).chunks = a.chunks ++ b.chunks := rfl

theorem append_assoc (a b c : Output) : a ++ b ++ c = a ++ (b ++ c) := by
  change append (append a b) c = append a (append b c)
  simp [append]

theorem append_empty (o : Output) : o ++ {} = o := by
  change append o {} = o
  simp [append]

theorem join_append (l l' : List Output) : join (l ++ l') = join l ++ join l' := by
  induction l with
  | nil => rfl
  | cons o rest ih => rw [List.cons_append, join, join, ih, append_assoc]

theorem symbols_join (outputs : List Output) :
    (join outputs).symbols = outputs.flatMap (·.symbols) := by
  induction outputs with
  | nil => rfl
  | cons o rest ih => exact congrArg (o.symbols ++ ·) ih

theorem chunks_join (outputs : List Output) : (join outputs).chunks = outputs.flatMap (·.chunks) := by
  induction outputs with
  | nil => rfl
  | cons o rest ih => exact congrArg (o.chunks ++ ·) ih

theorem Linked.mono {more : Set String} {more' : Set String} (linked : o.Linked known symbols chunks)
    (sub : symbols ⊆ more) (sub' : chunks ⊆ more') : o.Linked known more more' :=
  ⟨linksBack_mono sub linked.parents, linked.handlers, linksBack_mono sub' linked.enclosing,
    linked.continued, fun c mem => (linked.attached c mem).mono (Set.union_subset_union_left _ sub)⟩

theorem symbolNames_append (a b : Output) :
    symbolNames (a ++ b).symbols = symbolNames a.symbols ∪ symbolNames b.symbols :=
  namesOf_append _ _ _

theorem Linked.append (first : a.Linked known symbols chunks)
    (second : b.Linked known (symbols ∪ symbolNames a.symbols) (chunks ∪ chunkNames a.chunks)) :
    (a ++ b).Linked known symbols chunks where
  parents := linksBack_append.2 ⟨first.parents, second.parents⟩
  handlers y mem := (List.mem_append.1 mem).elim (first.handlers y) (second.handlers y)
  enclosing := linksBack_append.2 ⟨first.enclosing, second.enclosing⟩
  continued := linksBack_append.2
    ⟨first.continued, linksBack_mono (Set.empty_subset _) second.continued⟩
  attached c mem := by
    rw [symbolNames_append, ← Set.union_assoc]
    rcases List.mem_append.1 mem with mem | mem
    · exact (first.attached c mem).mono Set.subset_union_left
    · exact second.attached c mem

theorem Linked.beside (first : a.Linked known symbols chunks) (second : b.Linked known symbols chunks) :
    (a ++ b).Linked known symbols chunks :=
  first.append (second.mono Set.subset_union_left Set.subset_union_left)

theorem linked_of_same (linked : a.Linked known symbols chunks) (sameSymbols : b.symbols = a.symbols)
    (sameChunks : b.chunks = a.chunks) : b.Linked known symbols chunks :=
  ⟨sameSymbols ▸ linked.parents, sameSymbols ▸ linked.handlers, sameChunks ▸ linked.enclosing,
    sameChunks ▸ linked.continued, sameSymbols ▸ sameChunks ▸ linked.attached⟩

theorem linked_empty : Linked known symbols chunks {} :=
  ⟨trivial, by simp, trivial, trivial, by simp⟩

theorem linked_ofWarning (w : String) : (ofWarning w).Linked known symbols chunks :=
  linked_of_same linked_empty rfl rfl

theorem linked_join {outputs : List Output} (each : ∀ o ∈ outputs, o.Linked known symbols chunks) :
    (join outputs).Linked known symbols chunks := by
  induction outputs with
  | nil => exact linked_empty
  | cons o rest ih =>
    obtain ⟨own, others⟩ := List.forall_mem_cons.1 each
    exact own.beside (ih others)

theorem linked_ofSymbol {y : Symbol} (free : y.metadata.Free)
    (parent : RefersTo symbols y.parentId) : (ofSymbol y).Linked known symbols chunks where
  parents := ⟨parent, trivial⟩
  handlers z mem h named := by
    obtain rfl := List.mem_singleton.1 mem
    cases (Metadata.str?_of_free free (by decide)).symm.trans named
  enclosing := trivial
  continued := trivial
  attached := by simp [ofSymbol]

theorem Linked.under {y : Symbol} (free : y.metadata.Free)
    (parent : RefersTo symbols y.parentId)
    (below : o.Linked known (insert y.symbolId symbols) chunks) :
    (ofSymbol y ++ o).Linked known symbols chunks := by
  have own : y.symbolId ∈ symbolNames (ofSymbol y).symbols := ⟨y, List.mem_singleton.2 rfl, rfl⟩
  exact (linked_ofSymbol free parent).append
    (below.mono (Set.insert_subset (Or.inr own) Set.subset_union_left) Set.subset_union_left)

/-! ### Parts of a chunk -/

theorem links_partChunk (c : Chunk) (lines : Option LineIndex) (total index : Nat) (p : SplitPart) :
    (Split.partChunk c lines total index p).metadata.links = c.metadata.links :=
  Metadata.links_eq_iff.2 fun key mem => Split.find?_partChunk (by revert key; decide)

/-- The parts of a chunk refer to what the chunk refers to. -/
theorem linked_parts (count : Counter) (budget : Nat) (lines : Option LineIndex) {c : Chunk}
    (good : c.Attached known symbols) (enclosing : RefersTo chunks c.enclosing?) :
    Linked known symbols chunks { chunks := Split.chunk count budget lines c } := by
  have part {p : Chunk} (mem : p ∈ Split.chunk count budget lines c) :
      ∃ total index q, p = Split.partChunk c lines total index q := by
    obtain ⟨i, _, rfl⟩ := List.mem_mapIdx.1 mem
    exact ⟨_, i, _, rfl⟩
  refine ⟨trivial, by simp, linksBack_of_given fun p mem name named => ?_, ?_, fun p mem => ?_⟩
  · obtain ⟨total, index, q, rfl⟩ := part mem
    rw [Chunk.enclosing?, Metadata.str?_of_links (links_partChunk c lines total index q) (by decide)]
      at named
    exact enclosing name named
  · refine linksBack_iff.2 fun before p after split name named => Or.inr ?_
    -- A part with parts before it has the id of the first of them.
    cases before with
    | nil =>
      have first := congrArg (·[0]?) split
      simp only [List.nil_append, List.getElem?_cons_zero, Split.chunk, List.getElem?_mapIdx,
        Option.map_eq_some_iff] at first
      obtain ⟨q, -, rfl⟩ := first
      cases named
    | cons b rest =>
      have parts : Split.chunk count budget lines c = b :: rest ++ p :: after := split
      obtain ⟨_, _, _, rfl⟩ := part (parts ▸ List.mem_append_left _ List.mem_cons_self)
      obtain ⟨_, _, _, rfl⟩ := part (parts ▸ List.mem_append_right _ List.mem_cons_self)
      refine ⟨_, List.mem_cons_self, ?_⟩
      unfold Chunk.continued? at named
      split at named
      · cases named
      · exact Option.some.inj named
  · obtain ⟨total, index, q, rfl⟩ := part mem
    have own : (Split.partChunk c lines total index q).Attached known symbols :=
      good.of_same rfl rfl (links_partChunk c lines total index q)
    exact own.mono Set.subset_union_left

theorem mem_parts {count : Counter} (noText : count [] = 0) (budget : Nat) (lines : Option LineIndex)
    (c : Chunk) : c.chunkId ∈ chunkNames (Split.chunk count budget lines c) := by
  have some := Split.byTokens_ne_nil noText budget c.text.toList
  obtain ⟨q, rest, split⟩ := List.exists_cons_of_ne_nil some
  refine ⟨Split.partChunk c lines (rest.length + 1) 0 q, ?_, rfl⟩
  simp [Split.chunk, split]

theorem linked_pieces (count : Counter) (budget : Nat) (lines : Option LineIndex) {c : Chunk}
    (free : c.metadata.Free) (delegate : c.delegate = none)
    (owner : RefersTo symbols c.parentSymbolId) :
    Linked known symbols chunks { chunks := Split.chunk count budget lines c } := by
  have enclosing (p : String) (named : c.enclosing? = some p) : p ∈ chunks := by
    cases (Metadata.str?_of_free free (by decide)).symm.trans named
  exact linked_parts count budget lines (.of_free free delegate owner) enclosing

theorem linked_ofChunk (count : Counter) (budget : Nat) (lines : Option LineIndex) (name : String)
    {c : Chunk} (free : c.metadata.Free) (delegate : c.delegate = none)
    (owner : RefersTo symbols c.parentSymbolId) :
    (ofChunk count budget lines name c).Linked known symbols chunks :=
  linked_of_same (linked_pieces count budget lines free delegate owner) rfl rfl

theorem Linked.beneath {count : Counter} (noText : count [] = 0) (budget : Nat)
    (lines : Option LineIndex) (name : String) {c : Chunk} (free : c.metadata.Free)
    (delegate : c.delegate = none) (owner : RefersTo symbols c.parentSymbolId)
    (below : o.Linked known symbols (insert c.chunkId chunks)) :
    (ofChunk count budget lines name c ++ o).Linked known symbols chunks := by
  have own : c.chunkId ∈ chunkNames (ofChunk count budget lines name c).chunks :=
    mem_parts noText budget lines c
  exact (linked_ofChunk count budget lines name free delegate owner).append
    (below.mono Set.subset_union_left (Set.insert_subset (Or.inr own) Set.subset_union_left))

/-- Changes of metadata under other keys keep an output linked. -/
theorem Linked.mapMetadata (linked : o.Linked known symbols chunks) (change : Metadata → Metadata)
    (links : ∀ m, (change m).links = m.links) :
    Linked known symbols chunks
      { o with chunks := o.chunks.map fun c => { c with metadata := change c.metadata } } where
  parents := linked.parents
  handlers := linked.handlers
  enclosing := by
    refine linksBack_map id (fun _ => rfl) (fun c => ?_) (refersTo_none _) (fun _ there => there)
      linked.enclosing
    rw [Option.map_id_apply, Option.or_none]
    exact Metadata.str?_of_links (links c.metadata) (by decide)
  continued := by
    refine linksBack_map id (fun _ => rfl) (fun c => ?_) (refersTo_none _) (fun _ there => there)
      linked.continued
    rw [Option.map_id_apply, Option.or_none]
    rfl
  attached c mem := by
    obtain ⟨c', there, rfl⟩ := List.mem_map.1 mem
    exact (linked.attached c' there).of_same rfl rfl (links c'.metadata)

end Output

end SourceSlices
