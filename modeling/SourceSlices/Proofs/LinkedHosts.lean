import SourceSlices.Html.Elements
import SourceSlices.Markdown.Sections
import SourceSlices.Proofs.LinkedLeaves
import SourceSlices.Script.Declarations

/-!
Handlers that hand parts of a text over: HTML, Markdown and the script languages. Their outputs are
linked if those of the handlers below them are.
-/
namespace SourceSlices

open Output Delegation

variable {symbols chunks : Set String}

/-! ### HTML -/

namespace Html

namespace Page

variable {p : Page} {parent : Option String}

theorem linked_chunk {known : String → Prop} (exact : Bool) {c : Chunk} (free : c.metadata.Free)
    (delegate : c.delegate = none) (owner : RefersTo symbols c.parentSymbolId) :
    (p.chunk exact c).Linked known symbols chunks :=
  linked_ofChunk _ _ _ _ ((Metadata.links_putLines c.metadata _ _ _).trans free) delegate owner

/-- An element with what is taken out of it or stands inside it. -/
theorem linked_element {known : String → Prop} (noText : p.reading.count [] = 0)
    (above : RefersTo symbols parent) (n : Syntax.Node) (tag kind : String) {below : Output}
    (linked : below.Linked known (insert (elementId tag n) symbols)
      (insert (elementChunkId tag n) chunks)) :
    (p.element n tag kind parent ++ below).Linked known symbols chunks := by
  unfold element
  rw [append_assoc]
  refine Linked.under ?_ above (Linked.beneath noText _ _ _ ?_ rfl ?_ linked)
  · simp (disch := decide) [Metadata.Free]
  · simp (disch := decide) [Metadata.Free]
  · exact refersTo_some (Set.mem_insert _ _)

theorem linked_inlineText {known : String → Prop} (above : RefersTo symbols parent)
    (n : Syntax.Node) : (p.inlineText n parent).Linked known symbols chunks := by
  unfold inlineText
  dsimp only
  split
  · exact linked_empty
  · exact linked_chunk false (Metadata.links_putStr (by decide) _) rfl above

theorem linked_plainInline {known : String → Prop} {id : String} (owner : id ∈ symbols)
    (raw : Syntax.Node) (kind : String) (body : List Char) (delegate : Option String) :
    (p.plainInline raw kind body id delegate).Linked known symbols chunks := by
  refine linked_chunk false ?_ rfl (refersTo_some owner)
  cases delegate <;> simp (disch := decide) [Metadata.Free]

theorem linked_delegateBody (below : LinkedBelow p.read p.reading p.path) {n : Syntax.Node}
    {tag : String} (symbol : elementId tag n ∈ symbols) (chunk : elementChunkId tag n ∈ chunks)
    (raw : Syntax.Node) (kind delegate : String) (body : List Char) :
    (p.delegateBody n raw tag kind delegate body).Linked p.reading.Registered symbols chunks := by
  unfold delegateBody
  split
  · exact (linked_plainInline symbol raw kind body _).beside (linked_ofWarning _)
  · refine linked_delegate below ⟨?_, refersTo_some symbol, refersTo_some chunk⟩
    simp (disch := decide) [Metadata.Free]

theorem linked_embedded (below : LinkedBelow p.read p.reading p.path)
    (above : RefersTo symbols parent) (n : Syntax.Node) (kind : String) :
    (p.embedded n kind parent).Linked p.reading.Registered symbols chunks := by
  unfold embedded
  dsimp only
  generalize (p.tagName? n).getD kind = tag
  have delegated := linked_delegateBody below (Set.mem_insert (elementId tag n) symbols)
    (Set.mem_insert (elementChunkId tag n) chunks)
  refine linked_element below.noText above n tag kind ?_
  split
  · exact linked_empty
  · split
    · exact linked_empty
    · split
      · split
        · exact delegated _ _ _ _
        · exact linked_plainInline (Set.mem_insert _ _) _ _ _ _
      · exact delegated _ _ _ _

mutual

theorem linked_visit (p : Page) (below : LinkedBelow p.read p.reading p.path) {parent : Option String}
    {symbols chunks : Set String} (above : RefersTo symbols parent) :
    ∀ n : Syntax.Node, (p.visit parent n).Linked p.reading.Registered symbols chunks
  | ⟨kind, named, field, start, stop, failing, children⟩ => by
    unfold visit
    split
    · exact linked_embedded below above _ "script"
    · split
      · exact linked_embedded below above _ "style"
      · split
        · split
          · split
            · exact linked_element below.noText above _ _ "element"
                (linked_visitNamed p below (refersTo_some (Set.mem_insert _ _)) children)
            · exact linked_visitNamed p below above children
          · exact linked_visitNamed p below above children
        · split
          · exact linked_inlineText above _
          · exact linked_visitNamed p below above children

theorem linked_visitNamed (p : Page) (below : LinkedBelow p.read p.reading p.path)
    {parent : Option String} {symbols chunks : Set String} (above : RefersTo symbols parent) :
    ∀ l : List Syntax.Node, (p.visitNamed parent l).Linked p.reading.Registered symbols chunks
  | [] => linked_empty
  | n :: rest => by
    unfold visitNamed
    refine Linked.beside ?_ (linked_visitNamed p below above rest)
    split
    · exact linked_visit p below above n
    · exact linked_empty

end

end Page

theorem linked_read {readSource : ReadSource} {r : Reading} (path : String)
    (below : LinkedBelow readSource r path) :
    (read readSource r path).output.Linked r.Registered ∅ ∅ := by
  unfold read
  split
  · exact linked_unreadable r path "html" _
  · rename_i source _
    refine linked_toResult ?_ _
    let page : Page :=
      ⟨path, source.text, LineIndex.ofText source.text, r, r.maxTokens "html", readSource⟩
    simp only [append_assoc]
    by_cases top : r.depth = 0
    · simp only [if_pos top]
      refine Linked.under (Metadata.links_putLines _ _ _ _) (refersTo_none _) (Linked.beside ?_
        (Page.linked_visitNamed page below (refersTo_some (Set.mem_insert _ _)) _))
      exact linked_trouble _ _
    · simp only [if_neg top]
      refine linked_empty.beside (Linked.beside ?_
        (Page.linked_visitNamed page below (refersTo_none _) _))
      exact linked_trouble _ _

end Html

/-! ### Markdown -/

namespace Markdown

namespace Document

variable {d : Document}

theorem linked_quietChunk {known : String → Prop} (id : String) (start stop : Nat)
    {parent : Option String} {m : Metadata} (free : m.Free) (owner : RefersTo symbols parent) :
    (d.quietChunk id start stop parent m).Linked known symbols chunks :=
  linked_pieces _ _ _ ((Metadata.links_putLines m d.lines start stop).trans free) rfl owner

theorem linked_frontChunk {known : String → Prop} (f : FrontMatter) :
    (d.frontChunk f).Linked known symbols chunks := by
  unfold frontChunk
  dsimp only
  split
  · refine linked_quietChunk _ _ _ ?_ (refersTo_none _)
    simp (disch := decide) [Metadata.Free]
  · refine (linked_ofWarning _).beside (linked_quietChunk _ _ _ ?_ (refersTo_none _))
    simp (disch := decide) [Metadata.Free]

theorem linked_bodyChunk {known : String → Prop} (start : Nat) :
    (d.bodyChunk start).Linked known symbols chunks := by
  unfold bodyChunk
  split
  · exact linked_empty
  · refine linked_quietChunk _ _ _ ?_ (refersTo_none _)
    simp (disch := decide) [Metadata.Free]

theorem linked_fence (below : LinkedBelow d.read d.reading d.path) {symbolId sectionId : String}
    (symbol : symbolId ∈ symbols) (chunk : sectionId ∈ chunks) (f : Fence) :
    (d.fence symbolId sectionId f).Linked d.reading.Registered symbols chunks := by
  have free (language : String) : Metadata.Free (Metadata.ofList [("kind", .str "fenced_code"),
      ("language", .str language), ("fence_info", .str f.info), ("heading_symbol", .str symbolId)]) := by
    refine Metadata.free_ofList ?_
    simp [linkKeys]
  unfold fence
  dsimp only
  split
  · exact linked_empty
  · split
    · exact linked_delegate below ⟨free _, refersTo_some symbol, refersTo_some chunk⟩
    · exact linked_quietChunk _ _ _ (free _) (refersTo_some symbol)

/-- A section with its fences; its heading stands before it. -/
theorem linked_sectionOutput (below : LinkedBelow d.read d.reading d.path) (fences : List Fence)
    (intro : Bool) (start stop : Nat) {h : Heading} (heading : headingId h ∈ symbols) :
    (d.sectionOutput fences intro start stop h).Linked d.reading.Registered symbols chunks := by
  unfold sectionOutput
  refine Linked.beneath below.noText _ _ _ ?_ rfl (refersTo_some heading) (linked_join fun o mem => ?_)
  · refine (Metadata.links_putLines _ _ _ _).trans (Metadata.free_ofList ?_)
    simp [linkKeys]
  · obtain ⟨f, -, rfl⟩ := List.mem_map.1 mem
    exact linked_fence below heading (Set.mem_insert _ _) f

/-- Headings hang below open ones, and those stand before them. -/
theorem linked_sections (below : LinkedBelow d.read d.reading d.path) (fences : List Fence)
    (headings : List Heading) :
    ∀ (intro : Option Nat) (open' : List (Nat × String)) {symbols chunks : Set String},
      (∀ e ∈ open', e.2 ∈ symbols) →
      (d.sections fences intro open' headings).Linked d.reading.Registered symbols chunks := by
  induction headings with
  | nil => exact fun _ _ _ _ _ => linked_empty
  | cons h rest ih =>
    intro intro open' symbols chunks given
    have kept (e : Nat × String) (mem : e ∈ ancestors h.level open') : e.2 ∈ symbols :=
      given e ((List.dropWhile_sublist _).subset mem)
    have parent : RefersTo symbols (((ancestors h.level open').head?).map (·.2)) := by
      intro p named
      obtain ⟨e, first, rfl⟩ := Option.map_eq_some_iff.1 named
      exact kept e (List.mem_of_mem_head? first)
    unfold sections headingSymbol
    dsimp only
    rw [append_assoc]
    refine Linked.under ?_ parent (Linked.beside ?_ (ih none _ ?_))
    · simp (disch := decide) [Metadata.Free]
    · exact linked_sectionOutput below _ _ _ _ (Set.mem_insert _ _)
    · rintro e (_ | ⟨_, mem⟩)
      · exact Set.mem_insert _ _
      · exact Set.mem_insert_of_mem _ (kept e mem)

theorem linked_output (below : LinkedBelow d.read d.reading d.path) :
    d.output.Linked d.reading.Registered symbols chunks := by
  unfold output
  dsimp only
  refine Linked.beside ?_ ?_
  · split
    · exact linked_frontChunk _
    · exact linked_empty
  · split
    · exact linked_bodyChunk _
    · exact linked_sections below _ _ _ [] fun e mem => nomatch mem

end Document

theorem linked_read {readSource : ReadSource} {r : Reading} (path : String)
    (below : LinkedBelow readSource r path) :
    (read readSource r path).output.Linked r.Registered ∅ ∅ := by
  unfold read
  split
  · exact linked_unreadable r path "markdown" _
  · rename_i source _
    let d : Document :=
      ⟨path, source.text, LineIndex.ofText source.text, r, r.maxTokens "markdown", readSource⟩
    exact linked_toResult (Document.linked_output (d := d) below) _

end Markdown

/-! ### Script languages -/

namespace Script

namespace Module

variable {m : Module} {known : String → Prop}

theorem linked_symbol (above : RefersTo symbols m.symbolId) (name kind : String)
    (before : Option Syntax.Node) (n : Syntax.Node) (e : Export) {d : Metadata} (free : d.Free)
    {below : Output} (linked : below.Linked known (insert (m.symbolIdOf name n) symbols) chunks) :
    (m.symbol name kind before n e d ++ below).Linked known symbols chunks := by
  refine Linked.under (Eq.trans ?_ free) above linked
  simp (disch := decide)

theorem linked_chunk (label kind : String) (start stop : Nat) {parent : Option String} (name : String)
    (owner : RefersTo symbols parent) :
    (m.chunk label kind start stop parent name).Linked known symbols chunks := by
  refine linked_ofChunk _ _ _ _ ?_ rfl owner
  simp (disch := decide) [Metadata.Free]

theorem free_kindOnly (kind : String) : (kindOnly kind).Free :=
  Metadata.links_putStr (by decide) kind

theorem linked_function (above : RefersTo symbols m.symbolId) (p : Placed) (outer : Syntax.Node)
    (e : Export) : (m.function p outer e).Linked known symbols chunks := by
  refine linked_symbol above _ _ _ _ _ (Eq.trans ?_ (free_kindOnly "function"))
    (linked_chunk _ _ _ _ _ (refersTo_some (Set.mem_insert _ _)))
  simp (disch := decide)

theorem linked_method (className : String) {classId : String} (owner : classId ∈ symbols)
    (n : Syntax.Node) : (m.method className classId n).Linked known symbols chunks := by
  have made (name : String) : (m.chunk "method" "class_method" n.start n.stop (some classId) name).Linked
      known symbols chunks := linked_chunk _ _ _ _ name (refersTo_some owner)
  refine (made _).mapMetadata (fun d => (d.putStr "method" _).putStr "qualified_name" _) fun d => ?_
  exact (Metadata.links_putStr (by decide) _).trans (Metadata.links_putStr (by decide) _)

theorem linked_class (above : RefersTo symbols m.symbolId) (p : Placed) (outer : Syntax.Node)
    (e : Export) : (m.class' p outer e).Linked known symbols chunks := by
  unfold class'
  dsimp only
  refine linked_symbol above _ _ _ _ _ ?_ ?_
  · split
    · exact (Metadata.links_putStr (by decide) _).trans (free_kindOnly "class")
    · exact free_kindOnly "class"
  · split
    · exact linked_chunk _ _ _ _ _ (refersTo_some (Set.mem_insert _ _))
    · refine Linked.beside ?_ (linked_join fun o mem => ?_)
      · split
        · exact linked_chunk _ _ _ _ _ (refersTo_some (Set.mem_insert _ _))
        · exact linked_empty
      · obtain ⟨n, -, rfl⟩ := List.mem_map.1 mem
        exact linked_method _ (Set.mem_insert _ _) n

theorem linked_variableSymbols (above : RefersTo symbols m.symbolId) (n outer : Syntax.Node)
    (e : Export) : (m.variableSymbols n outer e).Linked known symbols chunks := by
  refine linked_join fun o mem => ?_
  obtain ⟨p, -, rfl⟩ := List.mem_map.1 mem
  exact linked_symbol above _ _ _ _ _ ((Metadata.links_putStr (by decide) _).trans (free_kindOnly _))
    (linked_chunk _ _ _ _ _ (refersTo_some (Set.mem_insert _ _)))

theorem linked_declaration (above : RefersTo symbols m.symbolId) {p : Placed} {outer : Syntax.Node}
    {e : Export} {o : Output} (found : m.declaration? p outer e = some o) :
    o.Linked known symbols chunks := by
  unfold declaration? at found
  dsimp only at found
  split at found
  · exact Option.some.inj found ▸ linked_class above p outer e
  · split at found
    · exact Option.some.inj found ▸ linked_function above p outer e
    · split at found
      · exact Option.some.inj found ▸ linked_variableSymbols above p.node outer e
      · obtain ⟨label, -, rfl⟩ := Option.map_eq_some_iff.1 found
        exact linked_symbol above _ _ _ _ _ (free_kindOnly label)
          (linked_chunk _ _ _ _ _ (refersTo_some (Set.mem_insert _ _)))

theorem free_reexport (key value : String) (other : key ∉ linkKeys) (source : Option String) :
    (putSource ((kindOnly "reexport").putStr key value) source).Free :=
  (links_putSome (by decide) source).trans
    ((Metadata.links_putStr other value).trans (free_kindOnly "reexport"))

theorem linked_specifier (above : RefersTo symbols m.symbolId) (source : Option String) (p : Placed) :
    (m.specifier source p).Linked known symbols chunks := by
  unfold specifier
  dsimp only
  refine linked_symbol above _ _ _ _ _ (Eq.trans ?_ (free_kindOnly "reexport"))
    (linked_chunk _ _ _ _ _ (refersTo_some (Set.mem_insert _ _)))
  unfold putSource
  simp (disch := decide)

theorem linked_exportWhole (above : RefersTo symbols m.symbolId) (p : Placed) (e : Export)
    (name : String) {key : String} (other : key ∉ linkKeys) (source : Option String) :
    (m.exportWhole p e name key source).Linked known symbols chunks :=
  linked_symbol above _ _ _ _ _ (free_reexport key _ other source)
    (linked_chunk _ _ _ _ _ (refersTo_some (Set.mem_insert _ _)))

theorem linked_export (above : RefersTo symbols m.symbolId) {p : Placed} {o : Output}
    (found : m.export? p = some o) : o.Linked known symbols chunks := by
  unfold export? at found
  dsimp only at found
  split at found
  · rename_i inner _
    obtain rfl := Option.some.inj found
    cases declared : m.declaration? inner p.node ⟨true, p.node.children.any (·.kind == "default")⟩ with
    | none => exact linked_chunk _ _ _ _ _ above
    | some o => exact linked_declaration above declared
  · split at found
    · obtain rfl := Option.some.inj found
      refine linked_join fun o mem => ?_
      obtain ⟨q, -, rfl⟩ := List.mem_map.1 mem
      exact linked_specifier above _ q
    · split at found
      · exact Option.some.inj found ▸ linked_exportWhole above p _ "*" (by decide) _
      · split at found
        · exact Option.some.inj found ▸ linked_exportWhole above p _ "default" (by decide) _
        · cases found

theorem linked_statement (above : RefersTo symbols m.symbolId) {p : Placed} {o : Output}
    (found : m.statement? p = some o) : o.Linked known symbols chunks := by
  unfold statement? at found
  split at found
  · exact linked_export above found
  · exact linked_declaration above found

theorem linked_looseCode (above : RefersTo symbols m.symbolId) (pending : Option (Nat × Nat)) :
    (m.looseCode pending).Linked known symbols chunks := by
  cases pending with
  | none => exact linked_empty
  | some span => exact linked_chunk _ _ _ _ _ above

theorem linked_topLevel (above : RefersTo symbols m.symbolId) (l : List Placed) :
    ∀ pending, (m.topLevel pending l).Linked known symbols chunks := by
  induction l with
  | nil => exact linked_looseCode above
  | cons p rest ih =>
    intro pending
    unfold topLevel
    split
    · rename_i found
      exact ((linked_looseCode above pending).beside (linked_statement above found)).beside (ih none)
    · exact ih _

theorem linked_docstringChunk (above : RefersTo symbols m.symbolId) (block : List Placed)
    (doc : List Char) : (m.docstringChunk block doc).Linked known symbols chunks := by
  unfold docstringChunk
  split
  · split
    · exact linked_empty
    · exact linked_chunk _ _ _ _ _ above
  · exact linked_empty

/-! Markup hangs below a symbol that was found before. -/

theorem mem_of_foldl {α : Type} {pick : Option α → α → Option α}
    (either : ∀ best a, pick best a = some a ∨ pick best a = best) {l : List α} {best : Option α} {b : α}
    (picked : l.foldl pick best = some b) : best = some b ∨ b ∈ l := by
  induction l generalizing best with
  | nil => exact Or.inl picked
  | cons a rest ih =>
    rcases ih picked with same | mem
    · rcases either best a with taken | kept
      · exact Or.inr (Option.some.inj (taken.symm.trans same) ▸ List.mem_cons_self)
      · exact Or.inl (kept.symm.trans same)
    · exact Or.inr (List.mem_cons_of_mem _ mem)

theorem refersTo_enclosing {found : List Symbol} (above : RefersTo (symbolNames found) m.symbolId)
    (start stop : Nat) : RefersTo (symbolNames found) (m.enclosing found start stop) := by
  intro p named
  unfold enclosing at named
  rw [Option.orElse_eq_or, Option.or_eq_some_iff] at named
  rcases named with named | ⟨-, named⟩
  · obtain ⟨y, best, rfl⟩ := Option.map_eq_some_iff.1 named
    have there := (mem_of_foldl (fun best s => ?_) best).resolve_left (by simp)
    · exact ⟨y, (List.mem_filter.1 there).1, rfl⟩
    · cases best with
      | none => exact Or.inl rfl
      | some b =>
        dsimp only
        split
        · exact Or.inl rfl
        · exact Or.inr rfl
  · exact above p named

theorem linked_delegateMarkup (below : LinkedBelow m.read m.reading m.path) (l : List Syntax.Node)
    {found : Output} (above : RefersTo (symbolNames found.symbols) m.symbolId)
    (linked : found.Linked m.reading.Registered ∅ ∅) :
    (m.delegateMarkup l found).Linked m.reading.Registered ∅ ∅ := by
  induction l generalizing found with
  | nil => exact linked
  | cons n rest ih =>
    refine ih (fun p named => ?_) (linked.append (linked_delegate below ⟨?_, ?_, ?_⟩))
    · rw [symbolNames_append]
      exact Or.inl (above p named)
    · exact free_kindOnly "jsx"
    · exact fun p named => Or.inr (refersTo_enclosing above _ _ p named)
    · exact refersTo_none _

/-- What is found before any markup is handed over: the module's own symbol, if it has one, comes
first and everything else hangs below it. -/
theorem linked_found {id : String} (own : m.symbolId = if m.reading.depth = 0 then some id else none)
    (name : String) (block rest : List Placed) (doc : List Char) {trouble : Output}
    (linked : trouble.Linked known ∅ ∅) {found : Output}
    (made : found = trouble ++ (if m.reading.depth = 0 then m.moduleSymbol id name doc else {}) ++
      m.docstringChunk block doc ++ m.topLevel none rest) :
    found.Linked known ∅ ∅ ∧ RefersTo (symbolNames found.symbols) m.symbolId := by
  have below {symbols : Set String} (above : RefersTo symbols m.symbolId) :
      (m.docstringChunk block doc ++ m.topLevel none rest).Linked known symbols ∅ :=
    (linked_docstringChunk above block doc).beside (linked_topLevel above rest none)
  by_cases top : m.reading.depth = 0
  · rw [if_pos top] at own made
    subst made
    constructor
    · rw [append_assoc, append_assoc]
      refine linked.beside (Linked.under (Metadata.links_putLines _ _ _ _) (refersTo_none _) (below ?_))
      exact own ▸ refersTo_some (Set.mem_insert _ _)
    · rw [own, symbolNames_append, symbolNames_append, symbolNames_append]
      exact refersTo_some (Or.inl (Or.inl (Or.inr ⟨_, List.mem_singleton.2 rfl, rfl⟩)))
  · rw [if_neg top] at own made
    subst made
    constructor
    · rw [append_assoc, append_assoc]
      exact linked.beside (linked_empty.beside (below (own ▸ refersTo_none _)))
    · exact own ▸ refersTo_none _

end Module

theorem linked_read (dialect : Dialect) {readSource : ReadSource} {r : Reading}
    (path : String) (below : LinkedBelow readSource r path) :
    (read dialect readSource r path).output.Linked r.Registered ∅ ∅ := by
  unfold read
  dsimp only
  split
  · exact linked_unreadable r path dialect.name _
  · rename_i source _
    refine linked_toResult ?_ _
    let m : Module := ⟨dialect.name, path, source.text, LineIndex.ofText source.text, r,
      r.maxTokens dialect.name,
      if r.depth = 0 then some (dialect.name ++ ":module:" ++ Path.dottedName source.file.path) else none,
      readSource⟩
    obtain ⟨linked, above⟩ := Module.linked_found (m := m) rfl (Path.dottedName source.file.path) _ _ _
      (linked_trouble _ _) rfl
    split
    · exact Module.linked_delegateMarkup (m := m) below _ above linked
    · exact linked

end Script

end SourceSlices
