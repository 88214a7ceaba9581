import SourceSlices.Delegation
import SourceSlices.Markdown.FrontMatter

/-!
Markdown as symbols and chunks: headings form a tree of symbols, each section is a chunk, and
fenced code in it is handed to the handler of its language.
-/
namespace SourceSlices.Markdown

structure Heading where
  start : Nat
  level : Nat
  title : String

/-- Fenced code: the info text of its fence, and the span of its lines. -/
structure Fence where
  info : String
  start : Nat
  stop : Nat

/-- Headings and fences of a document, and those that are still open. -/
structure Outline where
  headings : List Heading := []
  fences : List Fence := []
  openHeading : Option Heading := none
  openFence : Option (String × Option (Nat × Nat)) := none

namespace Outline

def addText (o : Outline) (s : String) (start stop : Nat) : Outline :=
  match o.openHeading, o.openFence with
  | some h, _ => { o with openHeading := some { h with title := h.title ++ s } }
  | none, some (info, span) =>
    { o with openFence := some (info, some (match span with
        | some (a, b) => (min a start, max b stop)
        | none => (start, stop))) }
  | none, none => o

def add (base : Nat) (o : Outline) (e : Event) : Outline :=
  let start := base + e.start
  let stop := base + e.stop
  match e.mark with
  | .headingStart level => { o with openHeading := some ⟨start, level, ""⟩ }
  | .headingEnd =>
    match o.openHeading with
    | some h =>
      let title := String.ofList (Text.trim h.title.toList)
      { o with openHeading := none, headings := o.headings ++ [{ h with title }] }
    | none => o
  | .fenceStart info =>
    { o with openFence := some (String.ofList (Text.trim info.toList), none) }
  | .indentedStart => o
  | .codeEnd =>
    match o.openFence with
    | some (info, some (a, b)) =>
      { o with openFence := none, fences := o.fences ++ [⟨info, a, b⟩] }
    | _ => { o with openFence := none }
  | .text s => o.addText s start stop
  | .code s => o.addText s start stop

/-- The outline of the events of a text that begins at byte `base`. -/
def ofEvents (base : Nat) (events : List Event) : Outline := events.foldl (add base) {}

end Outline

structure Document where
  path : String
  text : List Char
  lines : LineIndex
  reading : Reading
  budget : Nat
  read : ReadSource

namespace Document

def size (d : Document) : Nat := Text.byteLength d.text

def span (start stop : Nat) : String := toString start ++ ":" ++ toString stop

/-- Parts of a chunk, without a warning if there are several. -/
def quietChunk (d : Document) (id : String) (start stop : Nat) (parent : Option String)
    (m : Metadata) : Output :=
  { chunks := Split.chunk d.reading.count d.budget (some d.lines)
      { Chunk.ofSlice id d.text start stop with
        parentSymbolId := parent, metadata := m.putLines d.lines start stop } }

def frontChunk (d : Document) (f : FrontMatter) : Output :=
  let m := (Metadata.empty.putStr "kind" "front_matter").putStr "front_matter_format" f.format.name
  match f.keys with
  | .ok keys =>
    d.quietChunk "markdown:front-matter" 0 f.stop none (m.put "front_matter_keys" (.list keys))
  | .error e =>
    let reason := match e with
      | .notMapping => "front matter is not a mapping"
      | .unreadable => "not readable"
    .ofWarning ("front matter could not be parsed: " ++ reason) ++
      d.quietChunk "markdown:front-matter" 0 f.stop none m

/-- All that follows the front matter, if there are no headings. -/
def bodyChunk (d : Document) (start : Nat) : Output :=
  if Text.isAllBlank (Text.dropBytes start d.text) then {}
  else d.quietChunk ("markdown:body:" ++ span start d.size) start d.size none
    ((Metadata.empty.putStr "kind" "body").putStr "strategy" "fallback")

def headingId (h : Heading) : String := "markdown:heading:" ++ toString h.start

/-- Fenced code in a section. -/
def fence (d : Document) (symbolId sectionId : String) (f : Fence) : Output :=
  let body := Text.slice d.text f.start f.stop
  if Text.isAllBlank body then {}
  else
    let language := String.ofList (((Text.words f.info.toList).head?).getD [])
    let m := Metadata.ofList [("kind", .str "fenced_code"), ("language", .str language),
      ("fence_info", .str f.info), ("heading_symbol", .str symbolId)]
    match d.reading.registry.delegateFor language with
    | some delegate =>
      (Delegation.delegate d.read d.reading d.path
        { delegate, parentHandler := "markdown", component := some "fence", text := body
          startOffset := f.start, endOffset := f.stop, startLine := d.lines.line f.start
          parentSymbol := some symbolId, parentChunk := some sectionId, metadata := m }).output
    | none =>
      d.quietChunk ("markdown:fence:" ++ span f.start f.stop) f.start f.stop (some symbolId) m

/-- Headings that stay open when one of a level begins. -/
def ancestors (level : Nat) (open' : List (Nat × String)) : List (Nat × String) :=
  open'.dropWhile fun e => level ≤ e.1

def headingSymbol (d : Document) (open' : List (Nat × String)) (h : Heading) (rest : List Heading) :
    Output :=
  let stop := ((rest.find? (·.level ≤ h.level)).map (·.start)).getD d.size
  .ofSymbol
    { symbolId := headingId h, name := h.title, kind := "heading", startOffset := h.start
      endOffset := stop, parentId := (open'.head?).map (·.2)
      metadata := (Metadata.empty.putNat "level" h.level).putNat "line" (d.lines.line h.start) }

/-- The chunk of a section and its fences; an introduction may belong to it. -/
def sectionOutput (d : Document) (fences : List Fence) (intro : Bool) (start stop : Nat)
    (h : Heading) : Output :=
  let id := "markdown:section:" ++ span start stop
  let m := Metadata.ofList [("kind", .str "section"), ("heading_title", .str h.title),
    ("heading_level", .nat h.level), ("heading_line", .nat (d.lines.line h.start)),
    ("intro_attached", .bool intro)]
  Output.ofChunk d.reading.count d.budget (some d.lines) (if h.title = "" then id else h.title)
      { Chunk.ofSlice id d.text start stop with
        parentSymbolId := some (headingId h), metadata := m.putLines d.lines start stop } ++
    .join ((fences.filter fun f => start ≤ f.start && f.start < stop).map
      (d.fence (headingId h) id))

/-- Sections from a heading on; `intro` is where the first one begins if an introduction
belongs to it. -/
def sections (d : Document) (fences : List Fence) :
    Option Nat → List (Nat × String) → List Heading → Output
  | _, _, [] => {}
  | intro, open', h :: rest =>
    let open' := ancestors h.level open'
    d.headingSymbol open' h rest ++
      d.sectionOutput fences intro.isSome (intro.getD h.start)
        (((rest.head?).map (·.start)).getD d.size) h ++
      d.sections fences none ((h.level, headingId h) :: open') rest

def output (d : Document) : Output :=
  let front := frontMatter? d.text
  let start := (front.map (·.stop)).getD 0
  let outline := Outline.ofEvents start (d.reading.readers.markdown (Text.dropBytes start d.text))
  (match front with
    | some f => d.frontChunk f
    | none => {}) ++
    match outline.headings with
    | [] => d.bodyChunk start
    | h :: rest =>
      let hasIntro := !Text.isAllBlank (Text.slice d.text start h.start)
      d.sections outline.fences (if hasIntro then some start else none) [] (h :: rest)

end Document

def read (readSource : ReadSource) (r : Reading) (path : String) : HandlerResult :=
  match r.load path "markdown" with
  | .error e => r.unreadable path "markdown" e
  | .ok source =>
    let d : Document :=
      ⟨path, source.text, LineIndex.ofText source.text, r, r.maxTokens "markdown", readSource⟩
    d.output.toResult source

end SourceSlices.Markdown
