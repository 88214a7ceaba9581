import SourceSlices.Delegation
import SourceSlices.Text.Dedent

/-!
HTML as symbols and chunks: structural elements become symbols, texts and comments chunks, and the
bodies of scripts and styles are handed to their own handlers.
-/
namespace SourceSlices.Html

open Syntax

def documentSymbol : String := "html:document"

def structuralTags : List String :=
  ["html", "head", "body", "header", "footer", "main", "nav", "section", "article", "aside", "form",
    "table", "template", "div", "ul", "ol"]

/-- The handler for a script of a type; none for blocks of data. -/
def scriptDelegate (scriptType : Option String) : Option String :=
  match scriptType.map fun t => String.ofList (Text.asciiLower (Text.trim t.toList)) with
  | none => some "javascript"
  | some t =>
    if ["", "module", "text/javascript", "application/javascript", "javascript"].contains t then
      some "javascript"
    else if ["text/typescript", "application/typescript", "typescript", "ts"].contains t then
      some "typescript"
    else none

/-- The document that is walked, and how parts of it are handed over. -/
structure Page where
  path : String
  text : List Char
  lines : LineIndex
  reading : Reading
  budget : Nat
  read : ReadSource

namespace Page

def slice (p : Page) (n : Node) : List Char := Text.slice p.text n.start n.stop

def startTag? (n : Node) : Option Node := n.childOfKind? "start_tag"

def lowerTrim (cs : List Char) : String := String.ofList (Text.asciiLower (Text.trim cs))

def tagName? (p : Page) (n : Node) : Option String := do
  let tag ← (startTag? n).orElse fun _ => n.childOfKind? "self_closing_tag"
  let name ← tag.childOfKind? "tag_name"
  return lowerTrim (p.slice name)

def isQuote (c : Char) : Bool := c == '"' || c == '\''

def attributeValue (p : Page) (attr : Node) : String :=
  let value := (attr.childOfKind? "quoted_attribute_value").orElse fun _ =>
    attr.childOfKind? "attribute_value"
  match value with
  | some v => String.ofList (Text.trimWhere isQuote (Text.trim (p.slice v)))
  | none => ""

/-- Attributes by name; a later one of the same name counts. -/
def attributes (p : Page) (n : Node) : SortedMap String :=
  match startTag? n with
  | none => ∅
  | some tag => tag.children.foldl (fun m attr =>
      if attr.kind == "attribute" then
        match attr.childOfKind? "attribute_name" with
        | some name => m.insert (lowerTrim (p.slice name)) (p.attributeValue attr)
        | none => m
      else m) ∅

def chunk (p : Page) (exact : Bool) (c : Chunk) : Output :=
  let c := { c with metadata := c.metadata.putLines p.lines c.startOffset c.endOffset }
  Output.ofChunk p.reading.count p.budget (if exact then some p.lines else none) c.chunkId c

def span (n : Node) : String := toString n.start ++ ":" ++ toString n.stop

def elementId (tag : String) (n : Node) : String := "html::" ++ tag ++ ":" ++ span n
def elementChunkId (tag : String) (n : Node) : String := "html:" ++ tag ++ ":" ++ span n

/-- Symbol and chunk of an element. -/
def element (p : Page) (n : Node) (tag kind : String) (parent : Option String) : Output :=
  let attributes := p.attributes n
  let m := (Metadata.empty.putStr "tag" tag).putLines p.lines n.start n.stop
  let m := ["id", "class"].foldl (fun m key => Delegation.putSome m key (attributes.find? key)) m
  let symbol : Symbol :=
    { symbolId := elementId tag n, name := tag, kind, startOffset := n.start, endOffset := n.stop
      parentId := parent, metadata := m }
  .ofSymbol symbol ++ p.chunk true
    { Chunk.ofSlice (elementChunkId tag n) p.text n.start n.stop with
      parentSymbolId := some (elementId tag n), metadata := m.putStr "kind" "element" }

/-- A text or comment, its blanks collapsed. -/
def inlineText (p : Page) (n : Node) (parent : Option String) : Output :=
  let collapsed := Text.collapse (p.slice n)
  if collapsed.isEmpty then {}
  else p.chunk false
    { Chunk.ofSlice ("html:" ++ n.kind ++ ":" ++ span n) p.text n.start n.stop with
      text := String.ofList collapsed, parentSymbolId := parent
      metadata := Metadata.empty.putStr "kind" n.kind }

/-- The body of a script or style as a chunk of the page itself. -/
def plainInline (p : Page) (raw : Node) (kind : String) (body : List Char) (symbolId : String)
    (delegate : Option String) : Output :=
  let m := Metadata.empty.putStr "kind" ("inline_" ++ kind)
  let m := match delegate with
    | some d => (m.putStr "delegate_status" "unavailable").putStr "intended_delegate" d
    | none => m
  p.chunk false
    { Chunk.ofSlice ("html:" ++ kind ++ ":inline:" ++ span raw) p.text raw.start raw.stop with
      text := String.ofList body, parentSymbolId := some symbolId, metadata := m }

/-- Line of the first character that is not blank in the body. -/
def bodyLine (p : Page) (raw : Node) : Nat :=
  let cs := p.slice raw
  p.lines.line (raw.start + (Text.byteLength cs - Text.byteLength (Text.trimStart cs)))

/-- Hands the body to a handler, or keeps it if that one is not available. -/
def delegateBody (p : Page) (n raw : Node) (tag kind delegate : String) (body : List Char) : Output :=
  if !p.reading.registry.isAvailable delegate then
    p.plainInline raw kind body (elementId tag n) (some delegate) ++
      .ofWarning ("inline " ++ kind ++ " block could not delegate because " ++ delegate ++
        " handler is unavailable")
  else
    (Delegation.delegate p.read p.reading p.path
      { delegate, parentHandler := "html", component := some ("inline_" ++ kind), text := body
        startOffset := raw.start, endOffset := raw.stop, startLine := p.bodyLine raw
        parentSymbol := some (elementId tag n), parentChunk := some (elementChunkId tag n)
        metadata := (Metadata.empty.putStr "kind" kind).putStr "tag" tag }).output

/-- A script or style element. -/
def embedded (p : Page) (n : Node) (kind : String) (parent : Option String) : Output :=
  let tag := (p.tagName? n).getD kind
  p.element n tag kind parent ++
    match n.childOfKind? "raw_text" with
    | none => {}
    | some raw =>
      let body := Text.dedent (p.slice raw)
      if body.isEmpty then {}
      else if kind = "script" then
        match scriptDelegate ((p.attributes n).find? "type") with
        | some delegate => p.delegateBody n raw tag kind delegate body
        | none => p.plainInline raw kind body (elementId tag n) none
      else p.delegateBody n raw tag kind "css" body

mutual

def visit (p : Page) (parent : Option String) : Node → Output
  | n@⟨kind, _, _, _, _, _, children⟩ =>
    if kind == "script_element" then p.embedded n "script" parent
    else if kind == "style_element" then p.embedded n "style" parent
    else if kind == "element" then
      match p.tagName? n with
      | some tag =>
        if structuralTags.contains tag then
          p.element n tag "element" parent ++ p.visitNamed (some (elementId tag n)) children
        else p.visitNamed parent children
      | none => p.visitNamed parent children
    else if kind == "text" || kind == "comment" then p.inlineText n parent
    else p.visitNamed parent children

def visitNamed (p : Page) (parent : Option String) : List Node → Output
  | [] => {}
  | n :: rest => (if n.named then p.visit parent n else {}) ++ p.visitNamed parent rest

end

end Page

/-- Reads a document. A delegated one hangs off the symbol that delegates. -/
def read (readSource : ReadSource) (r : Reading) (path : String) : HandlerResult :=
  match r.load path "html" with
  | .error e => r.unreadable path "html" e
  | .ok source =>
    let root := r.readers.html source.text
    let p : Page := ⟨path, source.text, LineIndex.ofText source.text, r, r.maxTokens "html", readSource⟩
    let size := Text.byteLength source.text
    let top := if r.depth = 0 then
        Output.ofSymbol
          { symbolId := documentSymbol, name := Path.dottedName source.file.path, kind := "document"
            startOffset := 0, endOffset := size, metadata := Metadata.empty.putLines p.lines 0 size }
      else {}
    let trouble := if root.failing then .ofWarning (path ++ ": html contains syntax errors") else {}
    let parent := if r.depth = 0 then some documentSymbol else none
    (top ++ trouble ++ p.visitNamed parent root.children).toResult source

end SourceSlices.Html
