import SourceSlices.Delegation
import SourceSlices.Script.Comment

/-!
JavaScript and TypeScript as symbols and chunks: declarations and exports of a module, the methods
and fields of classes, and the code between them. Markup inside the code is handed to HTML.
-/
namespace SourceSlices.Script

open Syntax

inductive Dialect where
  | javascript
  | typescript
  deriving DecidableEq

def Dialect.name : Dialect → String
  | .javascript => "javascript"
  | .typescript => "typescript"

structure Export where
  exported : Bool := false
  default' : Bool := false

structure Module where
  name : String
  path : String
  text : List Char
  lines : LineIndex
  reading : Reading
  budget : Nat
  /-- Symbol of the whole module. -/
  symbolId : Option String
  read : ReadSource

def classKinds : List String := ["class_declaration", "abstract_class_declaration"]
def functionKinds : List String :=
  ["function_declaration", "generator_function_declaration", "function_signature"]
def variableKinds : List String := ["lexical_declaration", "variable_declaration"]
def markupKinds : List String := ["jsx_element", "jsx_fragment", "jsx_self_closing_element"]

/-- Kinds of declarations that become one symbol and one chunk. -/
def plainLabel? (kind : String) : Option String :=
  if kind == "interface_declaration" then some "interface"
  else if kind == "type_alias_declaration" then some "type"
  else if kind == "enum_declaration" then some "enum"
  else none

/-- The name on both sides of `local as exported`. -/
def exportNames (text : List Char) : String × String :=
  match Text.words text with
  | [first, middle, last] =>
    if middle = "as".toList then (String.ofList first, String.ofList last)
    else (String.ofList (Text.trim text), String.ofList (Text.trim text))
  | _ => (String.ofList (Text.trim text), String.ofList (Text.trim text))

namespace Module

def slice (m : Module) (n : Node) : List Char := Text.slice m.text n.start n.stop
def trimmed (m : Module) (n : Node) : String := String.ofList (Text.trim (m.slice n))
def fieldText? (m : Module) (n : Node) (field : String) : Option String :=
  (n.child? field).map m.trimmed

/-- The comment right before a node, with at most one line end between them. -/
def leadingComment? (m : Module) (before : Option Node) (n : Node) : Option String :=
  match before with
  | none => none
  | some c =>
    if c.kind != "comment" then none
    else if (Text.slice m.text c.stop n.start).count '\n' > 1 then none
    else
      let doc := normalizeComment (m.slice c)
      if doc.isEmpty then none else some (String.ofList doc)

def symbolIdOf (m : Module) (name : String) (n : Node) : String :=
  m.name ++ ":" ++ name ++ ":" ++ toString n.start ++ ":" ++ toString n.stop

/-- A symbol of the module; `before` is the node before it. -/
def symbol (m : Module) (name kind : String) (before : Option Node) (n : Node) (e : Export)
    (d : Metadata) : Output :=
  let d := d.putLines m.lines n.start n.stop
  .ofSymbol
    { symbolId := m.symbolIdOf name n, name, kind, startOffset := n.start, endOffset := n.stop
      docstring := m.leadingComment? before n, parentId := m.symbolId
      metadata := (d.putBool "exported" e.exported).putBool "default_export" e.default' }

/-- The chunks of a span. -/
def chunk (m : Module) (label kind : String) (start stop : Nat) (parent : Option String)
    (name : String) : Output :=
  let id := m.name ++ ":" ++ label ++ ":" ++ toString start ++ ":" ++ toString stop
  Output.ofChunk m.reading.count m.budget (some m.lines) name
    { Chunk.ofSlice id m.text start stop with
      parentSymbolId := parent
      metadata := (Metadata.empty.putStr "kind" kind).putLines m.lines start stop }

def kindOnly (kind : String) : Metadata := Metadata.empty.putStr "kind" kind

/-- A node together with the one before it among its siblings. -/
structure Placed where
  before : Option Node := none
  node : Node

def placeFrom (before : Option Node) : List Node → List Placed
  | [] => []
  | n :: rest => ⟨before, n⟩ :: placeFrom (some n) rest

/-- The children of a node, each with the one before it. -/
def placed (n : Node) : List Placed := placeFrom none n.children

def placedChild? (n : Node) (field : String) : Option Placed :=
  (placed n).find? (·.node.field == some field)

def function (m : Module) (p : Placed) (outer : Node) (e : Export) : Output :=
  let n := p.node
  let name := (m.fieldText? n "name").getD "default"
  let isAsync := (Text.dropPrefix? (Text.trimStart (m.slice n)) "async".toList).isSome
  let d := ((kindOnly "function").putBool "async" isAsync).putBool "generator"
    (n.kind == "generator_function_declaration")
  m.symbol name "function" p.before n e d ++
    m.chunk "function" "function" outer.start outer.stop (some (m.symbolIdOf name n)) name

def isMethod (n : Node) : Bool :=
  ["method_definition", "method_signature", "abstract_method_signature"].contains n.kind
def isField (n : Node) : Bool := ["field_definition", "public_field_definition"].contains n.kind

/-- The heritage of a class without its keyword. -/
def heritage (m : Module) (n : Node) : String :=
  let rec strip : Nat → List Char → List Char
    | 0, cs => cs
    | fuel + 1, cs =>
      match Text.dropPrefix? cs "extends".toList with
      | some rest => strip fuel rest
      | none => cs
  let cs := Text.trim (m.slice n)
  String.ofList (Text.trim (strip cs.length cs))

def method (m : Module) (className classId : String) (n : Node) : Output :=
  let name := (m.fieldText? n "name").getD "anonymous"
  let qualified := className ++ "." ++ name
  let made := m.chunk "method" "class_method" n.start n.stop (some classId) qualified
  { made with chunks := made.chunks.map fun c =>
      { c with metadata := (c.metadata.putStr "method" name).putStr "qualified_name" qualified } }

/-- A class: its fields as one chunk and each method as another, or all of it as one chunk. -/
def class' (m : Module) (p : Placed) (outer : Node) (e : Export) : Output :=
  let n := p.node
  let name := (m.fieldText? n "name").getD "anonymous"
  let id := m.symbolIdOf name n
  let d := match n.childOfKind? "class_heritage" with
    | some h => (kindOnly "class").putStr "extends" (m.heritage h)
    | none => kindOnly "class"
  let members := ((n.child? "body").map (·.namedChildren)).getD []
  let methods := members.filter isMethod
  let fields := members.filter isField
  m.symbol name "class" p.before n e d ++
    if methods.isEmpty && fields.isEmpty then
      m.chunk "class" "class" outer.start outer.stop (some id) name
    else
      (match fields.head?, fields.getLast? with
        | some first, some last =>
          m.chunk "class-fields" "class_fields" first.start last.stop (some id) (name ++ " fields")
        | _, _ => {}) ++
      .join (methods.map (m.method name id))

/-- Each declarator of a statement; a single one keeps the text of the statement. -/
def variableSymbols (m : Module) (n outer : Node) (e : Export) : Output :=
  let keyword := String.ofList (((Text.words (m.slice n)).head?).getD "var".toList)
  let kind := if keyword = "const" then "const" else "variable"
  let declarators := (placed n).filter fun p => p.node.named && p.node.kind == "variable_declarator"
  .join (declarators.map fun p =>
    let name := (m.fieldText? p.node "name").getD keyword
    let range := if declarators.length = 1 then outer else p.node
    m.symbol name kind p.before p.node e ((kindOnly kind).putStr "keyword" keyword) ++
      m.chunk kind kind range.start range.stop (some (m.symbolIdOf name p.node)) name)

/-- A declaration; `outer` is the node whose text becomes the chunk. -/
def declaration? (m : Module) (p : Placed) (outer : Node) (e : Export) : Option Output :=
  let n := p.node
  if classKinds.contains n.kind then some (m.class' p outer e)
  else if functionKinds.contains n.kind then some (m.function p outer e)
  else if variableKinds.contains n.kind then some (m.variableSymbols n outer e)
  else (plainLabel? n.kind).map fun label =>
    let name := (m.fieldText? n "name").getD "anonymous"
    m.symbol name label p.before n e (kindOnly label) ++
      m.chunk label label outer.start outer.stop (some (m.symbolIdOf name n)) name

def putSource (d : Metadata) (source : Option String) : Metadata :=
  Delegation.putSome d "source" source

def specifier (m : Module) (source : Option String) (p : Placed) : Output :=
  let (inner, exported) := exportNames (m.slice p.node)
  let isDefault := exported == "default"
  let display := if isDefault then inner else exported
  let d := ((kindOnly "reexport").putStr "local" inner).putStr "export" exported
  m.symbol display "reexport" p.before p.node ⟨true, isDefault⟩ (putSource d source) ++
    m.chunk "reexport" "reexport" p.node.start p.node.stop
      (some (m.symbolIdOf display p.node)) display

def isQuote (c : Char) : Bool := c == '"' || c == '\'' || c == '\x60'

/-- An export of everything, or of a value. -/
def exportWhole (m : Module) (p : Placed) (e : Export) (name key : String) (source : Option String) :
    Output :=
  let d := (kindOnly "reexport").putStr key (m.trimmed p.node)
  m.symbol name "reexport" p.before p.node e (putSource d source) ++
    m.chunk "reexport" "reexport" p.node.start p.node.stop (some (m.symbolIdOf name p.node)) name

/-- An export statement; none if it exports nothing that is known. -/
def export? (m : Module) (p : Placed) : Option Output :=
  let n := p.node
  let e : Export := ⟨true, n.children.any (·.kind == "default")⟩
  match placedChild? n "declaration" with
  | some inner =>
    some ((m.declaration? inner n e).getD
      (m.chunk "export" "export" n.start n.stop m.symbolId "export"))
  | none =>
    let source := (m.fieldText? n "source").map fun s =>
      String.ofList (Text.trimWhere isQuote s.toList)
    match n.childOfKind? "export_clause" with
    | some clause =>
      some (.join (((placed clause).filter fun q =>
        q.node.named && q.node.kind == "export_specifier").map (m.specifier source)))
    | none =>
      if n.children.any fun c => c.kind == "*" || c.kind == "namespace_export" then
        some (m.exportWhole p e "*" "namespace" source)
      else if (n.child? "value").isSome then
        some (m.exportWhole p e "default" "assignment" source)
      else none

def statement? (m : Module) (p : Placed) : Option Output :=
  if p.node.kind == "export_statement" then m.export? p else m.declaration? p p.node {}

/-- A stretch of code between declarations. -/
def looseCode (m : Module) : Option (Nat × Nat) → Output
  | none => {}
  | some (start, stop) => m.chunk "module-code" "module_code" start stop m.symbolId "module code"

/-- The statements of a module; `pending` is the stretch of loose code that is still open. -/
def topLevel (m : Module) : Option (Nat × Nat) → List Placed → Output
  | pending, [] => m.looseCode pending
  | pending, p :: rest =>
    match m.statement? p with
    | some found => m.looseCode pending ++ found ++ m.topLevel none rest
    | none => m.topLevel (some ((pending.map (·.1)).getD p.node.start, p.node.stop)) rest

/-- Innermost symbol around a span; of equally long ones the first. -/
def enclosing (m : Module) (symbols : List Symbol) (start stop : Nat) : Option String :=
  let around := symbols.filter fun s => s.startOffset ≤ start && stop ≤ s.endOffset
  let best := around.foldl (fun (best : Option Symbol) s =>
    match best with
    | none => some s
    | some b => if s.endOffset - s.startOffset < b.endOffset - b.startOffset then some s else best)
    none
  (best.map (·.symbolId)).orElse fun _ => m.symbolId

mutual

/-- Outermost markup in document order. -/
def markup : Node → List Node
  | n@⟨kind, _, _, _, _, _, children⟩ =>
    if markupKinds.contains kind then [n] else markupIn children

def markupIn : List Node → List Node
  | [] => []
  | n :: rest => (if n.named then markup n else []) ++ markupIn rest

end

/-- Hands each piece of markup to HTML, under the innermost symbol found so far. -/
def delegateMarkup (m : Module) : List Node → Output → Output
  | [], found => found
  | n :: rest, found =>
    let outcome := Delegation.delegate m.read m.reading m.path
      { delegate := "html", parentHandler := m.name, component := some "jsx", text := m.slice n
        startOffset := n.start, endOffset := n.stop, startLine := m.lines.line n.start
        parentSymbol := m.enclosing found.symbols n.start n.stop
        metadata := kindOnly "jsx" }
    m.delegateMarkup rest (found ++ outcome.output)

/-- The comments at the beginning, after an interpreter line, and the statements after them. -/
def leadingBlock (top : List Placed) : List Placed × List Placed :=
  let top := match top with
    | p :: rest => if p.node.kind == "hash_bang_line" then rest else p :: rest
    | [] => []
  (top.takeWhile (·.node.kind == "comment"), top.dropWhile (·.node.kind == "comment"))

def docstring (m : Module) (block : List Placed) : List Char :=
  Text.join ['\n'] ((block.map fun p => normalizeComment (m.slice p.node)).filter (!·.isEmpty))

def moduleSymbol (m : Module) (id name : String) (doc : List Char) : Output :=
  let size := Text.byteLength m.text
  .ofSymbol
    { symbolId := id, name, kind := "module", startOffset := 0, endOffset := size
      docstring := if doc.isEmpty then none else some (String.ofList doc)
      metadata := Metadata.empty.putLines m.lines 0 size }

def docstringChunk (m : Module) (block : List Placed) (doc : List Char) : Output :=
  match block.head?, block.getLast? with
  | some first, some last =>
    if doc.isEmpty then {}
    else m.chunk "module-doc" "module_docstring" first.node.start last.node.stop m.symbolId
      "module docstring"
  | _, _ => {}

end Module

/-- The grammar for a path, and whether markup in it is handed on. -/
def grammarFor (readers : Readers) (dialect : Dialect) (path : String) :
    (List Char → Node) × Bool :=
  let ext := Path.extension? path
  match dialect with
  | .javascript => (readers.javascript, ext == some "jsx")
  | .typescript => if ext == some "tsx" then (readers.tsx, true) else (readers.typescript, false)

/-- Reads a module. A delegated one has no symbol of its own. -/
def read (dialect : Dialect) (readSource : ReadSource) (r : Reading) (path : String) : HandlerResult :=
  let name := dialect.name
  match r.load path name with
  | .error e => r.unreadable path name e
  | .ok source =>
    let (grammar, delegates) := grammarFor r.readers dialect path
    let root := grammar source.text
    let moduleName := Path.dottedName source.file.path
    let id := name ++ ":module:" ++ moduleName
    let m : Module := ⟨name, path, source.text, LineIndex.ofText source.text, r, r.maxTokens name,
      if r.depth = 0 then some id else none, readSource⟩
    let trouble := if root.failing then
        .ofWarning (path ++ ": " ++ name ++ " source contains syntax errors")
      else {}
    let (block, rest) := Module.leadingBlock ((Module.placed root).filter (·.node.named))
    let doc := m.docstring block
    let top := if r.depth = 0 then m.moduleSymbol id moduleName doc else {}
    let found := trouble ++ top ++ m.docstringChunk block doc ++ m.topLevel none rest
    let all := if delegates && r.registry.contains "html" then
        m.delegateMarkup (Module.markup root) found
      else found
    all.toResult source

end SourceSlices.Script
