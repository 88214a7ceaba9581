import SourceSlices.Python.Docstring
import SourceSlices.Reading

/-!
Python as symbols and chunks: classes and functions at every depth, and the code between the
definitions of a module.
-/
namespace SourceSlices.Python

open Syntax

/-- The first statement of a block, if it is a bare text. -/
def docstringNode? (block : Node) : Option Node :=
  match block.namedChildren.head? with
  | some first =>
    if first.kind == "expression_statement" &&
      (first.namedChildren.head?.any (·.kind == "string"))
    then some first else none
  | none => none

structure Module where
  text : List Char
  lines : LineIndex
  count : Counter
  budget : Nat
  /-- Beginning of all symbol ids. -/
  origin : String

/-- The definitions around a statement: their names, outermost first, and the innermost symbol. -/
structure Scope where
  names : List String := []
  parent : Option String := none

/-- A statement that defines something: the whole of it, the definition, and its decorators. -/
structure Definition where
  outer : Node
  node : Node
  decorators : List String
  isClass : Bool

namespace Module

def slice (m : Module) (n : Node) : List Char := Text.slice m.text n.start n.stop

def sliceStr (m : Module) (n : Node) : String := String.ofList (m.slice n)

def trimmed (m : Module) (n : Node) : String := String.ofList (Text.trim (m.slice n))

def qualified (s : Scope) (name : String) : String := String.intercalate "." (s.names ++ [name])

def span (start stop : Nat) : String := toString start ++ ":" ++ toString stop

def chunks (m : Module) (id kind : String) (start stop : Nat) (parent : Option String)
    (label : String) (more : Metadata → Metadata) : Output :=
  let d := (Metadata.empty.putStr "kind" kind).putStr "qualified_name" label
  let made := Output.ofChunk m.count m.budget (some m.lines) label
    { Chunk.ofSlice id m.text start stop with
      parentSymbolId := parent, metadata := d.putLines m.lines start stop }
  { made with chunks := made.chunks.map fun c => { c with metadata := more c.metadata } }

/-- Text of a docstring, unless it is empty. -/
def docstring? (m : Module) (block : Node) : Option String :=
  match docstringNode? block with
  | some doc =>
    let text := cleanDocstring (Text.trim (m.slice doc))
    if text.isEmpty then none else some (String.ofList text)
  | none => none

def decorator (m : Module) (n : Node) : String :=
  String.ofList (Text.trim (Text.trimStartWhere (· == '@') (Text.trim (m.slice n))))

/-- What a statement defines. -/
def definition? (m : Module) (statement : Node) : Option Definition :=
  let make (node : Node) (decorators : List String) : Option Definition :=
    if node.kind == "class_definition" then some ⟨statement, node, decorators, true⟩
    else if node.kind == "function_definition" then some ⟨statement, node, decorators, false⟩
    else none
  if statement.kind == "decorated_definition" then
    (statement.child? "definition").bind fun node =>
      make node ((statement.namedChildren.filter (·.kind == "decorator")).map m.decorator)
  else make statement []

def bases (m : Module) (n : Node) : List String :=
  (n.namedChildren.filter (·.kind != "comment")).map m.trimmed

def isAsync (m : Module) (d : Definition) : Bool :=
  !d.isClass && (Text.dropPrefix? (Text.trimStart (m.slice d.node)) "async".toList).isSome

def putList (meta' : Metadata) (key : String) (items : List String) : Metadata :=
  if items.isEmpty then meta' else meta'.put key (.list items)

def putTrimmed (m : Module) (meta' : Metadata) (key : String) : Option Node → Metadata
  | some n => meta'.putStr key (m.trimmed n)
  | none => meta'

/-- Metadata of the symbol of a definition. -/
def describe (m : Module) (d : Definition) (qualifiedName : String) : Metadata :=
  let kind := if d.isClass then "class" else "function"
  let base := (Metadata.empty.putStr "kind" kind).putStr "qualified_name" qualifiedName
  let base := putList (base.putLines m.lines d.outer.start d.outer.stop) "decorators" d.decorators
  if d.isClass then
    match d.node.child? "superclasses" with
    | some n => putList base "bases" (m.bases n)
    | none => base
  else
    let base := base.putBool "async" (m.isAsync d)
    let base := m.putTrimmed base "parameters" (d.node.child? "parameters")
    m.putTrimmed base "return_annotation" (d.node.child? "return_type")

/-- Symbol and chunks of a definition, without what its body holds. -/
def define (m : Module) (s : Scope) (d : Definition) (name : String) : Output :=
  let qualifiedName := qualified s name
  let id := m.origin ++ "::" ++ qualifiedName
  let kind := if d.isClass then "class" else "function"
  let symbol : Symbol :=
    { symbolId := id, name, kind, startOffset := d.outer.start, endOffset := d.outer.stop
      docstring := (d.node.child? "body").bind m.docstring?
      parentId := s.parent, metadata := m.describe d qualifiedName }
  .ofSymbol symbol ++
    m.chunks ("python:" ++ qualifiedName ++ ":" ++ span d.outer.start d.outer.stop) kind
      d.outer.start d.outer.stop (some id) qualifiedName fun c =>
        putList (if m.isAsync d then c.putBool "async" true else c) "decorators" d.decorators

/-- The scope inside a definition. -/
def inside (m : Module) (s : Scope) (name : String) : Scope :=
  ⟨s.names ++ [name], some (m.origin ++ "::" ++ qualified s name)⟩

def definitionName? (m : Module) (d : Definition) : Option String :=
  (d.node.child? "name").map m.sliceStr

mutual

/-- A definition and all those inside it; nothing for other statements. -/
def visit (m : Module) (s : Scope) : Node → Output
  | n@⟨kind, _, _, _, _, _, children⟩ =>
    match (m.definition? n).bind fun d => (m.definitionName? d).map (d, ·) with
    | none => {}
    | some (d, name) =>
      m.define s d name ++
        if kind == "decorated_definition" then m.visitDecorated (m.inside s name) children
        else m.visitBody (m.inside s name) children

def visitDecorated (m : Module) (s : Scope) : List Node → Output
  | [] => {}
  | ⟨_, _, field, _, _, _, children⟩ :: rest =>
    if field == some "definition" then m.visitBody s children else m.visitDecorated s rest

def visitBody (m : Module) (s : Scope) : List Node → Output
  | [] => {}
  | b@⟨_, _, field, _, _, _, children⟩ :: rest =>
    if field == some "body" then m.visitBlock s (docstringNode? b).isSome children
    else m.visitBody s rest

/-- The statements of a block; the first one is passed over if it is a docstring. -/
def visitBlock (m : Module) (s : Scope) (skipsFirst : Bool) : List Node → Output
  | [] => {}
  | n :: rest =>
    if !n.named then m.visitBlock s skipsFirst rest
    else if skipsFirst then m.visitBlock s false rest
    else m.visit s n ++ m.visitBlock s false rest

end

/-- A stretch of code between definitions. -/
def looseCode (m : Module) (s : Scope) : Option (Nat × Nat) → Output
  | none => {}
  | some (start, stop) =>
    m.chunks ("python:module_code:" ++ span start stop) "module_code" start stop s.parent
      (s.names.headD "module") id

/-- The statements of a module; `pending` is the stretch of loose code that is still open. -/
def topLevel (m : Module) (s : Scope) : Option (Nat × Nat) → List Node → Output
  | pending, [] => m.looseCode s pending
  | pending, n :: rest =>
    match m.definition? n with
    | none => m.topLevel s (some ((pending.map (·.1)).getD n.start, n.stop)) rest
    | some d =>
      m.looseCode s pending ++
        if (m.definitionName? d).isSome then m.visit s n ++ m.topLevel s none rest
        else m.topLevel s (some (n.start, n.stop)) rest

/-- The statements of a block after its docstring. -/
def statements (block : Node) : List Node :=
  if (docstringNode? block).isSome then block.namedChildren.drop 1 else block.namedChildren

def docstringChunk (m : Module) (s : Scope) (name : String) (root : Node) : Output :=
  match docstringNode? root, m.docstring? root with
  | some doc, some _ =>
    m.chunks ("python:module_docstring:" ++ span doc.start doc.stop) "module_docstring"
      doc.start doc.stop s.parent name id
  | _, _ => {}

end Module

/-- Reads a module. A delegated one has no symbol of its own. -/
def read (r : Reading) (path : String) : HandlerResult :=
  match r.load path "python" with
  | .error e => r.unreadable path "python" e
  | .ok source =>
    let root := r.readers.python source.text
    let name := Path.dottedName source.file.path
    let m : Module := ⟨source.text, LineIndex.ofText source.text, r.count, r.maxTokens "python",
      "python:" ++ source.file.path⟩
    let id := m.origin ++ "::" ++ name
    let size := Text.byteLength source.text
    let trouble := if root.failing then
        .ofWarning (path ++ ": python source contains syntax errors")
      else {}
    let top := if r.depth = 0 then
        let d := (Metadata.empty.putStr "kind" "module").putStr "qualified_name" name
        Output.ofSymbol
          { symbolId := id, name, kind := "module", startOffset := 0, endOffset := size
            docstring := m.docstring? root, metadata := d.putLines m.lines 0 size }
      else {}
    let s : Scope := if r.depth = 0 then ⟨[name], some id⟩ else {}
    (trouble ++ top ++ m.docstringChunk s name root ++ m.topLevel s none (Module.statements root)).toResult
      source

end SourceSlices.Python
