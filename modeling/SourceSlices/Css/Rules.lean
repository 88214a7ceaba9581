import SourceSlices.Css.Selectors
import SourceSlices.Reading

/-!
Style sheets as symbols and chunks: one chunk for each selector of a rule, one for the head of each
at-rule; rules inside an at-rule carry its name as their cascade.
-/
namespace SourceSlices.Css

open Syntax

/-- Where the walk stands: the symbol above, and the at-rules around. -/
structure Scope where
  parent : Option String := none
  cascade : Option String := none

/-- The text that is walked, with what is needed to make chunks of it. -/
structure Sheet where
  path : String
  text : List Char
  lines : LineIndex
  count : Counter
  budget : Nat

def rootSymbol : String := "css:stylesheet"

def isAtRule (kind : String) : Bool :=
  kind == "at_rule" || (Text.dropSuffix? kind.toList "_statement".toList).isSome

def isNestable (kind : String) : Bool := kind == "rule_set" || isAtRule kind

namespace Sheet

def slice (s : Sheet) (n : Node) : List Char := Text.slice s.text n.start n.stop

/-- A chunk under its own id; with `exact` its text is the slice of its span. -/
def chunk (s : Sheet) (exact : Bool) (c : Chunk) : Output :=
  let c := { c with metadata := c.metadata.putLines s.lines c.startOffset c.endOffset }
  Output.ofChunk s.count s.budget (if exact then some s.lines else none) c.chunkId c

def piece (s : Sheet) (id : String) (start stop : Nat) (parent : Option String) (m : Metadata) :
    Chunk :=
  { Chunk.ofSlice id s.text start stop with parentSymbolId := parent, metadata := m }

def symbol (s : Sheet) (id name kind : String) (n : Node) (parent : Option String) : Output :=
  .ofSymbol { symbolId := id, name, kind, startOffset := n.start, endOffset := n.stop
              parentId := parent, metadata := Metadata.empty.putLines s.lines n.start n.stop }

def putCascade (m : Metadata) : Option String → Metadata
  | some c => m.putStr "cascade" c
  | none => m

def span (n : Node) : String := toString n.start ++ ":" ++ toString n.stop

def comment (s : Sheet) (at' : Scope) (n : Node) : Output :=
  s.chunk true (s.piece ("css:comment:" ++ span n) n.start n.stop at'.parent
    (putCascade (Metadata.empty.putStr "kind" "comment") at'.cascade))

def error (s : Sheet) (at' : Scope) (n : Node) : Output :=
  .ofWarning (s.path ++ ": css syntax error at line " ++ toString (s.lines.line n.start)) ++
    s.chunk true (s.piece ("css:error:" ++ span n) n.start n.stop at'.parent
      (Metadata.empty.putStr "kind" "error"))

/-- The chunk of one selector; a lone selector keeps the text of its rule. -/
def selector (s : Sheet) (n : Node) (id : String) (body : List Char) (cascade : Option String)
    (total index : Nat) (sel : List Char) : Output :=
  let m := Metadata.ofList [("kind", .str "rule"), ("selector", .str (String.ofList sel)),
    ("selector_index", .nat index), ("selector_total", .nat total),
    ("body", .str (String.ofList body))]
  let c := s.piece ("css:rule:" ++ span n ++ ":" ++ toString index) n.start n.stop (some id)
    (putCascade m cascade)
  if total = 1 then s.chunk true c
  else s.chunk false { c with text := String.ofList (sel ++ ' ' :: body) }

/-- A rule without the rules inside it. -/
def ruleHead (s : Sheet) (at' : Scope) (n block : Node) : Output :=
  let selectors := splitSelectors (((n.childOfKind? "selectors").map s.slice).getD [])
  let id := "css:rule:" ++ toString n.start
  let name := String.intercalate ", " (selectors.map String.ofList)
  s.symbol id name "rule" n at'.parent ++
    .join (selectors.mapIdx (s.selector n id (s.slice block) at'.cascade selectors.length))

def isBody (n : Node) : Bool := n.kind == "block" || n.kind == "keyframe_block_list"

/-- The keyword of an at-rule, and keyword and prelude together. -/
def label (s : Sheet) (keyword : Node) (prelude : List Char) : String :=
  let word := String.ofList (Text.trim (s.slice keyword))
  if prelude.isEmpty then word else word ++ " " ++ String.ofList prelude

def prelude (s : Sheet) (n keyword : Node) (body : Option Node) : List Char :=
  let stop := body.elim n.stop (·.start)
  Text.collapse (Text.trimEndWhere (· == ';') (Text.slice s.text keyword.stop stop))

def atRuleId (n : Node) : String := "css:at_rule:" ++ toString n.start

/-- An at-rule without what its block holds. -/
def atRuleHead (s : Sheet) (at' : Scope) (n keyword : Node) (body : Option Node) : Output :=
  let prelude := s.prelude n keyword body
  let stop := body.elim n.stop fun b => min (b.start + 1) b.stop
  let word := Text.trimStartWhere (· == '@') (Text.trim (s.slice keyword))
  let m := Metadata.ofList [("kind", .str "at_rule"), ("at_rule", .str (String.ofList word)),
    ("prelude", .str (String.ofList prelude))]
  s.symbol (atRuleId n) (s.label keyword prelude) "at_rule" n at'.parent ++
    s.chunk true (s.piece (atRuleId n ++ ":" ++ toString stop) n.start stop (some (atRuleId n))
      (putCascade m at'.cascade))

/-- The scope inside an at-rule. -/
def inside (s : Sheet) (at' : Scope) (n keyword : Node) (body : Option Node) : Scope :=
  let label := s.label keyword (s.prelude n keyword body)
  ⟨some (atRuleId n), some (match at'.cascade with
    | some outer => outer ++ " > " ++ label
    | none => label)⟩

def keyframe (s : Sheet) (at' : Scope) (n : Node) : Output :=
  let selector := (n.children.head?.map fun c => Text.collapse (s.slice c)).getD []
  let m := (Metadata.empty.putStr "kind" "keyframe").putStr "selector" (String.ofList selector)
  s.chunk true (s.piece ("css:keyframe:" ++ span n) n.start n.stop at'.parent
    (putCascade m at'.cascade))

mutual

def visit (s : Sheet) (at' : Scope) : Node → Output
  | n@⟨kind, _, _, _, _, _, children⟩ =>
    if kind == "rule_set" then
      match n.childOfKind? "block" with
      | none => {}
      | some block =>
        s.ruleHead at' n block ++
          s.visitBlock { at' with parent := some ("css:rule:" ++ toString n.start) } children
    else if kind == "comment" || kind == "js_comment" then s.comment at' n
    else if kind == "ERROR" then s.error at' n
    else if isAtRule kind then
      match children.head? with
      | none => {}
      | some keyword =>
        let body := children.find? isBody
        s.atRuleHead at' n keyword body ++ s.visitBody (s.inside at' n keyword body) children
    else {}

/-- Rules inside the first block of a rule. -/
def visitBlock (s : Sheet) (at' : Scope) : List Node → Output
  | [] => {}
  | ⟨kind, _, _, _, _, _, children⟩ :: rest =>
    if kind == "block" then s.visitNested at' children else s.visitBlock at' rest

def visitNested (s : Sheet) (at' : Scope) : List Node → Output
  | [] => {}
  | n :: rest =>
    (if isNestable n.kind then s.visit at' n else {}) ++ s.visitNested at' rest

/-- What the body of an at-rule holds. -/
def visitBody (s : Sheet) (at' : Scope) : List Node → Output
  | [] => {}
  | ⟨kind, _, _, _, _, _, children⟩ :: rest =>
    if kind == "block" then s.visitAll at' children
    else if kind == "keyframe_block_list" then s.visitFrames at' children
    else s.visitBody at' rest

def visitFrames (s : Sheet) (at' : Scope) : List Node → Output
  | [] => {}
  | n :: rest =>
    (if n.kind == "keyframe_block" then s.keyframe at' n else s.visit at' n) ++
      s.visitFrames at' rest

def visitAll (s : Sheet) (at' : Scope) : List Node → Output
  | [] => {}
  | n :: rest => s.visit at' n ++ s.visitAll at' rest

end

end Sheet

/-- Reads a style sheet. A delegated one hangs off the symbol that delegates, without a root. -/
def read (r : Reading) (path : String) : HandlerResult :=
  match r.load path "css" with
  | .error e => r.unreadable path "css" e
  | .ok source =>
    let root := r.readers.css source.text
    let s : Sheet := ⟨path, source.text, LineIndex.ofText source.text, r.count, r.maxTokens "css"⟩
    let top := if r.depth = 0 then
        s.symbol rootSymbol (Path.dottedName source.file.path) "stylesheet" root none
      else {}
    let at' : Scope := ⟨if r.depth = 0 then some rootSymbol else none, none⟩
    (top ++ s.visitAll at' root.children).toResult source

end SourceSlices.Css
