import SourceSlices.Yaml.Token

/-!
The nodes of a YAML document as a flat list of events.
-/
namespace SourceSlices.Yaml

/-- Anchor and tag in front of a node. -/
structure Mark where
  anchor : Option (List Char) := none
  tag : Option (List Char) := none
  deriving DecidableEq

inductive Event where
  | reference (name : List Char)
  | scalar (mark : Mark) (text : List Char) (plain : Bool)
  | sequenceStart (mark : Mark)
  | sequenceEnd
  | mappingStart (mark : Mark)
  | mappingEnd
  deriving DecidableEq

/-- What is expected next inside a collection. -/
inductive Expected where
  | blockEntry
  | indentlessEntry
  | blockKey
  | blockValue
  | flowEntry (first : Bool)
  | pairKey
  | pairValue
  | pairEnd
  | flowKey (first : Bool)
  | flowValue
  | flowNoValue

structure Document where
  tokens : List Token
  /-- Innermost first. -/
  expected : List Expected := []
  /-- Expansions of tag handles. -/
  handles : List (List Char × List Char)
  /-- Latest first. -/
  events : List Event := []

namespace Document

def emit (d : Document) (e : Event) : Document := { d with events := e :: d.events }

def expect (d : Document) (e : Expected) : Document := { d with expected := e :: d.expected }

def skip (d : Document) : Document := { d with tokens := d.tokens.drop 1 }

def next (d : Document) : Token := d.tokens.head?.getD .streamEnd

/-- A node that is not written. -/
def emitEmpty (d : Document) : Document := d.emit (.scalar {} [] true)

def expand (d : Document) (handle suffix : List Char) : Option (List Char) :=
  if handle.isEmpty then some suffix
  else (d.handles.find? (·.1 == handle)).map fun h => h.2 ++ suffix

/-- Anchor and tag before a node, in either order. -/
def mark (d : Document) : Option (Mark × Document) :=
  match d.tokens with
  | .anchor name :: .tag handle suffix :: rest =>
    (d.expand handle suffix).map fun tag => (⟨some name, some tag⟩, { d with tokens := rest })
  | .anchor name :: rest => some (⟨some name, none⟩, { d with tokens := rest })
  | .tag handle suffix :: .anchor name :: rest =>
    (d.expand handle suffix).map fun tag => (⟨some name, some tag⟩, { d with tokens := rest })
  | .tag handle suffix :: rest =>
    (d.expand handle suffix).map fun tag => (⟨none, some tag⟩, { d with tokens := rest })
  | _ => some ({}, d)

/-- The tag of a written scalar; a lone exclamation mark only says that there is none. -/
def scalar (m : Mark) (text : List Char) (plain : Bool) : Event :=
  if m.tag = some ['!'] then .scalar { m with tag := none } text plain else .scalar m text plain

/-- A node, or the start of a collection. -/
def node (d : Document) (block indentless : Bool) : Option Document :=
  match d.tokens with
  | .reference name :: _ => some (d.skip.emit (.reference name))
  | _ => do
    let (m, d) ← d.mark
    match d.next with
    | .blockEntry =>
      if indentless then some ((d.emit (.sequenceStart m)).expect .indentlessEntry)
      else if m = {} then none else some (d.emit (.scalar m [] true))
    | .scalar text plain => some (d.skip.emit (scalar m text plain))
    | .flowSequenceStart => some ((d.skip.emit (.sequenceStart m)).expect (.flowEntry true))
    | .flowMappingStart => some ((d.skip.emit (.mappingStart m)).expect (.flowKey true))
    | .blockSequenceStart =>
      if block then some ((d.skip.emit (.sequenceStart m)).expect .blockEntry)
      else if m = {} then none else some (d.emit (.scalar m [] true))
    | .blockMappingStart =>
      if block then some ((d.skip.emit (.mappingStart m)).expect .blockKey)
      else if m = {} then none else some (d.emit (.scalar m [] true))
    | _ => if m = {} then none else some (d.emit (.scalar m [] true))

/-- A node, or an empty one if one of these tokens comes next. -/
def nodeUnless (d : Document) (ends : List Token) (block indentless : Bool) : Option Document :=
  if ends.contains d.next then some d.emitEmpty else d.node block indentless

/-- The next part of a flow sequence behind its separator. -/
def flowItem (d : Document) : Option Document :=
  match d.next with
  | .key => some ((d.skip.emit (.mappingStart {})).expect .pairKey)
  | .flowSequenceEnd => some (d.skip.emit .sequenceEnd)
  | _ => (d.expect (.flowEntry false)).node false false

/-- The next part of a flow mapping behind its separator. -/
def flowMember (d : Document) : Option Document :=
  match d.next with
  | .key => (d.skip.expect .flowValue).nodeUnless [.value, .flowEntry, .flowMappingEnd] false false
  | .flowMappingEnd => some (d.skip.emit .mappingEnd)
  | _ => (d.expect .flowNoValue).node false false

/-- One step of what is expected, which has been taken off already. -/
def step (d : Document) : Expected → Option Document
  | .blockEntry =>
    match d.next with
    | .blockEntry => (d.skip.expect .blockEntry).nodeUnless [.blockEntry, .blockEnd] true false
    | .blockEnd => some (d.skip.emit .sequenceEnd)
    | _ => none
  | .indentlessEntry =>
    match d.next with
    | .blockEntry =>
      (d.skip.expect .indentlessEntry).nodeUnless [.blockEntry, .key, .value, .blockEnd] true false
    | _ => some (d.emit .sequenceEnd)
  | .blockKey =>
    match d.next with
    | .key => (d.skip.expect .blockValue).nodeUnless [.key, .value, .blockEnd] true true
    | .blockEnd => some (d.skip.emit .mappingEnd)
    | _ => none
  | .blockValue =>
    match d.next with
    | .value => (d.skip.expect .blockKey).nodeUnless [.key, .value, .blockEnd] true true
    | _ => some (d.expect .blockKey).emitEmpty
  | .flowEntry first =>
    if first || d.next = .flowSequenceEnd then d.flowItem
    else if d.next = .flowEntry then d.skip.flowItem
    else none
  | .pairKey =>
    let d := d.expect .pairValue
    if [Token.value, .flowEntry, .flowSequenceEnd].contains d.next then some d.skip.emitEmpty
    else d.node false false
  | .pairValue =>
    let d := d.expect .pairEnd
    match d.next with
    | .value => d.skip.nodeUnless [.flowEntry, .flowSequenceEnd] false false
    | _ => some d.emitEmpty
  | .pairEnd => some ((d.emit .mappingEnd).expect (.flowEntry false))
  | .flowKey first =>
    if first || d.next = .flowMappingEnd then d.flowMember
    else if d.next = .flowEntry then d.skip.flowMember
    else none
  | .flowValue =>
    let d := d.expect (.flowKey false)
    match d.next with
    | .value => d.skip.nodeUnless [.flowEntry, .flowMappingEnd] false false
    | _ => some d.emitEmpty
  | .flowNoValue => some (d.expect (.flowKey false)).emitEmpty

def run : Nat → Document → Option Document
  | 0, _ => none
  | fuel + 1, d =>
    match d.expected with
    | [] => some d
    | e :: rest => (({ d with expected := rest }).step e).bind (run fuel)

end Document

def defaultHandles : List (List Char × List Char) :=
  [(['!'], ['!']), (['!', '!'], "tag:yaml.org,2002:".toList)]

/-- Directives before a document: whether a version was given, and the handles declared. -/
def directives : List Token → Bool → List (List Char × List Char) →
    Option (List (List Char × List Char) × List Token)
  | .versionDirective major minor :: rest, versioned, handles =>
    if versioned || major ≠ 1 || (minor ≠ 1 && minor ≠ 2) then none else directives rest true handles
  | .tagDirective handle expansion :: rest, versioned, handles =>
    if handles.any (·.1 == handle) then none
    else directives rest versioned (handles ++ [(handle, expansion)])
  | tokens, _, handles => some (handles ++ defaultHandles, tokens)

/-- Whether no second document follows. -/
def endsStream : List Token → Bool
  | .documentEnd :: rest => endsStream rest
  | [.streamEnd] => true
  | _ => false

/-- The rest of a document whose first event has been made. -/
def Document.finish (d : Document) : Option (List Event) := do
  let d ← d.run (4 * d.tokens.length + 8)
  if endsStream d.tokens then some d.events.reverse else none

/-- The events of a document behind its start mark. -/
def Document.content (d : Document) : Option (List Event) :=
  match d.next with
  | .versionDirective .. | .tagDirective .. | .documentStart | .documentEnd | .streamEnd =>
    d.emitEmpty.finish
  | _ => (d.node true false).bind finish

/-- The events of a stream of at most one document. -/
def events? (tokens : List Token) : Option (List Event) := do
  let (handles, rest) ← directives tokens false []
  match rest with
  | .documentStart :: rest => ({ tokens := rest, handles } : Document).content
  | _ =>
    if rest.length < tokens.length then none
    else if rest = [.streamEnd] then some []
    else (({ tokens, handles } : Document).node true false).bind Document.finish

end SourceSlices.Yaml
