import SourceSlices.Reading

/-!
Delegation: a part of a text is handed to the handler of another language. The part itself becomes
a chunk; what the other handler finds follows it, under ids that begin with the id of that chunk.
-/
namespace SourceSlices.Delegation

inductive Status where
  | delegated
  | unavailable
  | depthLimit
  | failed
  deriving DecidableEq

def Status.name : Status → String
  | .delegated => "delegated"
  | .unavailable => "unavailable"
  | .depthLimit => "depth_limit"
  | .failed => "failed"

/-- The part that is handed over; offsets count in the text it comes from. -/
structure Request where
  delegate : String
  parentHandler : String
  /-- What the part is there. -/
  component : Option String := none
  marker : Option String := none
  text : List Char
  startOffset : Nat
  endOffset : Nat
  startLine : Nat
  parentSymbol : Option String := none
  parentChunk : Option String := none
  metadata : Metadata := Metadata.empty

structure Outcome where
  status : Status
  output : Output

def present (o : Option String) : Option String := o.filter (· ≠ "")

def chunkId (delegate parentHandler : String) (component : Option String) (start stop : Nat)
    (marker : Option String) : String :=
  let component := match present component with
    | some c => ":" ++ String.ofList (Text.replaceChar ':' '-' c.toList)
    | none => ""
  let marker := match present marker with
    | some m => ":" ++ m
    | none => ""
  delegate ++ ":delegate:" ++ parentHandler ++ component ++ ":" ++ toString start ++ ":" ++
    toString stop ++ marker

def putSome (m : Metadata) (key : String) : Option String → Metadata
  | some v => m.putStr key v
  | none => m

/-- The keys that link a delegated chunk to where it comes from. -/
def linkage (delegate parentHandler : String) (parentSymbol parentChunk : Option String)
    (extra : List (String × Option String)) : Metadata :=
  let m := (Metadata.empty.putStr "handler" delegate).putStr "delegate_parent_handler" parentHandler
  let m := putSome m "delegate_parent_symbol" parentSymbol
  let m := putSome m "delegate_parent_chunk" parentChunk
  extra.foldl (fun m e => putSome m e.1 e.2) m

def lineKeys : List String := ["start_line", "end_line", "line"]

/-- Moves the line numbers down; a sum beyond 64 bits cannot arise from a text. -/
def shiftLines (by' : Nat) (m : Metadata) : Metadata :=
  if by' = 0 then m
  else lineKeys.foldl (fun m key =>
    match m.int? key with
    | some line => m.put key (.int (line + by'))
    | none => m) m

def Request.id (q : Request) : String :=
  chunkId q.delegate q.parentHandler q.component q.startOffset q.endOffset q.marker

/-- The chunk for the part itself. -/
def Request.shell (q : Request) : Chunk :=
  let lastLine := (LineIndex.ofText q.text).span 0 (Text.byteLength q.text)
  let m : Metadata := q.metadata.union
    (linkage q.delegate q.parentHandler q.parentSymbol q.parentChunk [])
  { chunkId := q.id
    text := String.ofList q.text
    startOffset := q.startOffset
    endOffset := q.endOffset
    parentSymbolId := q.parentSymbol
    delegate := some q.delegate
    metadata := (m.putNat "start_line" q.startLine).putNat "end_line" (q.startLine + lastLine.2 - 1) }

/-- Keeps the part as an ordinary chunk. -/
def keepPlain (r : Reading) (q : Request) (status : Status) (warning : String) : Outcome :=
  let shell := q.shell
  let chunk := { shell with
    delegate := none
    metadata := Metadata.putStr (shell.metadata.erase "handler") "delegate_status" status.name }
  ⟨status, { chunks := Split.chunk r.count (r.maxTokens q.parentHandler) none chunk
             warnings := [warning] }⟩

def putHandler (delegate : String) (m : Metadata) : Metadata :=
  if m.contains "handler" then m else m.putStr "handler" delegate

/-- A symbol of the other handler, taken over. -/
def adoptSymbol (q : Request) (ns : String → String) (shift : Nat) (s : Symbol) : Symbol :=
  { s with
    symbolId := ns s.symbolId
    parentId := match s.parentId with
      | some p => some (ns p)
      | none => q.parentSymbol
    metadata := putHandler q.delegate (shiftLines shift s.metadata) }

def relink (q : Request) (ns : String → String) (parentSymbol : Option String) (m : Metadata) :
    Metadata :=
  match m.str? "delegate_parent_chunk" with
  | some parent =>
    let m := m.putStr "delegate_parent_chunk" (ns parent)
    putSome m "delegate_parent_symbol" ((m.str? "delegate_parent_symbol").map ns)
  | none =>
    let m := (m.putStr "delegate_parent_chunk" q.id).putStr "delegate_parent_handler" q.delegate
    putSome m "delegate_parent_symbol" parentSymbol

/-- A chunk of the other handler, taken over. -/
def adoptChunk (q : Request) (ns : String → String) (shift : Nat) (c : Chunk) : Chunk :=
  let parentSymbol := match c.parentSymbolId with
    | some p => some (ns p)
    | none => q.parentSymbol
  { c with
    chunkId := ns c.chunkId
    parentSymbolId := parentSymbol
    metadata := shiftLines shift (putHandler q.delegate (relink q ns parentSymbol c.metadata)) }

/-- Joins the chunk of the part with what the other handler made of it. -/
def merge (r : Reading) (q : Request) (result : HandlerResult) : Output :=
  let ns (id : String) : String := q.id ++ "/" ++ id
  let shift := q.startLine - 1
  { symbols := result.symbols.map (adoptSymbol q ns shift)
    chunks := Split.chunk r.count (r.maxTokens q.parentHandler) none q.shell ++
      result.chunks.map (adoptChunk q ns shift)
    warnings := result.warnings }

/-- Hands a part over; whatever stands against that keeps the part as a plain chunk. -/
def delegate (read : ReadSource) (r : Reading) (path : String) (q : Request) : Outcome :=
  if !r.registry.isAvailable q.delegate then
    keepPlain r q .unavailable ("delegate " ++ q.delegate ++ " unavailable for " ++ q.id)
  else if r.config.maxDelegationDepth ≤ r.depth then
    keepPlain r q .depthLimit ("delegation depth limit (" ++ toString r.config.maxDelegationDepth ++
      ") reached for " ++ q.id)
  else
    match r.registry.instantiate q.delegate with
    | .error e =>
      keepPlain r q .failed ("delegate " ++ q.delegate ++ " failed for " ++ q.id ++ ": " ++ e.message)
    | .ok handler =>
      let result := read handler (r.delegated q.text) path
      if result.errors.isEmpty then ⟨.delegated, merge r q result⟩
      else keepPlain r q .failed ("delegate " ++ q.delegate ++ " failed for " ++ q.id ++ ": " ++
        String.intercalate "; " result.errors)

end SourceSlices.Delegation
