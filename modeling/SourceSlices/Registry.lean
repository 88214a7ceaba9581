import SourceSlices.Chunk
import SourceSlices.Config
import SourceSlices.Error
import SourceSlices.Health
import SourceSlices.Json.Value
import SourceSlices.Text.Path

/-!
The registry: which handler reads a file. Asked in this order: an override for the path, a name
given by the caller, the interpreter line, the suffix; what is left is plain text. A handler found
by interpreter line or suffix must be enabled and in working order, or plain text steps in.
-/
namespace SourceSlices

/-- The languages that are read, and handlers that make something fixed of each file. -/
inductive Handler where
  | text
  | markdown
  | python
  | javascript
  | typescript
  | html
  | css
  | fixed (name version language : String) (read : HandlerFile → HandlerResult)

namespace Handler

def name : Handler → String
  | .text => "text"
  | .markdown => "markdown"
  | .python => "python"
  | .javascript => "javascript"
  | .typescript => "typescript"
  | .html => "html"
  | .css => "css"
  | .fixed name _ _ _ => name

def version : Handler → String
  | .fixed _ version _ _ => version
  | _ => "1.0.0"

end Handler

/-- Result of asking whether a handler can work. -/
structure Probe where
  status : HealthStatus
  summary : String
  warnings : List String := []

def Probe.ok (summary : String) : Probe := ⟨.ok, summary, []⟩

structure Descriptor where
  name : String
  version : String := "1.0.0"
  displayName : String
  extensions : List String := []
  shebangs : List String := []
  handler : Handler
  probe : Option Probe := none

namespace Descriptor

def grammarLoaded (name : String) : Option Probe := some (.ok (name ++ " grammar loaded"))

/-- All languages, plain text first. -/
def defaults : List Descriptor := [
  { name := "text", displayName := "Plain text", handler := .text
    extensions := ["txt", "log", "ini", "toml", "cfg"] },
  { name := "markdown", displayName := "Markdown", handler := .markdown
    extensions := ["md", "markdown", "mdown", "mkdn", "mkd"] },
  { name := "python", displayName := "Python", handler := .python
    extensions := ["py", "pyw", "pyi"], shebangs := ["python", "python3", "python2"]
    probe := grammarLoaded "python" },
  { name := "javascript", displayName := "JavaScript", handler := .javascript
    extensions := ["js", "cjs", "mjs", "jsx"], shebangs := ["node"]
    probe := grammarLoaded "javascript" },
  { name := "typescript", displayName := "TypeScript", handler := .typescript
    extensions := ["ts", "tsx", "cts", "mts"], probe := grammarLoaded "tsx" },
  { name := "html", displayName := "HTML", handler := .html
    extensions := ["html", "htm"], probe := grammarLoaded "html" },
  { name := "css", displayName := "CSS", handler := .css
    extensions := ["css", "scss", "less"], probe := grammarLoaded "css" }]

/-- What the probe says; without one the handler counts as ready. -/
def health (d : Descriptor) : Probe := d.probe.getD (.ok (d.name ++ " ready"))

end Descriptor

/-- The handler chosen for a file, and why. -/
structure Selection where
  name : String
  version : String
  resolvedVia : String
  fallback : Bool
  deriving DecidableEq

structure Availability where
  name : String
  displayName : String
  version : String
  enabled : Bool
  probe : Probe

/-- Interpreter named by a `#!` line, in small letters. -/
def normalizeShebang (line : String) : Option String :=
  match Text.dropPrefix? (Text.trim line.toList) "#!".toList with
  | none => none
  | some body =>
    let basename (word : List Char) : List Char := (word.reverse.takeWhile (· != '/')).reverse
    let isOption (word : List Char) : Bool := word.head? == some '-' || word.contains '='
    let command := match Text.words body with
      | [] => none
      | first :: rest =>
        if basename first = "env".toList then rest.find? (!isOption ·) else some first
    match command.map fun c => Text.asciiLower (basename c) with
    | some name => if name.isEmpty then none else some (String.ofList name)
    | none => none

structure Registry where
  descriptors : List Descriptor
  settings : SortedMap HandlerConfig
  /-- Handler names by path. -/
  overrides : SortedMap String := ∅

namespace Registry

def defaultHandler : String := "text"

/-- First name that has occurred before. -/
def repeated? : List String → List String → Option String
  | _, [] => none
  | seen, n :: rest => if seen.contains n then some n else repeated? (n :: seen) rest

/-- Names must differ, and plain text must be among them. -/
def make (descriptors : List Descriptor) (settings : SortedMap HandlerConfig) :
    Except Error Registry :=
  match repeated? [] (descriptors.map (·.name)) with
  | some name => .error (.config ("duplicate handler name " ++ Text.quoted name))
  | none =>
    if descriptors.any (·.name == defaultHandler) then .ok { descriptors, settings }
    else .error (.config
      ("registry requires a " ++ Text.quoted defaultHandler ++ " handler for fallback"))

def find? (r : Registry) (name : String) : Option Descriptor :=
  r.descriptors.find? (·.name == name)

def contains (r : Registry) (name : String) : Bool := (r.find? name).isSome

/-- Handlers that come first have the suffix or interpreter. -/
def byExtension? (r : Registry) (ext : String) : Option Descriptor :=
  r.descriptors.find? (·.extensions.contains ext)

def byShebang? (r : Registry) (interpreter : String) : Option Descriptor :=
  r.descriptors.find? (·.shebangs.contains interpreter)

def versions (r : Registry) : SortedMap String :=
  SortedMap.ofList (r.descriptors.map fun d => (d.name, d.version))

def isEnabled (r : Registry) (name : String) : Bool :=
  r.contains name && ((r.settings.find? name).getD {}).enabled

/-- Registered, enabled and in working order. -/
def isAvailable (r : Registry) (name : String) : Bool :=
  match r.find? name with
  | some d => r.isEnabled name && d.health.status = .ok
  | none => false

def setOverride (r : Registry) (path name : String) : Except Error Registry :=
  if r.contains name then .ok { r with overrides := r.overrides.insert (Path.key path) name }
  else .error (.unknownHandler name)

def removeOverride (r : Registry) (path : String) : Registry × Option String :=
  ({ r with overrides := r.overrides.erase (Path.key path) }, r.overrides.find? (Path.key path))

def select (d : Descriptor) (via : String) (fallback : Bool) : Selection :=
  ⟨d.name, d.version, via, fallback⟩

/-- Plain text; its own bad health is told instead of the reason. -/
def selectDefault (r : Registry) (via : String) (fallback : Bool) : Selection :=
  match r.find? defaultHandler with
  | none => ⟨defaultHandler, "", via, fallback⟩
  | some d =>
    if d.health.status = .ok then select d via fallback
    else select d ("unhealthy:" ++ d.health.summary) false

def selectChecked (r : Registry) (d : Descriptor) (via : String) : Selection :=
  if !r.isEnabled d.name then r.selectDefault "fallback:disabled" true
  else if d.health.status ≠ .ok then r.selectDefault "fallback:dependency" true
  else select d via false

/-- The handler for an interpreter, which may carry a version. -/
def forInterpreter? (r : Registry) (interpreter : String) : Option Descriptor :=
  match r.byShebang? interpreter with
  | some d => some d
  | none => r.byShebang? (String.ofList
      (Text.trimEndWhere (fun c => c.isDigit || c == '.') interpreter.toList))

def resolveByContent (r : Registry) (path : String) (shebang : Option String) : Selection :=
  let interpreter := shebang.bind normalizeShebang
  match interpreter.bind fun i => (r.forInterpreter? i).map (i, ·) with
  | some (i, d) => r.selectChecked d ("shebang:" ++ i)
  | none =>
    match (Path.extension? path).bind fun e => (r.byExtension? e).map (e, ·) with
    | some (e, d) => r.selectChecked d ("extension:" ++ e)
    | none => r.selectDefault "default" false

def resolve (r : Registry) (path : String) (explicit shebang : Option String) :
    Except Error Selection :=
  match (r.overrides.find? (Path.key path)).bind r.find? with
  | some d => .ok (select d "override" false)
  | none =>
    match explicit with
    | some name =>
      match r.find? name with
      | some d => .ok (select d "explicit" false)
      | none => .error (.unknownHandler name)
    | none => .ok (r.resolveByContent path shebang)

/-- The handler meant by a language tag: a name or a suffix. -/
def delegateFor (r : Registry) (tag : String) : Option String :=
  let tag := String.ofList (Text.asciiLower
    (Text.trimStartWhere (· == '.') (Text.trim tag.toList)))
  if tag = "" then none
  else
    match r.find? tag with
    | some d => some d.name
    | none => (r.byExtension? tag).map (·.name)

def instantiate (r : Registry) (name : String) : Except Error Handler :=
  match r.find? name with
  | some d => .ok d.handler
  | none => .error (.unknownHandler name)

def availability (r : Registry) : List Availability :=
  r.descriptors.map fun d => ⟨d.name, d.displayName, d.version, r.isEnabled d.name, d.health⟩

end Registry

/-! ### Chosen and available handlers as JSON -/

def Selection.toJson (s : Selection) : Json := .obj [
  ("name", .str s.name),
  ("version", .str s.version),
  ("resolved_via", .str s.resolvedVia),
  ("fallback", .bool s.fallback)]

def Availability.toJson (a : Availability) : Json := .obj [
  ("name", .str a.name),
  ("display_name", .str a.displayName),
  ("version", .str a.version),
  ("enabled", .bool a.enabled),
  ("status", .str a.probe.status.name),
  ("summary", .str a.probe.summary),
  ("warnings", Json.strings a.probe.warnings)]

end SourceSlices
