import SourceSlices.Languages
import SourceSlices.Run.Record
import SourceSlices.Tokens.Encoder
import SourceSlices.Traversal.Walk

/-!
The plan of a run: which files of a source are read, and by which handlers.
-/
namespace SourceSlices

structure PlanEntry where
  path : String
  /-- Path below the root of the source. -/
  relative : String
  selection : Selection
  /-- Digest of the content, with the version of the handler and the path as salts. -/
  hash : String
  shebang : Option String
  deriving DecidableEq

structure RunPlan where
  source : String
  root : String
  entries : List PlanEntry := []
  warnings : List String := []
  errors : List String := []
  metrics : RunMetrics := {}
  handlerVersions : SortedMap String := ∅

/-- A planned file with what its handler made of it. -/
abbrev ReadResult := PlanEntry × HandlerResult

/-- Settings with all that runs need to know about handlers and tokens. -/
structure Runner where
  config : Config
  registry : Registry
  encoder : Encoder
  readers : Readers
  manifestPath : String

/-- Each message once, in the order of first mention; empty ones are dropped. -/
def distinctMessages (messages : List String) : List String := (messages.filter (· ≠ "")).eraseDups

namespace Runner

def make (config : Config) (descriptors : List Descriptor) (readers : Readers) (manifestPath : String)
    (t : FileTree) : Except Error Runner := do
  let registry ← Registry.make descriptors config.handlers
  let encoder ← Encoder.ofConfig config t.exists?
  .ok { config, registry, encoder, readers, manifestPath }

def sourceRoot (r : Runner) (source : String) : Except Error String :=
  match r.config.sources.find? source with
  | some root => .ok root
  | none => .error (.sourceNotConfigured source)

/-- Bytes that are looked at for an interpreter line. -/
def sniffed : Nat := 256

/-- The first line of a file if it begins with `#!`. -/
def shebangOf (bytes : List UInt8) : Option String :=
  let line := (bytes.take sniffed).takeWhile (· ≠ 10)
  if (Text.encodeUtf8 "#!").isPrefixOf line then
    some (String.ofList (Text.trim (Text.decodeLossy line).toList))
  else none

/-- One warning for each enabled handler that does not work. -/
def degradedWarnings (r : Runner) : List String :=
  (r.registry.availability.filter fun a => a.enabled && a.probe.status ≠ .ok).map fun a =>
    "Handler " ++ a.name ++ " degraded: " ++ a.probe.summary

def addError (p : RunPlan) (message : String) : RunPlan :=
  { p with
    errors := p.errors ++ [message]
    metrics := { p.metrics with filesFailed := p.metrics.filesFailed + 1 } }

def addFallback (p : RunPlan) (display : String) (s : Selection) : RunPlan :=
  if s.fallback then
    { p with
      warnings := p.warnings ++
        ["Fallback to " ++ s.name ++ " for " ++ display ++ " via " ++ s.resolvedVia]
      metrics := p.metrics.addFallback }
  else p

def addEntry (p : RunPlan) (e : PlanEntry) : RunPlan :=
  { p with
    entries := p.entries ++ [e]
    metrics :=
      { p.metrics with filesParsed := p.metrics.filesParsed + 1 }.countHandler e.selection.name }

/-- The path as it is shown and hashed. -/
def displayPath (relative : String) : String :=
  String.ofList (Text.replaceChar '\\' '/' relative.toList)

def planFile (r : Runner) (t : FileTree) (p : RunPlan) (f : FoundFile) : RunPlan :=
  let p := { p with metrics := { p.metrics with filesDiscovered := p.metrics.filesDiscovered + 1 } }
  let display := displayPath f.relative
  let content := t.read f.path
  let shebang := content.toOption.bind shebangOf
  match r.registry.resolve f.path none shebang with
  | .error e => addError p ("No handler available for " ++ display ++ ": " ++ e.message)
  | .ok selection =>
    let p := addFallback p display selection
    match content with
    | .error fault =>
      addError p ("Failed to hash " ++ display ++ ": " ++ (Error.io f.path fault).message)
    | .ok bytes =>
      addEntry p ⟨f.path, f.relative, selection,
        Hashing.hashBytes bytes selection.version [display], shebang⟩

/-- Finds the files of a source and chooses a handler for each. -/
def plan (r : Runner) (t : FileTree) (source : String) (scope : List String) :
    Except Error RunPlan := do
  if !r.config.enabled then .error .moduleDisabled
  else
    let root ← r.sourceRoot source
    let walk ← Traversal.make t root r.config.gitignoreBehavior r.config.workspaceIgnorePatterns
      r.config.followSymlinks
    let p : RunPlan :=
      { source, root := FileTree.pathText walk.root, warnings := r.degradedWarnings
        handlerVersions := r.registry.versions }
    let p := (walk.files t scope).foldl (r.planFile t) p
    .ok { p with
      warnings := distinctMessages p.warnings
      errors := distinctMessages p.errors
      metrics := { p.metrics with queueDepth := p.entries.length } }

/-! ### Reading the planned files -/

def readEntry (r : Runner) (t : FileTree) (root : String) (e : PlanEntry) : HandlerResult :=
  let reading : Reading :=
    { root, config := r.config, count := r.encoder.count, autoBudget := r.encoder.defaultBudget
      registry := r.registry, readers := r.readers, disk := t.read }
  match r.registry.instantiate e.selection.name with
  | .ok handler => readSource handler reading e.path
  | .error fault => reading.unreadable e.path e.selection.name fault

/-- Reads all files of a plan, in its order. -/
def readPlan (r : Runner) (t : FileTree) (p : RunPlan) : List ReadResult :=
  p.entries.map fun e => (e, r.readEntry t p.root e)

/-- Counts for each file the time that its handler took; here no time passes. -/
def timed (p : RunPlan) : RunPlan :=
  { p with metrics := p.entries.foldl (fun m e => m.addRuntime e.selection.name 0.0) p.metrics }

end Runner

end SourceSlices
