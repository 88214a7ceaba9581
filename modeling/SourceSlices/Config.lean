import SourceSlices.Data.SortedMap

/-!
Settings: sources, ignore rules, token caps, handlers and health thresholds.
-/
namespace SourceSlices

/-- Cap on the tokens of a chunk; an automatic one is left to the token counter. -/
inductive TokenLimit where
  | auto
  | limit (n : Nat)
  deriving DecidableEq

/-- Which ignore rules are used on a walk. -/
inductive IgnoreRules where
  | repo
  | workspace
  | combined
  deriving DecidableEq

def IgnoreRules.name : IgnoreRules → String
  | .repo => "repo"
  | .workspace => "workspace"
  | .combined => "combined"

def IgnoreRules.ofName? (s : String) : Option IgnoreRules :=
  [IgnoreRules.repo, .workspace, .combined].find? (·.name == s)

structure HandlerConfig where
  enabled : Bool := true
  /-- Its own cap; without one the general cap counts. -/
  maxTokens : Option TokenLimit := none
  deriving DecidableEq

structure HealthConfig where
  lockWaitWarningSeconds : Float := 5.0
  lockWaitErrorSeconds : Float := 30.0
  lockContentionWarning : Nat := 1
  lockContentionError : Nat := 1

namespace Config

/-- Names of the handlers that are always there. -/
def handlerNames : List String :=
  ["text", "markdown", "python", "javascript", "typescript", "html", "css"]

def defaultPatterns : List String :=
  ["db.sqlite3", "db.sqlite3-journal", "db.sqlite3-shm", "db.sqlite3-wal", "parser.db",
    "parser.db-journal", "manifest.json", "manifest.json.*"]

def defaultHandlers : SortedMap HandlerConfig := SortedMap.ofList (handlerNames.map (·, {}))

end Config

structure Config where
  enabled : Bool := true
  dbPath : String := "./parser.db"
  manifestPath : String := "./manifest.json"
  /-- Root directories by source name. -/
  sources : SortedMap String := ∅
  gitignoreBehavior : IgnoreRules := .combined
  workspaceIgnorePatterns : List String := Config.defaultPatterns
  followSymlinks : Bool := false
  generalMaxTokens : TokenLimit := .limit 2000
  maxConcurrency : Nat := 4
  maxDelegationDepth : Nat := 4
  tokenizerPath : Option String := none
  handlers : SortedMap HandlerConfig := Config.defaultHandlers
  health : HealthConfig := {}

namespace Config

def handler (c : Config) (name : String) : HandlerConfig := (c.handlers.find? name).getD {}

def isHandlerEnabled (c : Config) (name : String) : Bool := (c.handler name).enabled

/-- The cap of a handler before an automatic one is resolved. -/
def handlerMaxTokens (c : Config) (name : String) : TokenLimit :=
  (c.handler name).maxTokens.getD c.generalMaxTokens

/-- Handlers that are not mentioned get their defaults. -/
def fillHandlers (c : Config) : Config :=
  let filled := handlerNames.foldl
    (fun m name => if m.contains name then m else m.insert name {}) c.handlers
  { c with handlers := filled }

end Config

end SourceSlices
