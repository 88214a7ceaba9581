import SourceSlices.Config
import SourceSlices.Json.Record
import SourceSlices.Text.Lines

/-!
Settings from structured data, and back.
-/
namespace SourceSlices.Config

open Json (RecordField record? bool? str? nat? float? list? map? optional?)

/-- A count above zero, or the word `auto`. -/
def tokenLimit? : Json → Option TokenLimit
  | .str w => if Text.asciiLower (Text.trim w.toList) = "auto".toList then some .auto else none
  | v => match nat? v with
    | some n => if n = 0 then none else some (.limit n)
    | none => none

/-- A name, or an object with that name as its only member and nothing behind it. -/
def ignoreRules? (isUnit : Json → Bool) : Json → Option IgnoreRules
  | .str s => IgnoreRules.ofName? s
  | .obj [(name, v)] => if isUnit v then IgnoreRules.ofName? name else none
  | _ => none

def handlerFields : List (RecordField HandlerConfig) := [
  .of "enabled" bool? fun b c => { c with enabled := b },
  .of "max_tokens" (optional? tokenLimit?) fun l c => { c with maxTokens := l }]

def healthFields : List (RecordField HealthConfig) := [
  .of "lock_wait_warning_seconds" float? fun x c => { c with lockWaitWarningSeconds := x },
  .of "lock_wait_error_seconds" float? fun x c => { c with lockWaitErrorSeconds := x },
  .of "lock_contention_warning" nat? fun n c => { c with lockContentionWarning := n },
  .of "lock_contention_error" nat? fun n c => { c with lockContentionError := n }]

def fields (isUnit : Json → Bool) : List (RecordField Config) := [
  .of "enabled" bool? fun b c => { c with enabled := b },
  .of "db_path" str? fun s c => { c with dbPath := s },
  .of "manifest_path" str? fun s c => { c with manifestPath := s },
  .of "sources" (map? str?) fun m c => { c with sources := m },
  .of "gitignore_behavior" (ignoreRules? isUnit) fun r c => { c with gitignoreBehavior := r },
  .of "workspace_ignore_patterns" (list? str?) fun l c => { c with workspaceIgnorePatterns := l },
  .of "follow_symlinks" bool? fun b c => { c with followSymlinks := b },
  .of "general_max_tokens" tokenLimit? fun l c => { c with generalMaxTokens := l },
  .of "max_concurrency" nat? fun n c => { c with maxConcurrency := n },
  .of "max_delegation_depth" nat? fun n c => { c with maxDelegationDepth := n },
  .of "tokenizer_path" (optional? str?) fun s c => { c with tokenizerPath := s },
  .of "handlers" (map? (record? handlerFields {})) fun m c => { c with handlers := m },
  .of "health" (record? healthFields {}) fun h c => { c with health := h }]

def isNull : Json → Bool
  | .null => true
  | _ => false

/-- Settings from data, in which a name without a value stands before what `isUnit` accepts. -/
def ofData? (isUnit : Json → Bool) (v : Json) : Option Config :=
  (record? (fields isUnit) {} v).map fillHandlers

def ofJson? (text : String) : Option Config :=
  match Json.read text with
  | .ok v => ofData? isNull v
  | .error _ => none

def limitJson : TokenLimit → Json
  | .auto => .str "auto"
  | .limit n => .nat n

def handlerJson (h : HandlerConfig) : Json :=
  .obj (("enabled", .bool h.enabled) :: match h.maxTokens with
    | some l => [("max_tokens", limitJson l)]
    | none => [])

def toJson (c : Config) : Json :=
  .obj <| [
    ("enabled", .bool c.enabled),
    ("db_path", .str c.dbPath),
    ("manifest_path", .str c.manifestPath),
    ("sources", Json.ofMap .str c.sources),
    ("gitignore_behavior", .str c.gitignoreBehavior.name),
    ("workspace_ignore_patterns", Json.strings c.workspaceIgnorePatterns),
    ("follow_symlinks", .bool c.followSymlinks),
    ("general_max_tokens", limitJson c.generalMaxTokens),
    ("max_concurrency", .nat c.maxConcurrency),
    ("max_delegation_depth", .nat c.maxDelegationDepth)] ++
    (match c.tokenizerPath with
      | some p => [("tokenizer_path", .str p)]
      | none => []) ++ [
    ("handlers", Json.ofMap handlerJson c.handlers),
    ("health", .obj [
      ("lock_wait_warning_seconds", .float c.health.lockWaitWarningSeconds),
      ("lock_wait_error_seconds", .float c.health.lockWaitErrorSeconds),
      ("lock_contention_warning", .nat c.health.lockContentionWarning),
      ("lock_contention_error", .nat c.health.lockContentionError)])]

/-- What is wrong with the settings as a whole. -/
def complaint? (c : Config) : Option String :=
  if c.maxConcurrency = 0 then some "max_concurrency must be positive"
  else if c.maxDelegationDepth = 0 then some "max_delegation_depth must be positive"
  else if !(c.health.lockWaitWarningSeconds ≤ c.health.lockWaitErrorSeconds) then
    some "lock_wait_warning_seconds must not exceed lock_wait_error_seconds"
  else if c.health.lockContentionError < c.health.lockContentionWarning then
    some "lock_contention_warning must not exceed lock_contention_error"
  else none

end SourceSlices.Config
