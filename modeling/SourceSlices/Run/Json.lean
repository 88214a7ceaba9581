import SourceSlices.Json.Record
import SourceSlices.Run.Record
import SourceSlices.Store.Json

/-!
Records of runs and reports as JSON, and back.
-/
namespace SourceSlices

open Json (RecordField record? bool? str? nat? float? list? map? optional?)

/-- A name, or an object with that name as its only member and null behind it. -/
def HealthStatus.ofJson? : Json → Option HealthStatus
  | .str s => ofName? s
  | .obj [(name, .null)] => ofName? name
  | _ => none

def HealthStatus.toJson (s : HealthStatus) : Json := .str s.name

namespace RunMetrics

def fields : List (RecordField RunMetrics) := [
  .of "files_discovered" nat? fun n m => { m with filesDiscovered := n },
  .of "files_parsed" nat? fun n m => { m with filesParsed := n },
  .of "files_reused" nat? fun n m => { m with filesReused := n },
  .of "files_failed" nat? fun n m => { m with filesFailed := n },
  .of "chunks_emitted" nat? fun n m => { m with chunksEmitted := n },
  .of "chunks_reused" nat? fun n m => { m with chunksReused := n },
  .of "fallbacks" nat? fun n m => { m with fallbacks := n },
  .of "queue_depth" nat? fun n m => { m with queueDepth := n },
  .of "handlers_invoked" (map? nat?) fun h m => { m with handlersInvoked := h },
  .of "handler_runtime_seconds" (map? float?) fun h m => { m with handlerRuntimeSeconds := h },
  .of "lock_wait_seconds" float? fun x m => { m with lockWaitSeconds := x },
  .of "lock_contention_events" nat? fun n m => { m with lockContentionEvents := n }]

def ofJson? (v : Json) : Option RunMetrics := record? fields {} v

def toJson (m : RunMetrics) : Json := .obj [
  ("files_discovered", .nat m.filesDiscovered),
  ("files_parsed", .nat m.filesParsed),
  ("files_reused", .nat m.filesReused),
  ("files_failed", .nat m.filesFailed),
  ("chunks_emitted", .nat m.chunksEmitted),
  ("chunks_reused", .nat m.chunksReused),
  ("fallbacks", .nat m.fallbacks),
  ("queue_depth", .nat m.queueDepth),
  ("handlers_invoked", Json.ofMap .nat m.handlersInvoked),
  ("handler_runtime_seconds", Json.ofMap .float m.handlerRuntimeSeconds),
  ("lock_wait_seconds", .float m.lockWaitSeconds),
  ("lock_contention_events", .nat m.lockContentionEvents)]

end RunMetrics

namespace RunState

def fields : List (RecordField RunState) := [
  .of "enabled" bool? fun b s => { s with enabled := b },
  .of "last_batch_id" (optional? str?) fun x s => { s with lastBatchId := x },
  .of "last_run_started_at" (optional? Instant.ofJson?) fun x s => { s with lastRunStartedAt := x },
  .of "last_run_completed_at" (optional? Instant.ofJson?) fun x s => { s with lastRunCompletedAt := x },
  .of "last_run_status" HealthStatus.ofJson? fun x s => { s with lastRunStatus := x },
  .of "last_run_summary" (optional? str?) fun x s => { s with lastRunSummary := x },
  .of "last_run_warnings" (list? str?) fun x s => { s with lastRunWarnings := x },
  .of "last_run_errors" (list? str?) fun x s => { s with lastRunErrors := x },
  .of "last_run_notes" (list? str?) fun x s => { s with lastRunNotes := x },
  .of "handler_versions" (map? str?) fun x s => { s with handlerVersions := x },
  .of "metrics" RunMetrics.ofJson? fun x s => { s with metrics := x }]

def ofJson? (v : Json) : Option RunState := record? fields {} v

def toJson (s : RunState) : Json := .obj [
  ("enabled", .bool s.enabled),
  ("last_batch_id", .optStr s.lastBatchId),
  ("last_run_started_at", .ofOption Instant.toJson s.lastRunStartedAt),
  ("last_run_completed_at", .ofOption Instant.toJson s.lastRunCompletedAt),
  ("last_run_status", s.lastRunStatus.toJson),
  ("last_run_summary", .optStr s.lastRunSummary),
  ("last_run_warnings", Json.strings s.lastRunWarnings),
  ("last_run_errors", Json.strings s.lastRunErrors),
  ("last_run_notes", Json.strings s.lastRunNotes),
  ("handler_versions", Json.ofMap .str s.handlerVersions),
  ("metrics", s.metrics.toJson)]

end RunState

def RunRecord.toJson (r : RunRecord) : Json := .obj [
  ("batch_id", .optStr r.batchId),
  ("started_at", r.startedAt.toJson),
  ("completed_at", .ofOption Instant.toJson r.completedAt),
  ("status", r.status.toJson),
  ("summary", .optStr r.summary),
  ("warnings", Json.strings r.warnings),
  ("errors", Json.strings r.errors),
  ("notes", Json.strings r.notes),
  ("handler_versions", Json.ofMap .str r.handlerVersions),
  ("metrics", r.metrics.toJson)]

def HealthReport.toJson (r : HealthReport) : Json := .obj [
  ("name", .str r.name),
  ("status", r.status.toJson),
  ("summary", .optStr r.summary),
  ("actions", Json.strings r.actions),
  ("last_refresh_at", .ofOption Instant.toJson r.lastRefreshAt)]

end SourceSlices
