import SourceSlices.Registry
import SourceSlices.Run.Source

/-!
Plans, written batches and finished runs as JSON.
-/
namespace SourceSlices

def PlanEntry.toJson (e : PlanEntry) : Json := .obj [
  ("absolute_path", .str e.path),
  ("relative_path", .str e.relative),
  ("selection", e.selection.toJson),
  ("file_hash", .str e.hash),
  ("shebang", .optStr e.shebang)]

def RunPlan.toJson (p : RunPlan) : Json := .obj [
  ("source", .str p.source),
  ("root", .str p.root),
  ("warnings", Json.strings p.warnings),
  ("errors", Json.strings p.errors),
  ("has_errors", .bool (!p.errors.isEmpty)),
  ("metrics", p.metrics.toJson),
  ("handler_versions", Json.ofMap .str p.handlerVersions),
  ("entries", .arr (p.entries.map PlanEntry.toJson))]

def StageOutcome.toJson (o : StageOutcome) : Json := .obj [
  ("file_id", .int o.fileId),
  ("symbols_written", .nat o.symbolsWritten),
  ("symbols_reused", .nat o.symbolsReused),
  ("chunks_inserted", .nat o.chunksInserted),
  ("chunks_reused", .nat o.chunksReused)]

/-- Files are shown by their paths. -/
def StagedBatch.toJson (b : StagedBatch) : Json := .obj [
  ("files", .arr (b.files.map fun (e, o) => .arr [.str e.relative, o.toJson])),
  ("failures", .arr (b.failures.map fun (path, text) => .arr [.str path, .str text])),
  ("metrics", b.metrics.toJson)]

def RunOutcome.toJson (o : RunOutcome) : Json := .obj [
  ("source", .str o.source),
  ("batch_id", .optStr o.batchId),
  ("record", o.record.toJson),
  ("state", o.state.toJson),
  ("failed_files", Json.strings o.failedFiles)]

end SourceSlices
