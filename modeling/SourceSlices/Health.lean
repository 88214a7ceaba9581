/-!
Severity of findings about handlers, runs and stored data.
-/
namespace SourceSlices

/-- In ascending severity. -/
inductive HealthStatus where
  | ok
  | unknown
  | degraded
  | error
  deriving DecidableEq, Repr

namespace HealthStatus

def rank : HealthStatus → Nat
  | .ok => 0
  | .unknown => 1
  | .degraded => 2
  | .error => 3

instance : LT HealthStatus := ⟨fun a b => a.rank < b.rank⟩
instance (a b : HealthStatus) : Decidable (a < b) := Nat.decLt a.rank b.rank

def name : HealthStatus → String
  | .ok => "ok"
  | .unknown => "unknown"
  | .degraded => "degraded"
  | .error => "error"

def ofName? (s : String) : Option HealthStatus :=
  [HealthStatus.ok, .unknown, .degraded, .error].find? (·.name == s)

/-- The more severe of two. -/
def worse (a b : HealthStatus) : HealthStatus := if a < b then b else a

end HealthStatus

/-- Fills a text with blanks on the right up to a width. -/
def padRight (width : Nat) (s : String) : String :=
  s ++ String.ofList (List.replicate (width - s.length) ' ')

def padLeft (width : Nat) (s : String) : String :=
  String.ofList (List.replicate (width - s.length) ' ') ++ s

end SourceSlices
