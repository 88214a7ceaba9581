import SourceSlices.CommandLine.Arguments
import SourceSlices.Grammars
import SourceSlices.Run.Source
import SourceSlices.Store.File

/-!
What a command prints, and how it changes the files.
-/
namespace SourceSlices

structure Reply where
  code : Nat := 0
  stdout : String := ""
  stderr : String := ""
  deriving DecidableEq

/-- A message and the messages of its causes, the outermost first. -/
abbrev Trouble := List String

namespace Trouble

def ofStoreFault (e : StoreFault) : Trouble :=
  e.message :: match e with
    | .cannotOpen _ => ["Error code 14: Unable to open the database file"]
    | .notDatabase => ["Error code 26: File opened that is not a database file"]
    | .foreignKey => ["Error code 787: Abort due to constraint violation"]
    | _ => []

def ofError (e : Error) : Trouble :=
  e.message :: match e with
    | .io _ fault => [fault.message]
    | .database fault => ofStoreFault fault
    | .json detail => [detail]
    | _ => []

def ofConfigFault (e : ConfigFault) : Trouble :=
  e.message :: match e with
    | .unreadable _ fault => [fault.message]
    | .unwritable _ fault => [fault.message]
    | _ => ["not valid settings"]

/-- A message whose further lines are indented like its first. -/
def indented (first more message : String) : String :=
  first ++ String.intercalate ("\n" ++ more)
    ((Text.splitOn '\n' message.toList).map String.ofList)

/-- Causes stand below the message, with numbers if there are several. -/
def text : Trouble → String
  | [] => "Error: \n"
  | [message] => "Error: " ++ message ++ "\n"
  | [message, cause] => "Error: " ++ message ++ "\n\nCaused by:\n" ++ indented "    " "    " cause ++ "\n"
  | message :: causes =>
    "Error: " ++ message ++ "\n\nCaused by:" ++
      String.join (causes.zipIdx.map fun (cause, i) =>
        "\n" ++ indented (padLeft 5 (toString i) ++ ": ") "       " cause) ++ "\n"

def reply (t : Trouble) (before : String) : Reply := { code := 1, stderr := before ++ t.text }

end Trouble

namespace CommandLine

def versionText : String := "chunkloom 0.3.0\n"

def usageText : String :=
  "Usage: chunkloom [--config <CONFIG>] <parse|health|delete-batch|handlers>\n"

def handlerLine (a : Availability) : String :=
  padRight 12 a.name ++ " " ++ padRight 8 a.version ++ " " ++ padRight 9 a.probe.status.name ++ " " ++
    a.probe.summary ++ (if a.enabled then "" else " (disabled)") ++ "\n"

def messageLines (r : RunRecord) : String :=
  String.join (r.warnings.map fun w => "warning: " ++ w ++ "\n") ++
    String.join (r.errors.map fun e => "error: " ++ e ++ "\n")

/-- Carries out a command with everything set up. -/
def perform (r : Runner) (w : Workspace) (now : Instant) (fresh : String) :
    Command → Workspace × Reply
  | .parse source batch paths =>
    match r.run w now fresh source paths batch with
    | (w, .error e) =>
      (w, Trouble.reply (("parse of " ++ source ++ " failed") :: Trouble.ofError e) "")
    | (w, .ok outcome) =>
      let said := messageLines outcome.record
      if outcome.record.status = .error then
        (w, Trouble.reply ["parser run for " ++ source ++ " finished with errors"] said)
      else (w, { stderr := said })
  | .health =>
    let reports := r.checkHealth w.tree (some w.store)
    (w, { stdout := (Json.arr (reports.map HealthReport.toJson)).pretty ++ "\n" })
  | .deleteBatch source batch =>
    match r.deleteBatch w.store source batch with
    | .error e => (w, Trouble.reply (Trouble.ofError e) "")
    | .ok (store, removed) =>
      ({ w with store },
        { stdout := "removed " ++ toString removed ++ " chunk slices from batch " ++ batch ++ "\n" })
  | .handlers => (w, { stdout := String.join (r.registry.availability.map handlerLine) })

/-- Carries out a command with these settings; the store is read before and written after it. -/
def performWith (c : Config) (t : FileTree) (now : Instant) (fresh : String) (command : Command) :
    FileTree × Reply :=
  match c.complaint? with
  | some text => (t, Trouble.reply [text] "")
  | none =>
    match Store.load t c.dbPath now with
    | .error e => (t, Trouble.reply ("Failed to open database" :: Trouble.ofStoreFault e) "")
    | .ok (t, store) =>
      match Runner.make c Descriptor.defaults grammars c.manifestPath t with
      | .error e => (t, Trouble.reply ("Failed to build parser service" :: Trouble.ofError e) "")
      | .ok r =>
        let (w, reply) := perform r ⟨t, store⟩ now fresh command
        (if w.store = store then w.tree else w.store.save w.tree c.dbPath now, reply)

/-- Carries out what the words of a command line ask for. -/
def run (t : FileTree) (now : Instant) (fresh : String) (words : List String) : FileTree × Reply :=
  match ofWords words with
  | .misuse => (t, { code := 2, stderr := usageText })
  | .help => (t, { stdout := usageText })
  | .version => (t, { stdout := versionText })
  | .run line =>
    match Config.load t line.configPath with
    | .error e => (t, Trouble.reply (Trouble.ofConfigFault e) "")
    | .ok c => performWith c t now fresh line.command

end CommandLine

end SourceSlices
