import SourceSlices.Css.Rules
import SourceSlices.Html.Elements
import SourceSlices.Markdown.Sections
import SourceSlices.Plain.Blocks
import SourceSlices.Python.Definitions
import SourceSlices.Script.Declarations

/-!
All handlers together. They call each other through delegation; the number of delegations that are
still allowed bounds the recursion.
-/
namespace SourceSlices

/-- Reads a file with a handler that makes the same of every file. -/
def readFixed (language : String) (make : HandlerFile → HandlerResult) (r : Reading)
    (path : String) : HandlerResult :=
  match r.load path language with
  | .error e => r.unreadable path language e
  | .ok source =>
    let made := make source.file
    { made with warnings := source.warnings ++ made.warnings }

/-- Reads a file with at most that many delegations below it. -/
def readWithin : Nat → ReadSource
  | _, .text, r, path => Plain.read r path
  | _, .css, r, path => Css.read r path
  | _, .python, r, path => Python.read r path
  | _, .fixed _ _ language make, r, path => readFixed language make r path
  | 0, h, r, path => r.unreadable path h.name (.unknownHandler h.name)
  | n + 1, .markdown, r, path => Markdown.read (readWithin n) r path
  | n + 1, .html, r, path => Html.read (readWithin n) r path
  | n + 1, .javascript, r, path => Script.read .javascript (readWithin n) r path
  | n + 1, .typescript, r, path => Script.read .typescript (readWithin n) r path

/-- Reads a file with a handler. -/
def readSource : ReadSource := fun h r path =>
  readWithin (r.config.maxDelegationDepth - r.depth + 1) h r path

end SourceSlices
