/-!
What a reader of Markdown reports: the beginnings and ends of headings and code blocks, and the
text in them, each with its byte range.
-/
namespace SourceSlices.Markdown

inductive Mark where
  | headingStart (level : Nat)
  | headingEnd
  | fenceStart (info : String)
  | indentedStart
  | codeEnd
  | text (s : String)
  | code (s : String)
  deriving DecidableEq

structure Event where
  mark : Mark
  start : Nat
  stop : Nat
  deriving DecidableEq

end SourceSlices.Markdown
