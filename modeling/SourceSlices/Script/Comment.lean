import SourceSlices.Text.Lines

/-!
The text of a comment: markers and the stars at the left edge removed.
-/
namespace SourceSlices.Script

def withoutPrefix (cs start : List Char) : List Char := (Text.dropPrefix? cs start).getD cs

/-- The inside of a block comment; other text stays as it is. -/
def commentBody (cs : List Char) : List Char :=
  let opened := (Text.dropPrefix? cs ['/', '*', '*']).orElse fun _ => Text.dropPrefix? cs ['/', '*']
  match opened with
  | some rest => (Text.dropSuffix? rest ['*', '/']).getD rest
  | none => cs

def commentLine (line : List Char) : List Char :=
  Text.trim (withoutPrefix (withoutPrefix (Text.trim line) ['/', '/']) ['*'])

def normalizeComment (raw : List Char) : List Char :=
  Text.trim (Text.join ['\n'] ((Text.lines (commentBody (Text.trim raw))).map commentLine))

end SourceSlices.Script
