import SourceSlices.Text.Dedent

/-!
The text of a docstring: prefix letters and quotes removed, lines outdented.
-/
namespace SourceSlices.Python

def prefixLetters : List Char := "rRbBuUfF".toList

def quoteMarks : List (List Char) := [['"', '"', '"'], ['\'', '\'', '\''], ['"'], ['\'']]

/-- What stands between the first kind of quotes that encloses the literal. -/
def unquote (literal : List Char) : List Char :=
  let body := literal.dropWhile (prefixLetters.contains ·)
  (quoteMarks.findSome? fun q =>
    (Text.dropPrefix? body q).bind (Text.dropSuffix? · q)).getD body

/-- The first line is trimmed; the others lose the indentation they share. -/
def cleanLines (ls : List (List Char)) : List (List Char) :=
  match ls with
  | [] => []
  | first :: rest => Text.trim first :: rest.map (Text.outdent (Text.commonIndent rest))

def dropBlankEnds (ls : List (List Char)) : List (List Char) :=
  ((ls.dropWhile List.isEmpty).reverse.dropWhile List.isEmpty).reverse

def cleanDocstring (literal : List Char) : List Char :=
  Text.join ['\n'] (dropBlankEnds (cleanLines (Text.lines (unquote literal))))

end SourceSlices.Python
