import SourceSlices.Text.Lines

/-!
Removing the common indentation of lines. Indentation is counted in bytes.
-/
namespace SourceSlices.Text

/-- Bytes of the leading blanks of a line. -/
def indentOf (line : List Char) : Nat := byteLength (line.takeWhile isBlank)

/-- Least indentation of the lines that hold more than blanks. -/
def commonIndent (lines : List (List Char)) : Nat :=
  let indents := (lines.filter (!isAllBlank ·)).map indentOf
  match indents with
  | [] => 0
  | n :: rest => rest.foldl min n

/-- The rest of a line after `n` bytes, if a character ends there. -/
def afterBytes? : Nat → List Char → Option (List Char)
  | 0, cs => some cs
  | _ + 1, [] => none
  | n + 1, c :: cs => if n + 1 < c.utf8Size then none else afterBytes? (n + 1 - c.utf8Size) cs

/-- A line without its indentation and without trailing blanks. -/
def outdent (indent : Nat) (line : List Char) : List Char :=
  trimEnd ((afterBytes? indent line).getD (trimStart line))

/-- Line ends unified, common indentation and surrounding blank lines removed. -/
def dedent (text : List Char) : List Char :=
  let ls := splitOn '\n' (unifyLineEnds text)
  trimWhere (· == '\n') (join ['\n'] (ls.map (outdent (commonIndent ls))))

end SourceSlices.Text
