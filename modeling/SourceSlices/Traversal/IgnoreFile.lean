import SourceSlices.Traversal.Glob

/-!
Ignore files: one pattern a line, of which the last one that matches a path decides.
-/
namespace SourceSlices

structure IgnoreRule where
  glob : List GlobToken
  /-- The rule takes its paths back in. -/
  isWhitelist : Bool := false
  onlyDirs : Bool := false
  deriving Inhabited

namespace IgnoreRule

def options : GlobOptions := { literalSeparator := true, allowUnclosed := true }

def startsWith (word : String) (cs : List Char) : Bool := word.toList.isPrefixOf cs

/-- Blanks at the end of a line do not count, unless the last of them is escaped. -/
def trimLine (cs : List Char) : List Char :=
  if (Text.dropSuffix? cs "\\ ".toList).isSome then cs else Text.trimEnd cs

/-- The pattern that is matched against paths below the directory of the file. -/
def anchor (cs : List Char) (isAnchored : Bool) : List Char :=
  let cs :=
    if isAnchored || cs.contains '/' || cs = ['*', '*'] then cs else "**/".toList ++ cs
  if (Text.dropSuffix? cs "/**".toList).isSome then cs ++ "/*".toList else cs

/-- The rule of a line, if it has one. -/
def ofLine? (line : List Char) : Option IgnoreRule :=
  let line := trimLine line
  if startsWith "#" line || line.isEmpty then none
  else
    let escaped := startsWith "\\!" line || startsWith "\\#" line
    let isWhitelist := !escaped && startsWith "!" line
    let body := if escaped || isWhitelist then line.drop 1 else line
    let isAnchored := startsWith "/" body
    let body := if isAnchored && !escaped then body.drop 1 else body
    let onlyDirs := body.getLast? = some '/'
    let body := if onlyDirs then body.dropLast else body
    let body := if onlyDirs && body.getLast? = some '\\' then body.dropLast else body
    match Glob.parse options (String.ofList (anchor body isAnchored)) with
    | .ok glob => some { glob, isWhitelist, onlyDirs }
    | .error _ => none

def matches? (r : IgnoreRule) (path : String) (isDir : Bool) : Bool :=
  (isDir || !r.onlyDirs) && Glob.isMatch options r.glob path

end IgnoreRule

/-- Rules of one ignore file in their order. -/
abbrev IgnoreFile := List IgnoreRule

namespace IgnoreFile

/-- The lines of a file up to the first one that cannot be read. -/
def linesOf (bytes : List UInt8) : List (List Char) :=
  let chars := Text.decodeBytes bytes.length bytes
  let readable := chars.takeWhile Option.isSome
  let lines := Text.lines (readable.filterMap id)
  if readable.length = chars.length then lines
  else
    -- The line that holds the first bad byte is lost as a whole.
    (Text.linesInclusive (readable.filterMap id)).filterMap fun l =>
      if l.getLast? = some '\n' then some (Text.chompLine l) else none

def ofBytes (bytes : List UInt8) : IgnoreFile :=
  match linesOf bytes with
  | [] => []
  | first :: rest => (first.dropWhile (· = '\uFEFF') :: rest).filterMap IgnoreRule.ofLine?

/-- Whether a path is ignored or taken back in; none if no rule speaks of it. -/
def verdict? (f : IgnoreFile) (path : String) (isDir : Bool) : Option Bool :=
  (f.reverse.find? (·.matches? path isDir)).map (!·.isWhitelist)

end IgnoreFile

end SourceSlices
