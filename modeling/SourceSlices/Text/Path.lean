import SourceSlices.Text.Lines

/-!
Slash separated paths: components, last name, extension, and the dotted name of a file.
-/
namespace SourceSlices.Path

def isAbsolute (path : String) : Bool := path.toList.head? == some '/'

/-- Names between slashes; empty ones and single dots carry no meaning and are left out, except a
dot at the very beginning. -/
def components (path : String) : List String :=
  let pieces := (Text.splitOn '/' path.toList).map String.ofList
  pieces.zipIdx.filterMap fun (p, i) =>
    if p = "" then none else if p = "." ∧ i ≠ 0 then none else some p

/-- Text that is the same for two paths with the same components. -/
def key (path : String) : String :=
  (if isAbsolute path then "/" else "") ++ String.intercalate "/" (components path)

/-- Last name of a path, unless it is a dot, two dots or the root. -/
def fileName? (path : String) : Option String :=
  match (components path).getLast? with
  | some ".." => none
  | some "." => none
  | other => other

/-- Name and extension around the last dot. -/
def splitLastDot (name : List Char) : Option (List Char × List Char) :=
  let ext := (name.reverse.takeWhile (· != '.')).reverse
  if ext.length < name.length then some (name.take (name.length - ext.length - 1), ext) else none

/-- Small letters of the last suffix; a name that only starts with a dot has none. -/
def extension? (path : String) : Option String := do
  let name ← fileName? path
  let cs := match name.toList with
    | '.' :: rest => rest
    | cs => cs
  let (stem, ext) ← splitLastDot cs
  if stem.isEmpty || ext.isEmpty then none else some (String.ofList (Text.asciiLower ext))

/-- A file name without its last suffix; a name that only starts with a dot keeps it. -/
def stem (name : String) : String :=
  match splitLastDot name.toList with
  | some (stem, _) => if stem.isEmpty then name else String.ofList stem
  | none => name

/-- Dotted name of a file: its components without the suffix of the last one. -/
def dottedName (path : String) : String :=
  let parts := components path
  let parts := match fileName? path with
    | some name => parts.dropLast ++ [stem name]
    | none => parts
  let parts := parts.filter (· != ".")
  if parts.isEmpty then "module" else String.intercalate "." parts

def join (base path : String) : String :=
  if isAbsolute path then path
  else if base = "" then path
  else if base.toList.getLast? = some '/' then base ++ path
  else base ++ "/" ++ path

/-- Removes slashes and single dots from the end. -/
def trimRight : Nat → List Char → List Char
  | 0, rev => rev
  | fuel + 1, rev =>
    match rev with
    | '/' :: c :: rest => trimRight fuel (c :: rest)
    | '.' :: '/' :: rest => trimRight fuel ('/' :: rest)
    | _ => rev

def tidyEnd (path : String) : String :=
  let cs := path.toList
  String.ofList (trimRight (cs.length + 1) cs.reverse).reverse

/-- Drops that many components from the front. -/
def dropComponents : Nat → Nat → List Char → List Char
  | 0, _, cs => cs
  | fuel + 1, n, cs =>
    match cs with
    | '/' :: rest => dropComponents fuel n rest
    | '.' :: '/' :: rest => dropComponents fuel n rest
    | _ =>
      match n with
      | 0 => cs
      | n + 1 => dropComponents fuel n (cs.dropWhile (· != '/'))

/-- Whether the components of `base` are the first ones of `path`. -/
def startsWith (path base : String) : Bool :=
  (base = "" || isAbsolute path = isAbsolute base) && (components base).isPrefixOf (components path)

/-- The path below `base`. -/
def strip? (path base : String) : Option String :=
  if startsWith path base then
    let n := (components base).length
    let path := tidyEnd path
    if n = 0 ∧ !isAbsolute base then some path
    else some (String.ofList (dropComponents (path.length + n + 1) n path.toList))
  else none

end SourceSlices.Path
