import SourceSlices.Config
import SourceSlices.FileTree
import SourceSlices.Traversal.IgnoreFile

/-!
The files below the root of a source, without those that ignore files or patterns of the settings
leave out.
-/
namespace SourceSlices

structure FoundFile where
  /-- Path from the top of the file tree. -/
  path : String
  /-- Path below the root of the source. -/
  relative : String
  deriving DecidableEq

structure Traversal where
  /-- Names that lead to the root, without links. -/
  root : List String
  rules : IgnoreRules
  /-- Patterns of the settings, if they are used. -/
  patterns : List (List GlobToken)
  followLinks : Bool

namespace Traversal

def usesPatterns : IgnoreRules → Bool
  | .repo => false
  | _ => true

def usesIgnoreFiles : IgnoreRules → Bool
  | .workspace => false
  | _ => true

/-! ### Patterns of the settings -/

/-- A pattern without a slash matches at every depth, one with a slash from the root on. Blank
patterns and those that begin with `#` say nothing. -/
def variants (pattern : String) : List String :=
  let trimmed := Text.trimEndWhere (· = '/') (Text.trim pattern.toList)
  if trimmed.isEmpty || trimmed.head? = some '#' then []
  else
    let anchored := String.ofList (trimmed.dropWhile (· = '/'))
    if trimmed.contains '/' then [anchored] else [anchored, "**/" ++ anchored]

def globsOf (pattern : String) : Except Error (List (List GlobToken)) :=
  (variants pattern).mapM fun v => (Glob.parse {} v).mapError fun fault =>
    .config ("invalid workspace pattern " ++ Text.quoted pattern ++ ": " ++ fault.message)

/-- Whether a pattern names a path or, with a slash behind it, a directory. -/
def matchesPatterns (w : Traversal) (relative : String) (isDir : Bool) : Bool :=
  let path := String.ofList (Text.replaceChar '\\' '/' relative.toList)
  w.patterns.any fun p => Glob.isMatch {} p path || (isDir && Glob.isMatch {} p (path ++ "/"))

/-- A walk from an existing directory. -/
def make (t : FileTree) (root : String) (rules : IgnoreRules) (patterns : List String)
    (followLinks : Bool) : Except Error Traversal := do
  if !t.isDir root then
    .error (.traversal ("traversal root must be an existing directory: " ++ root))
  else
    let place ← (t.place root).mapError (.io root)
    let globs ← if usesPatterns rules then patterns.mapM globsOf else .ok []
    .ok ⟨place, rules, globs.flatten, followLinks⟩

/-! ### Ignore files -/

/-- The ignore file of a directory that many names below the root. -/
structure Level where
  depth : Nat
  rules : IgnoreFile

def ignoreFileName : String := ".gitignore"

def levelOf (w : Traversal) (t : FileTree) (below : List String) : Level where
  depth := below.length
  rules :=
    if usesIgnoreFiles w.rules then
      match t.read (FileTree.pathText (w.root ++ below ++ [ignoreFileName])) with
      | .ok bytes => IgnoreFile.ofBytes bytes
      | .error _ => []
    else []

def relativeText (names : List String) : String := String.intercalate "/" names

/-- The innermost ignore file that speaks of a path decides; levels are listed from the inside. -/
def isIgnored (levels : List Level) (below : List String) (isDir : Bool) : Bool :=
  (levels.findSome? fun l => l.rules.verdict? (relativeText (below.drop l.depth)) isDir).getD false

/-! ### The walk -/

def repositoryName : String := ".git"

/-- Whether an entry is left out, with all that is below it. -/
def isSkipped (w : Traversal) (levels : List Level) (below : List String) (isDir : Bool) : Bool :=
  isIgnored levels below isDir || below.getLast? = some repositoryName ||
    w.matchesPatterns (relativeText below) isDir

/-- What an entry of a directory stands for: a link that may not be followed, that leads nowhere or
back to a directory on the way stands for nothing. -/
def target? (w : Traversal) (t : FileTree) (places : List (List String)) (name : String) :
    FileEntry → Option (List String × FileEntry)
  | .link _ =>
    if w.followLinks then
      match t.locate (FileTree.pathText ((places.head?.getD []) ++ [name])) true with
      | .ok (place, some e) => if e.isDir && places.contains place then none else some (place, e)
      | _ => none
    else none
  | e => some ((places.head?.getD []) ++ [name], e)

/-- The files below a directory. `places` holds where the directories on the way really are, the
directory itself first; the fuel bounds the depth. -/
def filesBelow (w : Traversal) (t : FileTree) :
    Nat → List (List String) → List Level → List String → FileEntry → List (List String)
  | fuel + 1, places, levels, below, .dir entries =>
    let levels := w.levelOf t below :: levels
    entries.flatMap fun (name, e) =>
      match w.target? t places name e with
      | none => []
      | some (place, e) =>
        let below := below ++ [name]
        if w.isSkipped levels below e.isDir then []
        else if e.isDir then w.filesBelow t fuel (place :: places) levels below e
        else [below]
  | _, _, _, _, _ => []

/-- The parts of the tree that a scope names; paths that lead nowhere or out of the root do not
count. -/
def scopePlaces (w : Traversal) (t : FileTree) (scope : List String) : List (List String) :=
  scope.filterMap fun path =>
    match t.place (Path.join (FileTree.pathText w.root) path) with
    | .ok place => if w.root.isPrefixOf place then some place else none
    | .error _ => none

/-- The files of a source in the order of their names, or those of them inside a scope. -/
def files (w : Traversal) (t : FileTree) (scope : List String) : List FoundFile :=
  match t.top.at? w.root with
  | none => []
  | some top =>
    let scope := w.scopePlaces t scope
    let fuel := (t.top.count + 1) * (t.top.count + 1)
    let found := (w.filesBelow t fuel [w.root] [] [] top).filter fun below =>
      scope.isEmpty || scope.any fun s => s.isPrefixOf (w.root ++ below)
    (found.mergeSort fun a b => !decide (b < a)).map fun below =>
      ⟨FileTree.pathText (w.root ++ below), relativeText below⟩

end Traversal

end SourceSlices
