import SourceSlices.Error
import SourceSlices.Text.Path

/-!
A tree of directories, files and symbolic links, and what can be asked and done with paths in it.
Links on the way to a name are always followed.
-/
namespace SourceSlices

inductive FileEntry where
  /-- Content, and the time of the last change in billionths of a second. -/
  | file (bytes : List UInt8) (modified : Int)
  | link (target : String)
  | dir (entries : List (String × FileEntry))
  deriving Inhabited

namespace FileEntry

def isDir : FileEntry → Bool
  | .dir _ => true
  | _ => false

def isFile : FileEntry → Bool
  | .file .. => true
  | _ => false

def child? (e : FileEntry) (name : String) : Option FileEntry :=
  match e with
  | .dir entries => (entries.find? (·.1 = name)).map (·.2)
  | _ => none

/-- The entry below a list of names, links taken as they are. -/
def at? : FileEntry → List String → Option FileEntry
  | e, [] => some e
  | e, name :: rest => (e.child? name).bind (·.at? rest)

/-- Puts an entry into a directory, or takes it out. -/
def putChild (entries : List (String × FileEntry)) (name : String) : Option FileEntry → List (String × FileEntry)
  | none => entries.filter (·.1 ≠ name)
  | some e =>
    if entries.any (·.1 = name) then entries.map fun x => if x.1 = name then (name, e) else x
    else entries ++ [(name, e)]

/-- Changes the entry below a list of names whose directory is there. -/
def set (value : Option FileEntry) : List String → FileEntry → FileEntry
  | [], e => value.getD e
  | [name], .dir entries => .dir (putChild entries name value)
  | name :: rest, .dir entries =>
    .dir (entries.map fun x => if x.1 = name then (x.1, set value rest x.2) else x)
  | _, e => e

mutual

def count : FileEntry → Nat
  | .dir entries => counts entries + 1
  | _ => 1

def counts : List (String × FileEntry) → Nat
  | [] => 0
  | (_, e) :: rest => e.count + counts rest

end

end FileEntry

structure FileTree where
  top : FileEntry := .dir []
  /-- Directory that relative paths start from. -/
  cwd : String := "/"
  deriving Inhabited

namespace FileTree

def absolute (t : FileTree) (path : String) : String := Path.join t.cwd path

def pathText (names : List String) : String := "/" ++ String.intercalate "/" names

/-- Names of a path; one that ends in a slash ends in a dot, so that it must lead to a directory. -/
def names (path : String) : List String :=
  let pieces := (Text.splitOn '/' path.toList).map String.ofList
  pieces.filter (· ≠ "") ++ (if pieces.getLast? = some "" then ["."] else [])

/-- Number of links that may be followed on the way to one name. -/
def maxLinks : Nat := 40

/-- Follows names from a place without links to another one. The entry is missing if only the last
name leads nowhere. -/
def walk (top : FileEntry) (followLast : Bool) (links : Nat) (place todo : List String) :
    Except FileFault (List String × Option FileEntry) :=
  match todo with
  | [] => .ok (place, top.at? place)
  | name :: rest =>
    if name = "." then walk top followLast links place rest
    else if name = ".." then walk top followLast links place.dropLast rest
    else
      match top.at? (place ++ [name]) with
      | none => if rest.isEmpty then .ok (place ++ [name], none) else .error .notFound
      | some (.dir _) => walk top followLast links (place ++ [name]) rest
      | some (.file bytes modified) =>
        if rest.isEmpty then .ok (place ++ [name], some (.file bytes modified))
        else .error .notDirectory
      | some (.link target) =>
        if rest.isEmpty && !followLast then .ok (place ++ [name], some (.link target))
        else
          match links with
          | 0 => .error .linkLoop
          | links + 1 =>
            walk top followLast links (if Path.isAbsolute target then [] else place)
              (names target ++ rest)
termination_by (links, todo.length)

def locate (t : FileTree) (path : String) (followLast : Bool) :
    Except FileFault (List String × Option FileEntry) :=
  walk t.top followLast maxLinks [] (names (t.absolute path))

/-- The entry that a path leads to. -/
def entry? (t : FileTree) (path : String) : Except FileFault FileEntry := do
  match ← t.locate path true with
  | (_, some e) => .ok e
  | (_, none) => .error .notFound

/-- The names without links that lead to the same entry. -/
def place (t : FileTree) (path : String) : Except FileFault (List String) := do
  match ← t.locate path true with
  | (place, some _) => .ok place
  | (_, none) => .error .notFound

def exists? (t : FileTree) (path : String) : Bool := (t.entry? path).toOption.isSome

def isDir (t : FileTree) (path : String) : Bool := (t.entry? path).toOption.any (·.isDir)

def read (t : FileTree) (path : String) : Except FileFault (List UInt8) := do
  match ← t.entry? path with
  | .file bytes _ => .ok bytes
  | .dir _ => .error .isDirectory
  | .link _ => .error .linkLoop

def modified? (t : FileTree) (path : String) : Option Int :=
  match t.entry? path with
  | .ok (.file _ modified) => some modified
  | _ => none

/-- Puts an entry at a place whose directory must be there. -/
def put (t : FileTree) (place : List String) (value : Option FileEntry) : FileTree :=
  { t with top := t.top.set value place }

/-- Writes a file, through a link if the path is one. -/
def write (t : FileTree) (path : String) (bytes : List UInt8) (now : Int) : Except FileFault FileTree := do
  match ← t.locate path true with
  | (_, some (.dir _)) => .error .isDirectory
  | (place, _) => .ok (t.put place (some (.file bytes now)))

/-- Makes the directories of a path one after the other. -/
def makeEach (t : FileTree) (place : List String) : List String → Except FileFault FileTree
  | [] => .ok t
  | name :: rest => do
    let path := place ++ [name]
    match walk t.top true maxLinks [] path with
    | .ok (_, some (.dir _)) => t.makeEach path rest
    | .ok (_, some _) => .error (if rest.isEmpty then .exists' else .notDirectory)
    | .ok (found, none) =>
      match walk t.top false maxLinks [] path with
      | .ok (_, some _) => .error .exists'
      | _ => (t.put found (some (.dir []))).makeEach path rest
    | .error e => .error e

/-- Makes a directory with all directories on the way to it. -/
def makeDirs (t : FileTree) (path : String) : Except FileFault FileTree :=
  t.makeEach [] (Path.components (t.absolute path))

/-- Moves a file, over another one if there is one. -/
def rename (t : FileTree) (source target : String) : Except FileFault FileTree := do
  match ← t.locate source false with
  | (_, none) => .error .notFound
  | (fromPlace, some e) =>
    match ← t.locate target false with
    | (_, some (.dir _)) => .error .isDirectory
    | (toPlace, _) => .ok ((t.put fromPlace none).put toPlace (some e))

/-- Takes an entry out, with all that is below it. -/
def remove (t : FileTree) (path : String) : FileTree :=
  match t.locate path false with
  | .ok (place, some _) => t.put place none
  | _ => t

end FileTree

/-- The directory part of a path; none if there is nothing before the last name. -/
def Path.parent? (path : String) : Option String :=
  let names := components path
  if names.isEmpty then none
  else
    let parent := (if isAbsolute path then "/" else "") ++ String.intercalate "/" names.dropLast
    if parent = "" then none else some parent

end SourceSlices
