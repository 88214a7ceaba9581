import SourceSlices.CommandLine.Reply
import SourceSlices.Run.Batch
import Std.Time.DateTime

/-!
The command line program: it takes from the disk what a command may look at, lets the command
change that, and puts the changed files back.
-/
open SourceSlices

/-- Reads an entry of the disk, with all that is below it. Links are kept with what they lead to. -/
partial def readEntry (entry : IO.FS.DirEntry) : IO (Option FileEntry) := do
  let info ← entry.path.symlinkMetadata
  match info.type with
  | .file =>
    let bytes ← IO.FS.readBinFile entry.path
    let time : Instant := ⟨info.modified.sec, info.modified.nsec.toNat⟩
    return some (.file bytes.toList time.toNanos)
  | .dir =>
    let mut entries := #[]
    for e in ← entry.path.readDir do
      if let some found ← readEntry e then
        entries := entries.push (e.fileName, found)
    return some (.dir entries.toList)
  | .symlink =>
    try
      return some (.link (← IO.FS.realPath entry.path).toString)
    catch _ => return none
  | _ => return none

/-- Adds a directory of the disk without what is in it. -/
def addDirectory (t : FileTree) (path : String) : IO FileTree := do
  return (t.makeDirs (← IO.FS.realPath path).toString).toOption.getD t

/-- Adds the links on the way of a path. -/
def addLinks (t : FileTree) (path : String) : IO FileTree := do
  let names := FileTree.names path
  let mut t := t
  for (name, i) in names.zipIdx do
    if name != "." && name != ".." then
      let parent := (← IO.FS.realPath (FileTree.pathText (names.take i))).toString
      let entry : IO.FS.DirEntry := ⟨parent, name⟩
      if (← entry.path.symlinkMetadata).type == .symlink then
        t ← addDirectory t parent
        t := t.put (Path.components parent ++ [name]) (some (.link (← IO.FS.realPath entry.path).toString))
  return t

/-- Adds to a tree what a path of the disk leads to; a path that leads nowhere adds nothing. -/
def addPath (t : FileTree) (path : String) : IO FileTree := do
  try
    let path := t.absolute path
    let names := Path.components (← IO.FS.realPath path).toString
    let parent := FileTree.pathText names.dropLast
    let some found ← readEntry ⟨parent, names.getLast?.getD "."⟩ | return t
    let t ← addDirectory (← addLinks t path) parent
    return t.put names (some found)
  catch _ => return t

/-- Adds the directory of a path that need not exist itself, and the path if it does. -/
def addFile (t : FileTree) (path : String) : IO FileTree := do
  let t ← addPath t path
  match Path.parent? (t.absolute path) with
  | some parent =>
    try addDirectory (← addLinks t parent) parent
    catch _ => return t
  | none => return t

/-- All that a command may look at. -/
def gather (cwd : String) (line : CommandLine) : IO FileTree := do
  let t : FileTree := { cwd }
  let t := (t.makeDirs cwd).toOption.getD t
  let t ← addPath t line.configPath
  match Config.load t line.configPath with
  | .error _ => return t
  | .ok c =>
    let t ← addFile t c.dbPath
    let t ← addFile t c.manifestPath
    let t ← match c.tokenizerPath with
      | some path => addPath t path
      | none => pure t
    match line.command with
    | .parse source _ _ =>
      match c.sources.find? source with
      | some root => addPath t root
      | none => return t
    | _ => return t

/-- Puts a file of the tree back on the disk if it has changed. -/
def putBack (before after : FileTree) (path : String) : IO Unit := do
  match before.read path, after.read path with
  | old, .ok bytes =>
    if old.toOption != some bytes then
      let path := after.absolute path
      if let some parent := Path.parent? path then
        IO.FS.createDirAll parent
      IO.FS.writeBinFile path ⟨bytes.toArray⟩
  | _, _ => return ()

def clock : IO Instant := do
  let t := (← Std.Time.Timestamp.now).toNanosecondsSinceUnixEpoch.val
  return ⟨t / Instant.billion, (t % Instant.billion).toNat⟩

def main (words : List String) : IO UInt32 := do
  let now ← clock
  let random := (← IO.getRandomBytes 10).toList.foldl (fun n b => n * 256 + b.toNat) 0
  let cwd := (← IO.currentDir).toString
  let before ← match CommandLine.ofWords words with
    | .run line => gather cwd line
    | _ => pure { cwd }
  let (after, reply) := CommandLine.run before now (BatchId.make now random) words
  if let .run line := CommandLine.ofWords words then
    if let .ok c := Config.load before line.configPath then
      unless Store.isTransient c.dbPath do
        putBack before after c.dbPath
      putBack before after c.manifestPath
  IO.print reply.stdout
  IO.eprint reply.stderr
  return UInt32.ofNat reply.code
