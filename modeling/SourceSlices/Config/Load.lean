import SourceSlices.Config.Decode
import SourceSlices.FileTree
import SourceSlices.Instant
import SourceSlices.Text.Utf8
import SourceSlices.Toml.Document

/-!
Settings from a file: TOML if its name says so, else JSON. Without a file there are the defaults.
Settings are always written as JSON.
-/
namespace SourceSlices

inductive ConfigFault where
  | unreadable (path : String) (fault : FileFault)
  | unwritable (path : String) (fault : FileFault)
  | invalidToml (path : String)
  | invalidJson (path : String)
  deriving DecidableEq

def ConfigFault.message : ConfigFault → String
  | .unreadable path _ => "failed to read config: " ++ path
  | .unwritable path _ => "failed to write config: " ++ path
  | .invalidToml path => "invalid TOML in " ++ path
  | .invalidJson path => "invalid JSON in " ++ path

namespace Config

def defaultPath : String := "chunkloom.json"

/-- In TOML, where there is no null, a name without a value has an empty list or table behind it. -/
def isEmptyTable : Json → Bool
  | .arr items => items.isEmpty
  | .obj members => members.isEmpty
  | _ => false

def ofToml? (text : String) : Option Config := (Toml.read text).bind (ofData? isEmptyTable)

def isToml (path : String) : Bool := (Text.dropSuffix? path.toList ".toml".toList).isSome

def ofText (path text : String) : Except ConfigFault Config :=
  let found := if isToml path then ofToml? text else ofJson? text
  match found with
  | some c => .ok c
  | none => .error (if isToml path then .invalidToml path else .invalidJson path)

/-- Settings from the file at a path, or at the usual one if none is given. -/
def load (t : FileTree) (path : String) : Except ConfigFault Config := do
  let path := if path = "" then defaultPath else path
  if !t.exists? path then .ok {}
  else
    let bytes ← (t.read path).mapError (.unreadable path)
    match Text.decodeUtf8? bytes with
    | some text => ofText path text
    | none => .error (.unreadable path .invalidUtf8)

def text (c : Config) : String := c.toJson.pretty

/-- Writes the settings over what is at the path. -/
def save (c : Config) (t : FileTree) (path : String) (now : Instant) : Except ConfigFault FileTree :=
  (t.write path (Text.encodeUtf8 c.text) now.toNanos).mapError (.unwritable path)

end Config

end SourceSlices
