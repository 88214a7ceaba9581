import SourceSlices.Data.SortedMap
import SourceSlices.Text.Lines
import SourceSlices.Toml.Document
import SourceSlices.Yaml.Value

/-!
Front matter: a block of settings at the very beginning of a document, between two lines of dashes
or of plus signs; and the names of the settings in it.
-/
namespace SourceSlices.Markdown

inductive FrontFormat where
  | yaml
  | toml
  deriving DecidableEq

def FrontFormat.name : FrontFormat → String
  | .yaml => "yaml"
  | .toml => "toml"

def FrontFormat.delimiter : FrontFormat → List Char
  | .yaml => ['-', '-', '-']
  | .toml => ['+', '+', '+']

def FrontFormat.ofLine? (line : List Char) : Option FrontFormat :=
  [FrontFormat.yaml, .toml].find? fun f => Text.trimEnd line == f.delimiter

structure FrontMatter where
  format : FrontFormat
  body : List Char
  /-- Byte behind the closing delimiter line. -/
  stop : Nat
  deriving DecidableEq

/-- Lines before the first one that closes the block, and the byte behind that one. -/
def closeAt (format : FrontFormat) (offset : Nat) :
    List (List Char) → Option (List (List Char) × Nat)
  | [] => none
  | line :: rest =>
    let next := offset + Text.byteLength line
    if Text.trimEnd line == format.delimiter then some ([], next)
    else (closeAt format next rest).map fun (body, stop) => (line :: body, stop)

/-- The front matter of a document; a block that is not closed is none. -/
def frontMatter? (text : List Char) : Option FrontMatter :=
  match Text.linesInclusive text with
  | [] => none
  | first :: rest =>
    (FrontFormat.ofLine? first).bind fun format =>
      (closeAt format (Text.byteLength first) rest).map fun (body, stop) =>
        ⟨format, body.flatten, stop⟩

/-- Why the keys of a block cannot be told. -/
inductive KeysFault where
  | notMapping
  | unreadable
  deriving DecidableEq

def yamlKeys (body : List Char) : Except KeysFault (List String) :=
  if Text.isAllBlank body then .ok []
  else
    match Yaml.read body with
    | none => .error .unreadable
    | some .null => .ok []
    | some (.mapping members) => .ok (members.filterMap (·.1.str?))
    | some _ => .error .notMapping

def tomlKeys (body : List Char) : Except KeysFault (List String) :=
  match Toml.read (String.ofList body) with
  | some (.obj members) => .ok (SortedMap.ofList members).keys
  | _ => .error .unreadable

/-- Names in the order of the block, or in ascending order where the format has none. -/
def FrontMatter.keys (f : FrontMatter) : Except KeysFault (List String) :=
  match f.format with
  | .yaml => yamlKeys f.body
  | .toml => tomlKeys f.body

end SourceSlices.Markdown
