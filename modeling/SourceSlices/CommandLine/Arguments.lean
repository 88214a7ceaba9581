import SourceSlices.Config.Load

/-!
The words of a command line. An option takes the word behind it, or what stands behind an equals
sign in the same word; behind two dashes no word is an option any more.
-/
namespace SourceSlices

inductive Command where
  | parse (source : String) (batch : Option String) (paths : List String)
  | health
  | deleteBatch (source batch : String)
  | handlers
  deriving DecidableEq

structure CommandLine where
  configPath : String := Config.defaultPath
  command : Command
  deriving DecidableEq

/-- What the words ask for. -/
inductive Request where
  | run (line : CommandLine)
  | version
  | help
  /-- The words make no sense. -/
  | misuse
  deriving DecidableEq

namespace CommandLine

/-- What one word looks like. -/
inductive Word where
  /-- Two dashes. -/
  | separator
  | long (name : String) (value : Option String)
  /-- First letter behind a single dash. -/
  | short (letter : Char)
  | plain (text : String)

def Word.ofString (s : String) : Word :=
  match s.toList with
  | ['-', '-'] => .separator
  | '-' :: '-' :: rest =>
    let name := String.ofList (rest.takeWhile (· ≠ '='))
    match rest.dropWhile (· ≠ '=') with
    | _ :: value => .long name (some (String.ofList value))
    | [] => .long name none
  | '-' :: c :: _ => .short c
  | _ => .plain s

/-- The value of an option and the words after it. -/
def value? (attached : Option String) (rest : List String) : Option (String × List String) :=
  match attached with
  | some v => some (v, rest)
  | none =>
    match rest with
    | [] => none
    | w :: rest =>
      match Word.ofString w with
      | .plain v => some (v, rest)
      | _ => none

/-- The commands by name, with the least and the greatest number of their arguments. -/
inductive Name where
  | parse
  | health
  | deleteBatch
  | handlers
  deriving DecidableEq

namespace Name

def text : Name → String
  | .parse => "parse"
  | .health => "health"
  | .deleteBatch => "delete-batch"
  | .handlers => "handlers"

def ofText? (s : String) : Option Name :=
  [Name.parse, .health, .deleteBatch, .handlers].find? (·.text = s)

/-- Whether one more argument may follow that many. -/
def takesMore (n : Name) (given : Nat) : Bool :=
  match n with
  | .parse => true
  | .deleteBatch => given < 2
  | _ => false

end Name

/-- What has been read behind the name of a command. -/
structure Read where
  config : Option String := none
  batch : Option String := none
  /-- Latest first. -/
  arguments : List String := []

def Read.command? (r : Read) (name : Name) : Option Command :=
  match name, r.arguments.reverse with
  | .parse, source :: paths => some (.parse source r.batch paths)
  | .health, [] => some .health
  | .deleteBatch, [source, batch] => some (.deleteBatch source batch)
  | .handlers, [] => some .handlers
  | _, _ => none

/-- Takes an argument, if the command takes one more. Paths must not be empty. -/
def Read.push? (r : Read) (name : Name) (argument : String) : Option Read :=
  if !name.takesMore r.arguments.length then none
  else if name = .parse ∧ !r.arguments.isEmpty ∧ argument = "" then none
  else some { r with arguments := argument :: r.arguments }

/-- All words behind two dashes are arguments. -/
def Read.pushAll? (r : Read) (name : Name) : List String → Option Read
  | [] => some r
  | w :: rest => (r.push? name w).bind (·.pushAll? name rest)

def finish (outer : Option String) (name : Name) (r : Read) : Request :=
  match r.command? name with
  | some command => .run ⟨(r.config.or outer).getD Config.defaultPath, command⟩
  | none => .misuse

/-- The words behind the name of a command; the fuel is their number. -/
def behind (outer : Option String) (name : Name) : Nat → Read → List String → Request
  | _, r, [] => finish outer name r
  | 0, _, _ => .misuse
  | fuel + 1, r, w :: rest =>
    match Word.ofString w with
    | .separator =>
      match r.pushAll? name rest with
      | some r => finish outer name r
      | none => .misuse
    | .long "config" attached =>
      match r.config, value? attached rest with
      | none, some (v, rest) => behind outer name fuel { r with config := some v } rest
      | _, _ => .misuse
    | .long "batch" attached =>
      match name, r.batch, value? attached rest with
      | .parse, none, some (v, rest) => behind outer name fuel { r with batch := some v } rest
      | _, _, _ => .misuse
    | .long "help" none => .help
    | .long _ _ => .misuse
    | .short c => if c = 'h' then .help else .misuse
    | .plain argument =>
      match r.push? name argument with
      | some r => behind outer name fuel r rest
      | none => .misuse

/-- Asks for help on a command, or on all of them. -/
def helpOn : List String → Request
  | [] => .help
  | [w] => if w = "help" || (Name.ofText? w).isSome then .help else .misuse
  | _ => .misuse

/-- The words up to the name of a command; the fuel is their number. -/
def start : Nat → Option String → List String → Request
  | _, _, [] => .misuse
  | 0, _, _ => .misuse
  | fuel + 1, config, w :: rest =>
    match Word.ofString w with
    | .separator => .misuse
    | .long "config" attached =>
      match config, value? attached rest with
      | none, some (v, rest) => start fuel (some v) rest
      | _, _ => .misuse
    | .long "help" none => .help
    | .long "version" none => .version
    | .long _ _ => .misuse
    | .short c => if c = 'h' then .help else if c = 'V' then .version else .misuse
    | .plain w =>
      if w = "help" then helpOn rest
      else
        match Name.ofText? w with
        | some name => behind config name rest.length {} rest
        | none => .misuse

def ofWords (words : List String) : Request := start words.length none words

end CommandLine

end SourceSlices
