import SourceSlices.Toml.Scalar

/-!
TOML documents: lines that set keys, and headers that say which table the keys belong to.
-/
namespace SourceSlices.Toml

/-- How a table came to be; only one that was not named by a header itself may still be named. -/
inductive Origin where
  | header
  | parent
  | dotted
  deriving DecidableEq

inductive Item where
  | value (v : Json)
  | table (origin : Origin) (members : List (String × Item))
  | tables (elements : List (List (String × Item)))

abbrev Members := List (String × Item)

mutual

/-- The plain data of an item. -/
def Item.toJson : Item → Json
  | .value v => v
  | .table _ members => .obj (membersJson members)
  | .tables elements => .arr (elementsJson elements)

def membersJson : List (String × Item) → List (String × Json)
  | [] => []
  | (k, i) :: rest => (k, i.toJson) :: membersJson rest

def elementsJson : List (List (String × Item)) → List Json
  | [] => []
  | e :: rest => .obj (membersJson e) :: elementsJson rest

end

namespace Members

def item? (m : Members) (key : String) : Option Item :=
  (List.find? (fun e => e.1 == key) m).map (·.2)

/-- Puts an item in place of the one with that key, or at the end. -/
def put (m : Members) (key : String) (i : Item) : Members :=
  if m.any (·.1 == key) then m.map fun e => if e.1 = key then (key, i) else e
  else m ++ [(key, i)]

end Members

/-- Changes the table at a path, with the tables on the way made if they are missing. -/
def descend (origin : Origin) (change : Origin → Members → Option Members) :
    List String → Origin → Members → Option Members
  | [], own, m => change own m
  | k :: path, _, m =>
    match m.item? k with
    | none => do
      let inner ← descend origin change path origin []
      some (m ++ [(k, .table origin inner)])
    | some (.value _) => none
    | some (.tables elements) => do
      let last ← descend origin change path .header (elements.getLast?.getD [])
      some (m.put k (.tables (elements.dropLast ++ [last])))
    | some (.table own inner) =>
      if origin = .dotted && own = .header then none
      else do
        let inner ← descend origin change path own inner
        some (m.put k (.table own inner))

/-- Sets a key that may be dotted; it must be new. -/
def setKey (path : List String) (key : String) (i : Item) (own : Origin) (m : Members) : Option Members :=
  descend .dotted (fun own m =>
    if (own == .dotted) == path.isEmpty || m.any (·.1 == key) then none
    else some (m ++ [(key, i)])) path own m

def isBareKey (c : Char) : Bool := c.isAlphanum || c = '_' || c = '-'

def simpleKey (cs : List Char) : Option (String × List Char) :=
  match cs with
  | [] => none
  | c :: rest =>
    if c = '"' || c = '\'' then lineString c (c = '"') (cs.length + 1) rest []
    else
      let name := cs.takeWhile isBareKey
      if name.isEmpty then none else some (String.ofList name, cs.drop name.length)

/-- Deepest nesting of values, and longest key. -/
def maxDepth : Nat := 80

/-- The parts of a key between dots, with blanks around. -/
def keyPath : Nat → List Char → Option (List String × List Char)
  | 0, _ => none
  | fuel + 1, cs => do
    let (k, rest) ← simpleKey (skipBlanks cs)
    match skipBlanks rest with
    | '.' :: rest => do
      let (more, rest) ← keyPath fuel rest
      some (k :: more, rest)
    | rest => some ([k], rest)

def key (cs : List Char) : Option (List String × String × List Char) := do
  let (path, rest) ← keyPath (maxDepth - 1) cs
  let last ← path.getLast?
  some (path.dropLast, last, rest)

def skipComment (cs : List Char) : List Char :=
  match cs with
  | '#' :: rest => rest.dropWhile isText
  | _ => cs

/-- Behind blanks, comments and line ends. -/
def skipLines : Nat → List Char → Option (List Char)
  | 0, cs => some cs
  | fuel + 1, cs =>
    let cs := skipBlanks cs
    match cs with
    | '#' :: _ => (lineEnd? (skipComment cs)).bind (skipLines fuel)
    | _ =>
      match lineEnd? cs with
      | some rest => skipLines fuel rest
      | none => some cs

mutual

/-- A value; `depth` is the nesting still allowed. -/
def value : Nat → Nat → List Char → Option (Item × List Char)
  | 0, _, _ => none
  | fuel + 1, depth, cs =>
    match cs, depth with
    | '[' :: _, 0 => none
    | '\x7b' :: _, 0 => none
    | '[' :: rest, depth + 1 => do
      let (items, rest) ← items fuel depth rest
      some (.value (.arr items), rest)
    | '\x7b' :: rest, depth + 1 => do
      let (members, rest) ← match skipBlanks rest with
        | '\x7d' :: rest => some ([], rest)
        | rest => members fuel depth [] rest
      some (.value (Item.table .header members).toJson, rest)
    | _, _ => (scalar cs).map fun (v, rest) => (.value v, rest)

/-- The items of an array up to its closing bracket. -/
def items : Nat → Nat → List Char → Option (List Json × List Char)
  | 0, _, _ => none
  | fuel + 1, depth, cs => do
    let cs ← skipLines (cs.length + 1) cs
    match cs with
    | ']' :: rest => some ([], rest)
    | _ => do
      let (i, rest) ← value fuel depth cs
      let rest ← skipLines (rest.length + 1) rest
      match rest with
      | ',' :: rest => do
        let (more, rest) ← items fuel depth rest
        some (i.toJson :: more, rest)
      | ']' :: rest => some ([i.toJson], rest)
      | _ => none

/-- The members of a table on one line up to its closing brace. -/
def members : Nat → Nat → Members → List Char → Option (Members × List Char)
  | 0, _, _, _ => none
  | fuel + 1, depth, m, cs => do
    let (path, k, rest) ← key cs
    let rest ← expect '=' rest
    let (i, rest) ← value fuel depth (skipBlanks rest)
    let m ← setKey path k i .header m
    match skipBlanks rest with
    | ',' :: rest => members fuel depth m rest
    | '\x7d' :: rest => some (m, rest)
    | _ => none

end

/-- A document that has been read in part: everything before the current header, and the table
that the header names. -/
structure Document where
  root : Members := []
  path : List String := []
  isArray : Bool := false
  origin : Origin := .header
  current : Members := []

namespace Document

/-- Puts the current table where its header says. -/
def close (d : Document) : Option Members :=
  match d.path.getLast? with
  | none => some d.current
  | some k =>
    descend .parent (fun _ m =>
      match m.item? k with
      | none => some (m ++ [(k, if d.isArray then .tables [d.current] else .table .header d.current)])
      | some (.tables elements) =>
        if d.isArray then some (m.put k (.tables (elements ++ [d.current]))) else none
      | some _ => none) d.path.dropLast .header d.root

/-- Begins the table of a header; its parents are made even if nothing else mentions them. -/
def openTable (d : Document) (parents : List String) (k : String) : Option Document := do
  let root ← d.close
  let found ← lookup root parents
  match found with
  | none => some { root, path := parents ++ [k] }
  | some (.table origin m) =>
    if origin = .parent then
      let root ← descend .parent (fun _ m => some (m.filter (·.1 != k))) parents .header root
      some { root, path := parents ++ [k], current := m }
    else none
  | some _ => none
where
  /-- The item with the name of the new table. -/
  lookup : Members → List String → Option (Option Item)
    | m, [] => some (m.item? k)
    | m, p :: parents =>
      match m.item? p with
      | none => some none
      | some (.value _) => none
      | some (.tables elements) => lookup (elements.getLast?.getD []) parents
      | some (.table _ inner) => lookup inner parents

/-- Begins another element of an array of tables. -/
def openElement (d : Document) (parents : List String) (k : String) : Option Document := do
  let root ← d.close
  let root ← descend .parent (fun _ m =>
    match m.item? k with
    | none | some (.tables _) => some m
    | some _ => none) parents .header root
  some { root, path := parents ++ [k], isArray := true }

/-- One line, without the line end behind it. -/
def line (d : Document) (cs : List Char) : Option (Document × List Char) :=
  match cs with
  | '[' :: '[' :: rest => do
    let (parents, k, rest) ← key rest
    let rest ← (expect ']' rest).bind (expect ']')
    let d ← d.openElement parents k
    some (d, rest)
  | '[' :: rest => do
    let (parents, k, rest) ← key rest
    let rest ← expect ']' rest
    let d ← d.openTable parents k
    some (d, rest)
  | _ => do
    let (path, k, rest) ← key cs
    let rest ← expect '=' rest
    let (i, rest) ← value (rest.length + 1) (maxDepth - 1) (skipBlanks rest)
    let current ← setKey path k i .header d.current
    some ({ d with current }, rest)

def run : Nat → Document → List Char → Option Document
  | 0, _, _ => none
  | fuel + 1, d, cs =>
    let cs := skipBlanks cs
    let ends (d : Document) (rest : List Char) : Option Document :=
      let rest := skipComment (skipBlanks rest)
      if rest.isEmpty then some d else (lineEnd? rest).bind (run fuel d)
    match cs with
    | [] => some d
    | c :: _ =>
      if c = '#' || (lineEnd? cs).isSome then ends d cs
      else do
        let (d, rest) ← d.line cs
        ends d rest

end Document

/-- The data of a TOML text, if it can be read. -/
def read (text : String) : Option Json := do
  let cs := match text.toList with
    | '\uFEFF' :: cs => cs
    | cs => cs
  let d ← Document.run (cs.length + 1) {} cs
  let root ← d.close
  some (Item.table .header root).toJson

end SourceSlices.Toml
