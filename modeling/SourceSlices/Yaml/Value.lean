import SourceSlices.Yaml.Event

/-!
The values of a YAML document.
-/
namespace SourceSlices.Yaml

inductive Value where
  | null
  | bool (b : Bool)
  | int (i : Int)
  | float (x : Float)
  | str (s : String)
  | sequence (items : List Value)
  | mapping (members : List (Value × Value))
  | tagged (tag : List Char) (v : Value)

/-- The text of a value, which may be tagged. -/
def Value.str? : Value → Option String
  | .str s => some s
  | .tagged _ v => v.str?
  | _ => none

/-- Equal numbers, where all that are not numbers count as one. -/
def sameFloat (a b : Float) : Bool := a == b || (a != a && b != b)

mutual

/-- Whether two values are equal; the order of members does not count. -/
def Value.same : Value → Value → Bool
  | .null, .null => true
  | .bool a, .bool b => a == b
  | .int a, .int b => a == b
  | .float a, .float b => sameFloat a b
  | .str a, .str b => a == b
  | .sequence a, .sequence b => sameItems a b
  | .mapping a, .mapping b => a.length == b.length && sameMembers a b
  | .tagged s a, .tagged t b => s == t && a.same b
  | _, _ => false

def sameItems : List Value → List Value → Bool
  | [], [] => true
  | a :: as, b :: bs => a.same b && sameItems as bs
  | _, _ => false

def sameMembers : List (Value × Value) → List (Value × Value) → Bool
  | [], _ => true
  | (k, v) :: rest, b => b.any (fun e => k.same e.1 && v.same e.2) && sameMembers rest b

end

/-- Several digits that begin with zero, with an optional sign. -/
def isPadded (cs : List Char) : Bool :=
  let digits := match cs with
    | '-' :: rest => rest
    | '+' :: rest => rest
    | _ => cs
  match digits with
  | '0' :: d :: rest => (d :: rest).all Char.isDigit
  | _ => false

/-- Digits to the base that their prefix names. -/
def based? : List Char → Option Nat
  | '0' :: 'x' :: rest => Decimal.whole? 16 rest
  | '0' :: 'o' :: rest => Decimal.whole? 8 rest
  | '0' :: 'b' :: rest => Decimal.whole? 2 rest
  | cs => Decimal.whole? 10 cs

/-- Whether a number fits into that many bits, with or without a sign. -/
def fits (bits : Nat) (i : Int) : Bool := -(Nat.pow 2 (bits - 1) : Int) ≤ i && i < Nat.pow 2 bits

/-- A whole number within 128 bits. -/
def int? (cs : List Char) : Option Int :=
  if isPadded cs then none else (Decimal.signed? based? cs).filter (fits 128)

def float? (cs : List Char) : Option Float :=
  let positive := match cs with
    | '+' :: rest => rest
    | _ => cs
  let name := String.ofList positive
  if [".inf", ".Inf", ".INF"].contains name then some (1.0 / 0.0)
  else if ["-.inf", "-.Inf", "-.INF"].contains (String.ofList cs) then some (-1.0 / 0.0)
  else if [".nan", ".NaN", ".NAN"].contains (String.ofList cs) then some (0.0 / 0.0)
  else if positive.length < cs.length && (positive.head?.any fun c => c = '+' || c = '-') then none
  else (Decimal.float? positive).filter Decimal.isFiniteNumber

def isNull (s : String) : Bool := ["null", "Null", "NULL", "~"].contains s

def bool? (s : String) : Option Bool :=
  if ["true", "True", "TRUE"].contains s then some true
  else if ["false", "False", "FALSE"].contains s then some false else none

/-- A whole number as a value, within 64 bits. -/
def intValue (i : Int) : Option Value := if fits 64 i then some (.int i) else none

/-- What a plain scalar without a tag stands for. -/
def resolve (cs : List Char) : Option Value :=
  let s := String.ofList cs
  if cs.isEmpty || isNull s then some .null
  else match bool? s with
    | some b => some (.bool b)
    | none =>
      match int? cs with
      | some i => intValue i
      | none =>
        match if isPadded cs then none else float? cs with
        | some x => some (.float x)
        | none => some (.str s)

def coreTag (name : String) : List Char := ("tag:yaml.org,2002:" ++ name).toList

/-- A scalar; a tag of the core schema decides its kind, any other one does not. -/
def scalarValue (tag : Option (List Char)) (text : List Char) (plain : Bool) : Option Value :=
  let s := String.ofList text
  match tag with
  | none => if plain then resolve text else some (.str s)
  | some tag =>
    if tag = coreTag "bool" then (bool? s).map .bool
    else if tag = coreTag "int" then (int? text).bind intValue
    else if tag = coreTag "float" then (float? text).map .float
    else if tag = coreTag "null" then if isNull s then some .null else none
    else some (.str s)

/-- The name of a tag of the document's own. -/
def ownTag? : Option (List Char) → Option (List Char)
  | some ('!' :: name) => some name
  | _ => none

/-- A document whose aliases have been resolved to places. -/
structure Source where
  events : Array Event
  /-- Place that each alias stands for, by the place of the alias. -/
  targets : List (Nat × Nat)

/-- Numbers the anchors as they come; an anchor's number is how many names there are before it. -/
structure Anchors where
  names : List (List Char × Nat) := []
  places : List (Nat × Nat) := []

def Anchors.add (a : Anchors) (name : List Char) (place : Nat) : Anchors :=
  let id := a.names.length
  ⟨(name, id) :: a.names.filter (·.1 != name), (id, place) :: a.places⟩

/-- The place of each alias with the number of its anchor. -/
def aliases : List Event → Nat → Anchors → Option (List (Nat × Nat) × Anchors)
  | [], _, a => some ([], a)
  | e :: rest, place, a =>
    match e with
    | .reference name => do
      let id ← (a.names.find? (·.1 == name)).map (·.2)
      let (found, a) ← aliases rest (place + 1) a
      some ((place, id) :: found, a)
    | .scalar m _ _ | .sequenceStart m | .mappingStart m =>
      aliases rest (place + 1) (match m.anchor with
        | some name => a.add name place
        | none => a)
    | _ => aliases rest (place + 1) a

def Source.of? (events : List Event) : Option Source := do
  let (found, a) ← aliases events 0 {}
  let targets ← found.mapM fun (place, id) =>
    (a.places.find? (·.1 == id)).map fun p => (place, p.2)
  some ⟨events.toArray, targets⟩

/-- Nesting allowed in a document. -/
def maxDepth : Nat := 128

/-- Aliases that may be followed, for each event. -/
def maxJumps : Nat := 100

/-- A place behind what was read, and how many aliases were followed so far. -/
structure Progress where
  place : Nat
  jumps : Nat := 0

mutual

/-- The node at a place. `tagged` says that its tag has been used already. -/
def readNode (s : Source) : Nat → Nat → Bool → Progress → Option (Value × Progress)
  | 0, _, _, _ => none
  | fuel + 1, depth, tagged, p =>
    let own (m : Mark) : Option (List Char) := if tagged then none else ownTag? m.tag
    let untagged (name : List Char) : Option (Value × Progress) :=
      if name.isEmpty then none
      else (readNode s fuel depth true p).map fun (v, p) => (.tagged name v, p)
    match s.events[p.place]? with
    | none => none
    | some (.reference _) =>
      if maxJumps * s.events.size < p.jumps + 1 then none
      else do
        let target ← (s.targets.find? (·.1 == p.place)).map (·.2)
        let (v, q) ← readNode s fuel depth false ⟨target, p.jumps + 1⟩
        some (v, ⟨p.place + 1, q.jumps⟩)
    | some (.scalar m text plain) =>
      match own m with
      | some name => untagged name
      | none => do
        let v ← if !tagged then scalarValue m.tag text plain
          else if plain then resolve text else some (.str (String.ofList text))
        some (v, { p with place := p.place + 1 })
    | some (.sequenceStart m) =>
      match own m, depth with
      | some name, _ => untagged name
      | none, 0 => none
      | none, depth + 1 => do
        let (items, p) ← readItems s fuel depth { p with place := p.place + 1 }
        some (.sequence items, p)
    | some (.mappingStart m) =>
      match own m, depth with
      | some name, _ => untagged name
      | none, 0 => none
      | none, depth + 1 => do
        let (members, p) ← readMembers s fuel depth [] { p with place := p.place + 1 }
        some (.mapping members, p)
    | some .sequenceEnd | some .mappingEnd => none

def readItems (s : Source) : Nat → Nat → Progress → Option (List Value × Progress)
  | 0, _, _ => none
  | fuel + 1, depth, p =>
    if s.events[p.place]? = some .sequenceEnd then some ([], { p with place := p.place + 1 })
    else do
      let (v, p) ← readNode s fuel depth false p
      let (rest, p) ← readItems s fuel depth p
      some (v :: rest, p)

/-- Members of a mapping; no key may occur twice. -/
def readMembers (s : Source) :
    Nat → Nat → List (Value × Value) → Progress → Option (List (Value × Value) × Progress)
  | 0, _, _, _ => none
  | fuel + 1, depth, seen, p =>
    if s.events[p.place]? = some .mappingEnd then some (seen.reverse, { p with place := p.place + 1 })
    else do
      let (k, p) ← readNode s fuel depth false p
      if seen.any fun e => e.1.same k then none
      else do
        let (v, p) ← readNode s fuel depth false p
        readMembers s fuel depth ((k, v) :: seen) p

end

/-- The value of a text with at most one document; none if it cannot be read. -/
def read (text : List Char) : Option Value := do
  let events ← (tokens? text).bind events?
  if events.isEmpty then some .null
  else
    let s ← Source.of? events
    (readNode s ((maxDepth + 2) * (s.events.size + 2)) maxDepth false ⟨0, 0⟩).map (·.1)

end SourceSlices.Yaml
