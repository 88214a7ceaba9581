import SourceSlices.Syntax.Pattern

/-!
Grammars: named rules over tokens, with precedence, fields and aliases. A rule whose name begins
with an underscore, and every supertype, leaves no node of its own in the tree.
-/
namespace SourceSlices.Syntax

/-- Binding strength of a rule: a number, or a name ranked by the grammar's precedence lists. -/
inductive Level where
  | unset
  | num (n : Int)
  | named (s : String)
  deriving DecidableEq, Hashable, Inhabited

inductive Assoc where
  | left
  | right
  deriving DecidableEq, Hashable

/-- A token: its pattern, its rank among tokens that match the same text, and whether blanks must
not stand before it. -/
structure TokenRule where
  pattern : Pattern
  rank : Int := 0
  immediate : Bool := false
  literal : Option String := none
  deriving BEq, Inhabited

inductive Rule where
  | blank
  | token (t : TokenRule)
  | ref (name : String)
  | seq (items : List Rule)
  | choice (items : List Rule)
  | repeat1 (r : Rule)
  | prec (level : Level) (assoc : Option Assoc) (r : Rule)
  | dynamic (n : Int) (r : Rule)
  | field (name : String) (r : Rule)
  | shownAs (name : String) (named : Bool) (r : Rule)
  /-- Names in here may also be reserved words. -/
  | anyName (r : Rule)
  deriving Inhabited

/-- Entry of a precedence list: a name, or all rules for one symbol. -/
inductive Rank where
  | name (s : String)
  | symbol (s : String)
  deriving DecidableEq

/-- A token found by a scanner of its own; a literal one can also be found as plain text. -/
structure External where
  name : String
  literal : Bool := false

structure Grammar where
  rules : List (String × Rule)
  blanks : CharSet
  /-- Tokens that may stand anywhere. -/
  extras : List String := []
  externals : List External := []
  inlined : List String := []
  supertypes : List String := []
  /-- Token whose matches are compared with the keywords. -/
  word : Option String := none
  /-- Keywords that are not read as names, except where any name goes. -/
  reserved : List String := []
  precedences : List (List Rank) := []

namespace Rule

def literalToken (s : String) : TokenRule := { pattern := .text s, literal := some s }

def lit (s : String) : Rule := .token (literalToken s)
def pat (p : Pattern) : Rule := .token { pattern := p }
def immediate (p : Pattern) : Rule := .token { pattern := p, immediate := true }
def litImmediate (s : String) : Rule := .token { literalToken s with immediate := true }
def opt (r : Rule) : Rule := .choice [r, .blank]
def many (r : Rule) : Rule := .choice [.repeat1 r, .blank]
def left (r : Rule) : Rule := .prec (.num 0) (some .left) r
def right (r : Rule) : Rule := .prec (.num 0) (some .right) r
def level (n : Int) (r : Rule) : Rule := .prec (.num n) none r
def leftAt (n : Int) (r : Rule) : Rule := .prec (.num n) (some .left) r
def rightAt (n : Int) (r : Rule) : Rule := .prec (.num n) (some .right) r
def at' (s : String) (r : Rule) : Rule := .prec (.named s) none r
def leftOf (s : String) (r : Rule) : Rule := .prec (.named s) (some .left) r
def rightOf (s : String) (r : Rule) : Rule := .prec (.named s) (some .right) r
/-- One or more, separated. -/
def sep1 (by' r : Rule) : Rule := .seq [r, many (.seq [by', r])]
def sep (by' r : Rule) : Rule := opt (sep1 by' r)
def commas1 (r : Rule) : Rule := sep1 (lit ",") r
def commas (r : Rule) : Rule := opt (commas1 r)

instance : Coe String Rule := ⟨lit⟩

end Rule

end SourceSlices.Syntax
