import SourceSlices.Syntax.Tree

/-!
The grammar of HTML documents. A scanner keeps the open elements: it tells matching end tags from
others, and closes elements whose end tag may be left out.
-/
namespace SourceSlices.Html

open Syntax Syntax.Rule

def unquoted (signs : String) : CharSet := (CharSet.of signs ++ CharSet.space).without

def anyCase (s : String) : Pattern :=
  .seq (s.toList.map fun c => .set (CharSet.of (String.ofList [c, c.toUpper])))

def upTo (n : Nat) (s : CharSet) : Pattern := .seq (.set s :: List.replicate (n - 1) (.opt (.set s)))

def entityPattern : Pattern :=
  .seq [.text "&",
    .alt [.seq [.text "#", .alt [.seq [.set (CharSet.of "xX"), upTo 6 CharSet.hex],
        upTo 5 CharSet.digit]],
      upTo 30 CharSet.letter],
    .opt (.text ";")]

def textPattern : Pattern :=
  .seq [.set (unquoted "<>&"),
    .opt (.seq [.many (.set (CharSet.except "<>&")), .set (unquoted "<>&")])]

def quoted (quote : String) : Rule :=
  .seq [quote, opt (.shownAs "attribute_value" true (pat (.some (.set (CharSet.except quote))))), quote]

def openTag (name closing : String) : Rule :=
  .seq ["<", .shownAs "tag_name" true (.ref name), many (.ref "attribute"), closing]

def rawElement (tag : String) : Rule :=
  .seq [.shownAs "start_tag" true (.ref tag), opt (.ref "raw_text"), .ref "end_tag"]

def grammar : Grammar where
  rules := [
    ("document", many (.ref "_node")),
    ("doctype", .seq ["<!", .shownAs "doctype" false (.ref "_doctype"),
      pat (.some (.set (CharSet.except ">"))), ">"]),
    ("_doctype", pat (anyCase "doctype")),
    ("_node", .choice [.ref "doctype", .ref "entity", .ref "text", .ref "element",
      .ref "script_element", .ref "style_element", .ref "erroneous_end_tag"]),
    ("element", .choice [
      .seq [.ref "start_tag", many (.ref "_node"),
        .choice [.ref "end_tag", .ref "_implicit_end_tag"]],
      .ref "self_closing_tag"]),
    ("script_element", rawElement "script_start_tag"),
    ("style_element", rawElement "style_start_tag"),
    ("start_tag", openTag "_start_tag_name" ">"),
    ("script_start_tag", openTag "_script_start_tag_name" ">"),
    ("style_start_tag", openTag "_style_start_tag_name" ">"),
    ("self_closing_tag", openTag "_start_tag_name" "/>"),
    ("end_tag", .seq ["</", .shownAs "tag_name" true (.ref "_end_tag_name"), ">"]),
    ("erroneous_end_tag", .seq ["</", .ref "erroneous_end_tag_name", ">"]),
    ("attribute", .seq [.ref "attribute_name",
      opt (.seq ["=", .choice [.ref "attribute_value", .ref "quoted_attribute_value"]])]),
    ("attribute_name", pat (.some (.set (unquoted "<>\"'/=")))),
    ("attribute_value", pat (.some (.set (unquoted "<>\"'=")))),
    ("entity", pat entityPattern),
    ("quoted_attribute_value", .choice [quoted "'", quoted "\""]),
    ("text", pat textPattern)]
  blanks := CharSet.space
  extras := ["comment"]
  externals := [⟨"_start_tag_name", false⟩, ⟨"_script_start_tag_name", false⟩,
    ⟨"_style_start_tag_name", false⟩, ⟨"_end_tag_name", false⟩,
    ⟨"erroneous_end_tag_name", false⟩, ⟨"/>", true⟩, ⟨"_implicit_end_tag", false⟩,
    ⟨"raw_text", false⟩, ⟨"comment", false⟩]

/-- Names of open elements in capitals, innermost first. -/
abbrev Tags := List String

def voidTags : List String :=
  ["AREA", "BASE", "BASEFONT", "BGSOUND", "BR", "COL", "COMMAND", "EMBED", "FRAME", "HR", "IMAGE",
    "IMG", "INPUT", "ISINDEX", "KEYGEN", "LINK", "MENUITEM", "META", "NEXTID", "PARAM", "SOURCE",
    "TRACK", "WBR"]

def otherTags : List String :=
  ["A", "ABBR", "ADDRESS", "ARTICLE", "ASIDE", "AUDIO", "B", "BDI", "BDO", "BLOCKQUOTE", "BODY",
    "BUTTON", "CANVAS", "CAPTION", "CITE", "CODE", "COLGROUP", "DATA", "DATALIST", "DD", "DEL",
    "DETAILS", "DFN", "DIALOG", "DIV", "DL", "DT", "EM", "FIELDSET", "FIGCAPTION", "FIGURE",
    "FOOTER", "FORM", "H1", "H2", "H3", "H4", "H5", "H6", "HEAD", "HEADER", "HGROUP", "HTML", "I",
    "IFRAME", "INS", "KBD", "LABEL", "LEGEND", "LI", "MAIN", "MAP", "MARK", "MATH", "MENU", "METER",
    "NAV", "NOSCRIPT", "OBJECT", "OL", "OPTGROUP", "OPTION", "OUTPUT", "P", "PICTURE", "PRE",
    "PROGRESS", "Q", "RB", "RP", "RT", "RTC", "RUBY", "S", "SAMP", "SCRIPT", "SECTION", "SELECT",
    "SLOT", "SMALL", "SPAN", "STRONG", "STYLE", "SUB", "SUMMARY", "SUP", "SVG", "TABLE", "TBODY",
    "TD", "TEMPLATE", "TEXTAREA", "TFOOT", "TH", "THEAD", "TIME", "TITLE", "TR", "U", "UL", "VAR",
    "VIDEO"]

def isVoid (tag : String) : Bool := voidTags.contains tag

def isKnown (tag : String) : Bool := voidTags.contains tag || otherTags.contains tag

/-- Elements of one kind: the same known name, or any two names that are not known. -/
def sameKind (a b : String) : Bool := a == b || (!isKnown a && !isKnown b)

def endParagraph : List String :=
  ["ADDRESS", "ARTICLE", "ASIDE", "BLOCKQUOTE", "DETAILS", "DIV", "DL", "FIELDSET", "FIGCAPTION",
    "FIGURE", "FOOTER", "FORM", "H1", "H2", "H3", "H4", "H5", "H6", "HEADER", "HR", "MAIN", "NAV",
    "OL", "P", "PRE", "SECTION"]

def canContain (parent child : String) : Bool :=
  match parent with
  | "LI" => child != "LI"
  | "DT" | "DD" => child != "DT" && child != "DD"
  | "P" => !endParagraph.contains child
  | "COLGROUP" => child == "COL"
  | "RB" | "RT" | "RP" => child != "RB" && child != "RT" && child != "RP"
  | "OPTGROUP" => child != "OPTGROUP"
  | "TR" => child != "TR"
  | "TD" | "TH" => child != "TD" && child != "TH" && child != "TR"
  | _ => true

def isNameChar (c : Char) : Bool := c.isAlphanum || c = '-' || c = ':'

/-- The tag name at a position, in capitals, and where it ends. -/
def tagNameAt (text : Array Char) (pos : Nat) : String × Nat :=
  let rec go : Nat → Nat → List Char → String × Nat
    | 0, i, name => (String.ofList name.reverse, i)
    | fuel + 1, i, name =>
      match text[i]? with
      | some c => if isNameChar c then go fuel (i + 1) (c.toUpper :: name)
        else (String.ofList name.reverse, i)
      | none => (String.ofList name.reverse, i)
  go text.size pos []

/-- End of a comment whose opening dashes are at `pos`. -/
def commentEnd? (text : Array Char) (pos : Nat) : Option Nat :=
  let rec go : Nat → Nat → Nat → Option Nat
    | 0, _, _ => none
    | fuel + 1, i, dashes =>
      match text[i]? with
      | none => none
      | some '-' => go fuel (i + 1) (dashes + 1)
      | some '>' => if dashes ≥ 2 then some (i + 1) else go fuel (i + 1) 0
      | some _ => go fuel (i + 1) 0
  if text[pos]? = some '-' && text[pos + 1]? = some '-' then go text.size (pos + 2) 0 else none

/-- Where raw text ends: before the end tag of its element, or with the document. -/
def rawEnd (text : Array Char) (delimiter : Array Char) (pos : Nat) : Nat :=
  let rec go : Nat → Nat → Nat → Nat → Nat
    | 0, _, _, stop => stop
    | fuel + 1, i, matched, stop =>
      match text[i]? with
      | none => stop
      | some c =>
        if delimiter[matched]? = some c.toUpper then
          if matched + 1 = delimiter.size then stop else go fuel (i + 1) (matched + 1) stop
        else go fuel (i + 1) 0 (i + 1)
  go (text.size + 1) pos 0 pos

/-- An end that is not written, before a tag whose name or slash is at `pos`. -/
def implicitEnd (tags : Tags) (text : Array Char) (mark pos : Nat) : Option (Hit Tags) :=
  let close : Option (Hit Tags) := some ⟨6, mark, mark, some (tags.drop 1)⟩
  if text[pos]? = some '/' then
    let (name, stop) := tagNameAt text (pos + 1)
    if name = "" && stop < text.size then none
    else if tags.head? = some name then none
    else if tags.any (sameKind name) then close else none
  else
    match tags.head? with
    | none => none
    | some parent =>
      if isVoid parent then close
      else
        let (name, stop) := tagNameAt text pos
        if name = "" && stop < text.size then none
        else if !canContain parent name ||
          (["HTML", "HEAD", "BODY"].contains parent && stop = text.size)
        then close else none

def skipBlanks (text : Array Char) : Nat → Nat → Nat
  | 0, i => i
  | fuel + 1, i =>
    match text[i]? with
    | some c => if CharSet.space.has c then skipBlanks text fuel (i + 1) else i
    | none => i

def startTagName (tags : Tags) (text : Array Char) (pos : Nat) : Option (Hit Tags) :=
  let (name, stop) := tagNameAt text pos
  if name = "" then none
  else
    let token := if name = "SCRIPT" then 1 else if name = "STYLE" then 2 else 0
    some ⟨token, pos, stop, some (name :: tags)⟩

def endTagName (tags : Tags) (text : Array Char) (pos : Nat) : Option (Hit Tags) :=
  let (name, stop) := tagNameAt text pos
  if name = "" then none
  else if tags.head? = some name then some ⟨3, pos, stop, some (tags.drop 1)⟩
  else some ⟨4, pos, stop, some tags⟩

def scan (memory : Option Tags) (valid : Nat → Bool) (text : Array Char) (pos : Nat) :
    Option (Hit Tags) :=
  let tags := memory.getD []
  if valid 7 && !valid 0 && !valid 3 then
    match tags.head? with
    | none => none
    | some tag =>
      let delimiter := if tag = "SCRIPT" then "</SCRIPT" else "</STYLE"
      some ⟨7, pos, rawEnd text delimiter.toList.toArray pos, some tags⟩
  else
    let i := skipBlanks text text.size pos
    match text[i]? with
    | none => if valid 6 then implicitEnd tags text i i else none
    | some '<' =>
      if text[i + 1]? = some '!' then
        (commentEnd? text (i + 2)).map fun stop => ⟨8, i, stop, some tags⟩
      else if valid 6 then implicitEnd tags text i (i + 1) else none
    | some '/' =>
      if valid 5 && text[i + 1]? = some '>' && !tags.isEmpty then
        some ⟨5, i, i + 2, some (tags.drop 1)⟩
      else none
    | some _ =>
      if valid 7 then none
      else if valid 0 then startTagName tags text i
      else if valid 3 then endTagName tags text i
      else none

def scanner : Scanner Tags := ⟨scan⟩

def engine : Thunk Engine := Thunk.mk fun _ => .ofGrammar grammar

/-- The tree of a document. -/
def tree (text : List Char) : Node := Node.ofText engine.get scanner text

end SourceSlices.Html
