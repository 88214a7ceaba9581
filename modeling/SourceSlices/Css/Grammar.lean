import SourceSlices.Syntax.Tree

/-!
The grammar of style sheets, with nested rules and line comments.
-/
namespace SourceSlices.Css

open Syntax Syntax.Rule

def nameStart : CharSet := CharSet.letter ++ CharSet.of "_" ++ ⟨[(0xa0, 0xff)], false, []⟩
def namePart : CharSet := nameStart ++ CharSet.digit ++ CharSet.of "-"

def identifierPattern : Pattern :=
  .seq [.alt [.text "--", .seq [.opt (.text "-"), .set nameStart]], .many (.set namePart)]

/-- Characters that end a plain value, apart from the slash. -/
def delimiters : CharSet := CharSet.space ++ CharSet.of ",;!\x7b\x7d()[]"

/-- A slash that does not begin a comment. -/
def plainSlash : Pattern := .seq [.text "/", .set (delimiters ++ CharSet.of "*").without]

def plainPattern : Pattern :=
  .seq [.many (.alt [.set (CharSet.of "-_"), plainSlash]), .set CharSet.letter,
    .many (.alt [.set (delimiters ++ CharSet.of "/").without, plainSlash])]

def commentPattern : Pattern :=
  .seq [.text "/*", .many (.set (CharSet.except "*")), .some (.text "*"),
    .many (.seq [.set (CharSet.except "/*"), .many (.set (CharSet.except "*")), .some (.text "*")]),
    .text "/"]

def sign : Pattern := .opt (.set (CharSet.of "+-"))
def digits : Pattern := .some (.set CharSet.digit)
def exponent : Pattern := .seq [.set (CharSet.of "eE"), .opt (.text "-"), digits]

def floatPattern : Pattern :=
  .seq [sign, .many (.set CharSet.digit),
    .alt [.seq [.text ".", digits], exponent, .seq [.text ".", digits, exponent]]]

def stringOf (quote : String) : Rule :=
  .seq [quote,
    many (.choice [
      .shownAs "string_content" true (immediate (.some (.set (CharSet.except (quote ++ "\n\\"))))),
      .ref "escape_sequence"]),
    quote]

def aliased (name : String) (r : Rule := .ref "identifier") : Rule := .shownAs name true r

def blockItems : List Rule := [
  .ref "declaration", .ref "rule_set", .ref "import_statement", .ref "media_statement",
  .ref "charset_statement", .ref "namespace_statement", .ref "keyframes_statement",
  .ref "supports_statement", .ref "scope_statement"]

def declarationParts : List Rule := [
  aliased "property_name", ":", .ref "_value",
  many (.seq [opt ",", .ref "_value"]), opt (.ref "important")]

def withArguments (name : Rule) (arguments : String) : Rule :=
  .seq [.shownAs "class_name" true name, aliased "arguments" (.ref arguments)]

def selectorArguments (r : Rule) : Rule := .seq [litImmediate "(", sep "," r, ")"]

def anyArguments : Rule := selectorArguments (.choice [.ref "_selector", .repeat1 (.ref "_value")])

/-- A multiple of n with something added, for choosing children by their places. -/
def placesPattern : Pattern :=
  .seq [.opt (.text "-"), .many (.set CharSet.digit), .text "n", .many (.set CharSet.space),
    .opt (.seq [.text "+", .many (.set CharSet.space), digits])]

def grammar : Grammar where
  rules := [
    ("stylesheet", many (.ref "_top_level_item")),
    ("_top_level_item", .choice (blockItems ++ [.ref "at_rule"])),
    ("import_statement", .seq ["@import", .ref "_value", sep "," (.ref "_query"), ";"]),
    ("media_statement", .seq ["@media", sep1 "," (.ref "_query"), .ref "block"]),
    ("charset_statement", .seq ["@charset", .ref "_value", ";"]),
    ("namespace_statement", .seq ["@namespace", opt (aliased "namespace_name"),
      .choice [.ref "string_value", .ref "call_expression"], ";"]),
    ("keyframes_statement", .seq [
      .choice ["@keyframes", aliased "at_keyword"
        (pat (.seq [.text "@", .some (.set (CharSet.lower ++ CharSet.of "-")), .text "keyframes"]))],
      aliased "keyframes_name", .ref "keyframe_block_list"]),
    ("keyframe_block_list", .seq ["\x7b", many (.ref "keyframe_block"), "\x7d"]),
    ("keyframe_block", .seq [
      sep1 "," (.choice [.ref "from", .ref "to", .ref "integer_value", .ref "float_value"]),
      .ref "block"]),
    ("from", lit "from"),
    ("to", lit "to"),
    ("supports_statement", .seq ["@supports", .ref "_query", .ref "block"]),
    ("scope_statement", .seq ["@scope", opt (.seq ["(", .ref "_selector", ")"]),
      opt (.seq ["to", "(", .ref "_selector", ")"]), .ref "block"]),
    ("postcss_statement", level (-1) (.seq [.ref "at_keyword", many (.ref "_value"), ";"])),
    ("at_rule", .seq [.ref "at_keyword", sep "," (.ref "_query"), .choice [";", .ref "block"]]),
    ("rule_set", .seq [.ref "selectors", .ref "block"]),
    ("selectors", sep1 "," (.ref "_selector")),
    ("block", .seq ["\x7b", many (.ref "_block_item"),
      opt (aliased "declaration" (.ref "last_declaration")), "\x7d"]),
    ("_block_item", .choice (blockItems ++ [.ref "postcss_statement", .ref "at_rule"])),
    ("_selector", .choice [.ref "universal_selector", aliased "tag_name", .ref "class_selector",
      .ref "nesting_selector", .ref "pseudo_class_selector", .ref "pseudo_element_selector",
      .ref "id_selector", .ref "attribute_selector", .ref "string_value", .ref "child_selector",
      .ref "descendant_selector", .ref "sibling_selector", .ref "adjacent_sibling_selector",
      .ref "namespace_selector"]),
    ("nesting_selector", lit "&"),
    ("universal_selector", lit "*"),
    ("class_selector", level 1 (.seq [opt (.ref "_selector"), ".",
      .ref "class_name"])),
    ("class_name", .repeat1 (.choice [.ref "identifier", .ref "escape_sequence"])),
    ("pseudo_class_selector", .seq [opt (.ref "_selector"),
      .shownAs ":" false (.ref "_pseudo_class_selector_colon"),
      .choice [
        withArguments (.choice ["has", "not", "is", "where", "host", "host-context"])
          "pseudo_class_with_selector_arguments",
        withArguments (.choice ["nth-child", "nth-last-child"]) "pseudo_class_nth_child_arguments",
        .seq [aliased "class_name", opt (aliased "arguments" (.ref "pseudo_class_arguments"))]]]),
    ("pseudo_element_selector", .seq [opt (.ref "_selector"), "::", aliased "tag_name",
      opt (aliased "arguments" (.ref "pseudo_element_arguments"))]),
    ("id_selector", .seq [opt (.ref "_selector"), "#", aliased "id_name"]),
    ("attribute_selector", .seq [opt (.ref "_selector"),
      .token { literalToken "[" with rank := 1 },
      aliased "attribute_name" (.choice [.ref "identifier", .ref "namespace_selector"]),
      opt (.seq [.choice ["=", "~=", "^=", "|=", "*=", "$="], .ref "_value"]), "]"]),
    ("child_selector", left (.seq [opt (.ref "_selector"), ">", .ref "_selector"])),
    ("descendant_selector",
      left (.seq [.ref "_selector", .ref "_descendant_operator", .ref "_selector"])),
    ("sibling_selector", left (.seq [opt (.ref "_selector"), "~", .ref "_selector"])),
    ("adjacent_sibling_selector", left (.seq [opt (.ref "_selector"), "+", .ref "_selector"])),
    ("namespace_selector", left (.seq [opt (.ref "_selector"), "|", .ref "_selector"])),
    ("pseudo_class_with_selector_arguments", selectorArguments (.ref "_selector")),
    ("pseudo_class_nth_child_arguments", level (-1) (.seq [litImmediate "(",
      .choice [aliased "plain_value" (.choice ["even", "odd"]), .ref "integer_value",
        aliased "plain_value" (.ref "_nth_functional_notation")],
      opt (.seq ["of", .ref "_selector"]), ")"])),
    ("_nth_functional_notation", pat placesPattern),
    ("pseudo_class_arguments", anyArguments),
    ("pseudo_element_arguments", anyArguments),
    ("declaration", .seq (declarationParts ++ [lit ";"])),
    ("last_declaration", level 1 (.seq declarationParts)),
    ("important", lit "!important"),
    ("_query", .choice [aliased "keyword_query", .ref "feature_query", .ref "binary_query",
      .ref "unary_query", .ref "selector_query", .ref "parenthesized_query"]),
    ("feature_query", .seq ["(", aliased "feature_name", ":", .repeat1 (.ref "_value"), ")"]),
    ("parenthesized_query", .seq ["(", .ref "_query", ")"]),
    ("binary_query", left (.seq [.ref "_query", .choice ["and", "or"], .ref "_query"])),
    ("unary_query", level 1 (.seq [.choice ["not", "only"], .ref "_query"])),
    ("selector_query", .seq ["selector", "(", .ref "_selector", ")"]),
    ("_value", level (-1) (.choice [aliased "plain_value", .ref "plain_value", .ref "color_value",
      .ref "integer_value", .ref "float_value", .ref "string_value", .ref "grid_value",
      .ref "binary_expression", .ref "parenthesized_value", .ref "call_expression",
      .ref "important"])),
    ("parenthesized_value", .seq ["(", .ref "_value", ")"]),
    ("color_value", .seq ["#", immediate (.seq [.set CharSet.hex, .set CharSet.hex, .set CharSet.hex,
      .opt (.set CharSet.hex), .opt (.set CharSet.hex), .opt (.set CharSet.hex),
      .opt (.set CharSet.hex), .opt (.set CharSet.hex)])]),
    ("string_value", .choice [stringOf "'", stringOf "\""]),
    ("escape_sequence", immediate (.seq [.text "\\",
      .alt [.some (.set CharSet.hex), .set (CharSet.except "\n")]])),
    ("integer_value", .seq [pat (.seq [sign, digits]), opt (.ref "unit")]),
    ("float_value", .seq [pat floatPattern, opt (.ref "unit")]),
    ("unit", immediate (.some (.set (CharSet.letter ++ CharSet.of "%")))),
    ("grid_value", .seq ["[", sep1 "," (.ref "_value"), "]"]),
    ("call_expression", .seq [aliased "function_name", .ref "arguments"]),
    ("binary_expression", left (.seq [.ref "_value", .choice ["+", "-", "*", "/"], .ref "_value"])),
    ("arguments", .seq [litImmediate "(",
      sep (.choice [",", ";"]) (.repeat1 (.ref "_value")), ")"]),
    ("identifier", pat identifierPattern),
    ("at_keyword", pat (.seq [.text "@", .some (.set (CharSet.letter ++ CharSet.of "-_"))])),
    ("js_comment", .token { pattern := .seq [.text "//", .many (.set (CharSet.except "\n"))], rank := -1 }),
    ("comment", pat commentPattern),
    ("plain_value", pat plainPattern)]
  blanks := CharSet.space
  extras := ["comment", "js_comment"]
  externals := [⟨"_descendant_operator", false⟩, ⟨"_pseudo_class_selector_colon", false⟩,
    ⟨"__error_recovery", false⟩]
  inlined := ["_top_level_item", "_block_item"]

def blank (text : Array Char) (i : Nat) : Bool :=
  match text[i]? with
  | some c => CharSet.space.has c
  | none => false

def skipBlanks (text : Array Char) : Nat → Nat → Nat
  | 0, i => i
  | fuel + 1, i => if blank text i then skipBlanks text fuel (i + 1) else i

/-- Whether a block opens before a declaration or a block ends. -/
def opensBlock (text : Array Char) : Nat → Nat → Bool
  | 0, _ => false
  | fuel + 1, i =>
    match text[i]? with
    | none => false
    | some c =>
      if c = ';' || c = '\x7d' then false
      else if c = '\x7b' then true
      else opensBlock text fuel (i + 1)

def startsSelector (c : Char) : Bool :=
  c = '#' || c = '.' || c = '[' || c = '-' || c = '*' || c.isAlphanum

/-- Blanks between selectors, and colons that begin a pseudo class and not a value. -/
def scan (valid : Nat → Bool) (text : Array Char) (pos : Nat) : Option (Hit Empty) :=
  if valid 2 then none
  else
    let i := skipBlanks text text.size pos
    let c := text[i]?
    if blank text pos && valid 0 then
      match c with
      | some c =>
        if startsSelector c ||
          (c = ':' && !blank text (i + 1) && opensBlock text text.size (i + 1))
        then some ⟨0, i, i, none⟩ else none
      | none => none
    else if valid 1 && c = some ':' && text[i + 1]? ≠ some ':' then
      match text[i + 1]? with
      | none => none
      | some d =>
        if d ≠ ';' && d ≠ '\x7d' && opensBlock text text.size (i + 2) then some ⟨1, i, i + 1, none⟩
        else none
    else none

def scanner : Scanner Empty := ⟨fun _ => scan⟩

def engine : Thunk Engine := Thunk.mk fun _ => .ofGrammar grammar

/-- The tree of a style sheet. -/
def tree (text : List Char) : Node := Node.ofText engine.get scanner text

end SourceSlices.Css
