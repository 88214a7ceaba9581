import SourceSlices.Python.Layout
import SourceSlices.Syntax.Tree
import SourceSlices.Text.Name

/-!
The grammar of Python, with the print and exec statements of its second version.
-/
namespace SourceSlices.Python

open Syntax Syntax.Rule

/-! ### Patterns -/

def nameClass : WideClass := ⟨"start", Text.nameStartTable⟩
def restClass : WideClass := ⟨"rest", Text.nameRestTable⟩

def namePattern : Pattern :=
  let start : CharSet := { CharSet.letter ++ CharSet.of "_" with wide := [nameClass] }
  .seq [.set start, .many (.set { start ++ CharSet.digit with wide := [nameClass, restClass] })]

/-- A prefix for a base, and digits in groups. -/
def baseLiteral (letters : String) (digits : CharSet) : Pattern :=
  .seq [.text "0", .set (CharSet.of letters),
    .some (.seq [.opt (.text "_"), .some (.set digits)]), .opt (.set (CharSet.of "Ll"))]

def digitGroups : Pattern := .some (.seq [.some (.set CharSet.digit), .opt (.text "_")])

def integerPattern : Pattern :=
  .alt [baseLiteral "xX" CharSet.hex, baseLiteral "oO" (CharSet.range '0' '7'),
    baseLiteral "bB" (CharSet.of "01"),
    .seq [digitGroups, .alt [.opt (.set (CharSet.of "Ll")), .opt (.set (CharSet.of "jJ"))]]]

def floatPattern : Pattern :=
  let exponent : Pattern :=
    .seq [.set (CharSet.of "eE"), .opt (.set (CharSet.of "+-")), digitGroups]
  .seq [.alt [.seq [digitGroups, .text ".", .opt digitGroups, .opt exponent],
      .seq [.opt digitGroups, .text ".", digitGroups, .opt exponent],
      .seq [digitGroups, exponent]],
    .opt (.set (CharSet.of "jJ"))]

def hexDigits (n : Nat) : Pattern := .seq (List.replicate n (.set CharSet.hex))
def digit : Pattern := .set CharSet.digit

def escapePattern : Pattern :=
  .seq [.text "\\", .alt [.seq [.text "u", hexDigits 4], .seq [.text "U", hexDigits 8],
    .seq [.text "x", hexDigits 2], .seq [digit, .opt digit, .opt digit],
    .seq [.opt (.text "\r"), .text "\n"], .set (CharSet.of "'\"abfrntv\\"),
    .seq [.text "N\x7b", .some (.set (CharSet.except "\x7d")), .text "\x7d"]]]

/-! ### Rules -/

def anyOf (words : List String) : Rule := .choice (words.map lit)
def flag (s : String) : Rule := opt (lit s)
def named (name : String) (r : Rule) : Rule := .shownAs name true r
def identifier : Rule := .ref "identifier"
def expression : Rule := .ref "expression"
def primary : Rule := .ref "primary_expression"
def suite : Rule := .ref "_suite"
def comma : Rule := flag ","
def keywordName : Rule := .ref "keyword_identifier"
def type' : Rule := .ref "type"

def operator (sign : String) (strength : Int) (wrap : Int → Rule → Rule := leftAt) : Rule :=
  wrap strength (.seq [.field "left" primary, .field "operator" (lit sign), .field "right" primary])

def statementRules : List (String × Rule) := [
  ("module", many (.ref "_statement")),
  ("_statement", .choice [.ref "_simple_statements", .ref "_compound_statement"]),
  ("_simple_statements", .seq [sep1 ";" (.ref "_simple_statement"), flag ";", .ref "_newline"]),
  ("_simple_statement", .choice [.ref "future_import_statement", .ref "import_statement",
    .ref "import_from_statement", .ref "print_statement", .ref "assert_statement",
    .ref "expression_statement", .ref "return_statement", .ref "delete_statement",
    .ref "raise_statement", .ref "pass_statement", .ref "break_statement",
    .ref "continue_statement", .ref "global_statement", .ref "nonlocal_statement",
    .ref "exec_statement", .ref "type_alias_statement"]),
  ("import_statement", .seq ["import", .ref "_import_list"]),
  ("import_prefix", .repeat1 "."),
  ("relative_import", .seq [.ref "import_prefix", opt (.ref "dotted_name")]),
  ("future_import_statement", .seq ["from", "__future__", "import",
    .choice [.ref "_import_list", .seq ["(", .ref "_import_list", ")"]]]),
  ("import_from_statement", .seq ["from",
    .field "module_name" (.choice [.ref "relative_import", .ref "dotted_name"]), "import",
    .choice [.ref "wildcard_import", .ref "_import_list", .seq ["(", .ref "_import_list", ")"]]]),
  ("_import_list", .seq [
    commas1 (.field "name" (.choice [.ref "dotted_name", .ref "aliased_import"])), comma]),
  ("aliased_import", .seq [.field "name" (.ref "dotted_name"), "as", .field "alias" identifier]),
  ("wildcard_import", lit "*"),
  ("print_statement", .choice [
    level 1 (.seq ["print", .ref "chevron", many (.seq [",", .field "argument" expression]), comma]),
    level (-3) (.dynamic (-1)
      (.seq ["print", commas1 (.field "argument" expression), comma]))]),
  ("chevron", .seq [">>", expression]),
  ("assert_statement", .seq ["assert", commas1 expression]),
  ("expression_statement", .choice [expression, .seq [commas1 expression, comma],
    .ref "assignment", .ref "augmented_assignment", .ref "yield"]),
  ("named_expression", .seq [.field "name" (.ref "_named_expression_lhs"), ":=",
    .field "value" expression]),
  ("_named_expression_lhs", .choice [identifier, keywordName]),
  ("return_statement", .seq ["return", opt (.ref "_expressions")]),
  ("delete_statement", .seq ["del", .ref "_expressions"]),
  ("_expressions", .choice [expression, .ref "expression_list"]),
  ("raise_statement", .seq ["raise", opt (.ref "_expressions"),
    opt (.seq ["from", .field "cause" expression])]),
  ("pass_statement", left "pass"),
  ("break_statement", left "break"),
  ("continue_statement", left "continue"),
  ("_compound_statement", .choice [.ref "if_statement", .ref "for_statement",
    .ref "while_statement", .ref "try_statement", .ref "with_statement",
    .ref "function_definition", .ref "class_definition", .ref "decorated_definition",
    .ref "match_statement"]),
  ("if_statement", .seq ["if", .field "condition" expression, ":", .field "consequence" suite,
    many (.field "alternative" (.ref "elif_clause")),
    opt (.field "alternative" (.ref "else_clause"))]),
  ("elif_clause", .seq ["elif", .field "condition" expression, ":", .field "consequence" suite]),
  ("else_clause", .seq ["else", ":", .field "body" suite]),
  ("match_statement", .seq ["match", commas1 (.field "subject" expression), comma, ":",
    .field "body" (named "block" (.ref "_match_block"))]),
  ("_match_block", .choice [
    .seq [.ref "_indent", many (.field "alternative" (.ref "case_clause")), .ref "_dedent"],
    .ref "_newline"]),
  ("case_clause", .seq ["case", commas1 (.ref "case_pattern"), comma,
    .field "guard" (opt (.ref "if_clause")), ":", .field "consequence" suite]),
  ("for_statement", .seq [flag "async", "for", .field "left" (.ref "_left_hand_side"), "in",
    .field "right" (.ref "_expressions"), ":", .field "body" suite,
    .field "alternative" (opt (.ref "else_clause"))]),
  ("while_statement", .seq ["while", .field "condition" expression, ":", .field "body" suite,
    opt (.field "alternative" (.ref "else_clause"))]),
  ("try_statement", .seq ["try", ":", .field "body" suite, .choice [
    .seq [.repeat1 (.ref "except_clause"), opt (.ref "else_clause"), opt (.ref "finally_clause")],
    .seq [.repeat1 (.ref "except_group_clause"), opt (.ref "else_clause"),
      opt (.ref "finally_clause")],
    .ref "finally_clause"]]),
  ("except_clause", .seq ["except",
    opt (.seq [expression, opt (.seq [anyOf ["as", ","], expression])]), ":", suite]),
  ("except_group_clause", .seq ["except*", .seq [expression, opt (.seq ["as", expression])], ":",
    suite]),
  ("finally_clause", .seq ["finally", ":", suite]),
  ("with_statement", .seq [flag "async", "with", .ref "with_clause", ":", .field "body" suite]),
  ("with_clause", .choice [.seq [commas1 (.ref "with_item"), comma],
    .seq ["(", commas1 (.ref "with_item"), comma, ")"]]),
  ("with_item", .dynamic 1 (.field "value" expression))]

def definitionRules : List (String × Rule) := [
  ("function_definition", .seq [flag "async", "def", .field "name" identifier,
    .field "type_parameters" (opt (.ref "type_parameter")),
    .field "parameters" (.ref "parameters"),
    opt (.seq ["->", .field "return_type" type']), ":", .field "body" suite]),
  ("parameters", .seq ["(", opt (.ref "_parameters"), ")"]),
  ("lambda_parameters", .ref "_parameters"),
  ("list_splat", .seq ["*", expression]),
  ("dictionary_splat", .seq ["**", expression]),
  ("global_statement", .seq ["global", commas1 identifier]),
  ("nonlocal_statement", .seq ["nonlocal", commas1 identifier]),
  ("exec_statement", .seq ["exec", .field "code" (.choice [.ref "string", identifier]),
    opt (.seq ["in", commas1 expression])]),
  ("type_alias_statement", .dynamic 1 (.seq ["type", .field "left" type', "=",
    .field "right" type'])),
  ("class_definition", .seq ["class", .field "name" identifier,
    .field "type_parameters" (opt (.ref "type_parameter")),
    .field "superclasses" (opt (.ref "argument_list")), ":", .field "body" suite]),
  ("type_parameter", .seq ["[", commas1 type', comma, "]"]),
  ("parenthesized_list_splat", level 1 (.seq ["(", .choice [
    named "parenthesized_expression" (.ref "parenthesized_list_splat"), .ref "list_splat"], ")"])),
  ("argument_list", .seq ["(", opt (commas1 (.choice [expression, .ref "list_splat",
    .ref "dictionary_splat",
    named "parenthesized_expression" (.ref "parenthesized_list_splat"),
    .ref "keyword_argument"])), comma, ")"]),
  ("decorated_definition", .seq [.repeat1 (.ref "decorator"),
    .field "definition" (.choice [.ref "class_definition", .ref "function_definition"])]),
  ("decorator", .seq ["@", expression, .ref "_newline"]),
  ("_suite", .choice [named "block" (.ref "_simple_statements"),
    .seq [.ref "_indent", .ref "block"], named "block" (.ref "_newline")]),
  ("block", .seq [many (.ref "_statement"), .ref "_dedent"]),
  ("expression_list", right (.seq [expression,
    .choice [",", .seq [.repeat1 (.seq [",", expression]), comma]]])),
  ("dotted_name", level 1 (sep1 "." identifier))]

def matchRules : List (String × Rule) := [
  ("case_pattern", level 1 (.choice [named "as_pattern" (.ref "_as_pattern"),
    .ref "keyword_pattern", .ref "_simple_pattern"])),
  ("_simple_pattern", level 1 (.choice [.ref "class_pattern", .ref "splat_pattern",
    .ref "union_pattern", named "list_pattern" (.ref "_list_pattern"),
    named "tuple_pattern" (.ref "_tuple_pattern"), .ref "dict_pattern", .ref "string",
    .ref "concatenated_string", .ref "true", .ref "false", .ref "none",
    .seq [flag "-", .choice [.ref "integer", .ref "float"]], .ref "complex_pattern",
    .ref "dotted_name", "_"])),
  ("_as_pattern", .seq [.ref "case_pattern", "as", identifier]),
  ("union_pattern", right (.seq [.ref "_simple_pattern",
    .repeat1 (left (.seq ["|", .ref "_simple_pattern"]))])),
  ("_list_pattern", .seq ["[", opt (.seq [commas1 (.ref "case_pattern"), comma]), "]"]),
  ("_tuple_pattern", .seq ["(", opt (.seq [commas1 (.ref "case_pattern"), comma]), ")"]),
  ("dict_pattern", .seq ["\x7b",
    opt (.seq [commas1 (.choice [.ref "_key_value_pattern", .ref "splat_pattern"]), comma]),
    "\x7d"]),
  ("_key_value_pattern", .seq [.field "key" (.ref "_simple_pattern"), ":",
    .field "value" (.ref "case_pattern")]),
  ("keyword_pattern", .seq [identifier, "=", .ref "_simple_pattern"]),
  ("splat_pattern", level 1 (.seq [anyOf ["*", "**"], .choice [identifier, "_"]])),
  ("class_pattern", .seq [.ref "dotted_name", "(",
    opt (.seq [commas1 (.ref "case_pattern"), comma]), ")"]),
  ("complex_pattern", level 1 (.seq [flag "-", .choice [.ref "integer", .ref "float"],
    anyOf ["+", "-"], .choice [.ref "integer", .ref "float"]]))]

def patternRules : List (String × Rule) := [
  ("_parameters", .seq [commas1 (.ref "parameter"), comma]),
  ("_patterns", .seq [commas1 (.ref "pattern"), comma]),
  ("parameter", .choice [identifier, .ref "typed_parameter", .ref "default_parameter",
    .ref "typed_default_parameter", .ref "list_splat_pattern", .ref "tuple_pattern",
    .ref "keyword_separator", .ref "positional_separator", .ref "dictionary_splat_pattern"]),
  ("pattern", .choice [identifier, keywordName, .ref "subscript", .ref "attribute",
    .ref "list_splat_pattern", .ref "tuple_pattern", .ref "list_pattern"]),
  ("tuple_pattern", .seq ["(", opt (.ref "_patterns"), ")"]),
  ("list_pattern", .seq ["[", opt (.ref "_patterns"), "]"]),
  ("default_parameter", .seq [.field "name" (.choice [identifier, .ref "tuple_pattern"]), "=",
    .field "value" expression]),
  ("typed_default_parameter", level (-1) (.seq [.field "name" identifier, ":",
    .field "type" type', "=", .field "value" expression])),
  ("list_splat_pattern", .seq ["*",
    .choice [identifier, keywordName, .ref "subscript", .ref "attribute"]]),
  ("dictionary_splat_pattern", .seq ["**",
    .choice [identifier, keywordName, .ref "subscript", .ref "attribute"]]),
  ("as_pattern", left (.seq [expression, "as",
    .field "alias" (named "as_pattern_target" expression)]))]

def expressionRules : List (String × Rule) := [
  ("_expression_within_for_in_clause", .choice [expression,
    named "lambda" (.ref "lambda_within_for_in_clause")]),
  ("expression", .choice [.ref "comparison_operator", .ref "not_operator",
    .ref "boolean_operator", .ref "lambda", primary, .ref "conditional_expression",
    .ref "named_expression", .ref "as_pattern"]),
  ("primary_expression", .choice [.ref "await", .ref "binary_operator", identifier, keywordName,
    .ref "string", .ref "concatenated_string", .ref "integer", .ref "float", .ref "true",
    .ref "false", .ref "none", .ref "unary_operator", .ref "attribute", .ref "subscript",
    .ref "call", .ref "list", .ref "list_comprehension", .ref "dictionary",
    .ref "dictionary_comprehension", .ref "set", .ref "set_comprehension", .ref "tuple",
    .ref "parenthesized_expression", .ref "generator_expression", .ref "ellipsis",
    named "list_splat" (.ref "list_splat_pattern")]),
  ("not_operator", level 12 (.seq ["not", .field "argument" expression])),
  ("boolean_operator", .choice [
    leftAt 11 (.seq [.field "left" expression, .field "operator" "and", .field "right" expression]),
    leftAt 10 (.seq [.field "left" expression, .field "operator" "or",
      .field "right" expression])]),
  ("binary_operator", .choice [operator "+" 18, operator "-" 18, operator "*" 19, operator "@" 19,
    operator "/" 19, operator "%" 19, operator "//" 19, operator "**" 21 rightAt, operator "|" 14,
    operator "&" 15, operator "^" 16, operator "<<" 17, operator ">>" 17]),
  ("unary_operator", level 20 (.seq [.field "operator" (anyOf ["+", "-", "~"]),
    .field "argument" primary])),
  ("_not_in", .seq ["not", "in"]),
  ("_is_not", .seq ["is", "not"]),
  ("comparison_operator", leftAt 13 (.seq [primary, .repeat1 (.seq [
    .field "operators" (.choice ["<", "<=", "==", "!=", ">=", ">", "<>", "in",
      .shownAs "not in" false (.ref "_not_in"), "is", .shownAs "is not" false (.ref "_is_not")]),
    primary])])),
  ("lambda", level (-2) (.seq ["lambda", .field "parameters" (opt (.ref "lambda_parameters")), ":",
    .field "body" expression])),
  ("lambda_within_for_in_clause", .seq ["lambda",
    .field "parameters" (opt (.ref "lambda_parameters")), ":",
    .field "body" (.ref "_expression_within_for_in_clause")]),
  ("assignment", .seq [.field "left" (.ref "_left_hand_side"), .choice [
    .seq ["=", .field "right" (.ref "_right_hand_side")],
    .seq [":", .field "type" type'],
    .seq [":", .field "type" type', "=", .field "right" (.ref "_right_hand_side")]]]),
  ("augmented_assignment", .seq [.field "left" (.ref "_left_hand_side"),
    .field "operator" (anyOf ["+=", "-=", "*=", "/=", "@=", "//=", "%=", "**=", ">>=", "<<=", "&=",
      "^=", "|="]),
    .field "right" (.ref "_right_hand_side")]),
  ("_left_hand_side", .choice [.ref "pattern", .ref "pattern_list"]),
  ("pattern_list", .seq [.ref "pattern",
    .choice [",", .seq [.repeat1 (.seq [",", .ref "pattern"]), comma]]]),
  ("_right_hand_side", .choice [expression, .ref "expression_list", .ref "assignment",
    .ref "augmented_assignment", .ref "pattern_list", .ref "yield"]),
  ("yield", right (.seq ["yield",
    .choice [.seq ["from", expression], opt (.ref "_expressions")]])),
  ("attribute", level 22 (.seq [.field "object" primary, ".", .field "attribute" identifier])),
  ("subscript", level 22 (.seq [.field "value" primary, "[",
    commas1 (.field "subscript" (.choice [expression, .ref "slice"])), comma, "]"])),
  ("slice", .seq [opt expression, ":", opt expression, opt (.seq [":", opt expression])]),
  ("ellipsis", lit "..."),
  ("call", level 22 (.seq [.field "function" primary,
    .field "arguments" (.choice [.ref "generator_expression", .ref "argument_list"])])),
  ("typed_parameter", level (-1) (.seq [
    .choice [identifier, .ref "list_splat_pattern", .ref "dictionary_splat_pattern"], ":",
    .field "type" type'])),
  ("type", .choice [level 1 expression, .ref "splat_type", .ref "generic_type", .ref "union_type",
    .ref "constrained_type", .ref "member_type"]),
  ("splat_type", level 1 (.seq [anyOf ["*", "**"], identifier])),
  ("generic_type", level 1 (.seq [.choice [identifier, named "identifier" "type"],
    .ref "type_parameter"])),
  ("union_type", left (.seq [type', "|", type'])),
  ("constrained_type", right (.seq [type', ":", type'])),
  ("member_type", .seq [type', ".", identifier]),
  ("keyword_argument", .seq [.field "name" (.choice [identifier, keywordName]), "=",
    .field "value" expression])]

def collectionRules : List (String × Rule) := [
  ("list", .seq ["[", opt (.ref "_collection_elements"), "]"]),
  ("set", .seq ["\x7b", .ref "_collection_elements", "\x7d"]),
  ("tuple", .seq ["(", opt (.ref "_collection_elements"), ")"]),
  ("dictionary", .seq ["\x7b", opt (commas1 (.choice [.ref "pair", .ref "dictionary_splat"])),
    comma, "\x7d"]),
  ("pair", .seq [.field "key" expression, ":", .field "value" expression]),
  ("list_comprehension", .seq ["[", .field "body" expression, .ref "_comprehension_clauses", "]"]),
  ("dictionary_comprehension", .seq ["\x7b", .field "body" (.ref "pair"),
    .ref "_comprehension_clauses", "\x7d"]),
  ("set_comprehension", .seq ["\x7b", .field "body" expression, .ref "_comprehension_clauses",
    "\x7d"]),
  ("generator_expression", .seq ["(", .field "body" expression, .ref "_comprehension_clauses",
    ")"]),
  ("_comprehension_clauses", .seq [.ref "for_in_clause",
    many (.choice [.ref "for_in_clause", .ref "if_clause"])]),
  ("parenthesized_expression", level 1 (.seq ["(", .choice [expression, .ref "yield"], ")"])),
  ("_collection_elements", .seq [
    commas1 (.choice [expression, .ref "yield", .ref "list_splat",
      .ref "parenthesized_list_splat"]), comma]),
  ("for_in_clause", left (.seq [flag "async", "for", .field "left" (.ref "_left_hand_side"), "in",
    .field "right" (commas1 (.ref "_expression_within_for_in_clause")), comma])),
  ("if_clause", .seq ["if", expression]),
  ("conditional_expression", rightAt (-1) (.seq [expression, "if", expression, "else",
    expression]))]

def lexemeRules : List (String × Rule) := [
  ("concatenated_string", .seq [.ref "string", .repeat1 (.ref "string")]),
  ("string", .seq [.ref "string_start",
    many (.choice [.ref "interpolation", .ref "string_content"]), .ref "string_end"]),
  ("string_content", right (.repeat1 (.choice [.ref "escape_interpolation",
    .ref "escape_sequence", .ref "_not_escape_sequence", .ref "_string_content"]))),
  ("interpolation", .seq ["\x7b", .field "expression" (.ref "_f_expression"), flag "=",
    opt (.field "type_conversion" (.ref "type_conversion")),
    opt (.field "format_specifier" (.ref "format_specifier")), "\x7d"]),
  ("_f_expression", .choice [expression, .ref "expression_list", .ref "pattern_list",
    .ref "yield"]),
  ("escape_sequence", .token { pattern := escapePattern, rank := 1, immediate := true }),
  ("_not_escape_sequence", litImmediate "\\"),
  ("format_specifier", .seq [":", many (.choice [
    .token { pattern := .some (.set (CharSet.except "\x7b\x7d\n")), rank := 1 },
    named "interpolation" (.ref "format_expression")])]),
  ("format_expression", .seq ["\x7b", .field "expression" (.ref "_f_expression"), flag "=",
    opt (.field "type_conversion" (.ref "type_conversion")),
    opt (.field "format_specifier" (.ref "format_specifier")), "\x7d"]),
  ("type_conversion", pat (.seq [.text "!", .set CharSet.lower])),
  ("integer", pat integerPattern),
  ("float", pat floatPattern),
  ("identifier", pat namePattern),
  ("keyword_identifier", .choice [
    level (-3) (named "identifier" (anyOf ["print", "exec", "async", "await"])),
    named "identifier" (anyOf ["type", "match"])]),
  ("true", lit "True"),
  ("false", lit "False"),
  ("none", lit "None"),
  ("await", level 20 (.seq ["await", primary])),
  ("comment", pat (.seq [.text "#", .many (.set (CharSet.except "\n"))])),
  ("line_continuation", pat (.seq [.text "\\",
    .alt [.seq [.opt (.text "\r"), .text "\n"], .text "\x00"]])),
  ("positional_separator", lit "/"),
  ("keyword_separator", lit "*")]

def grammar : Grammar where
  rules := statementRules ++ definitionRules ++ matchRules ++ patternRules ++ expressionRules ++
    collectionRules ++ lexemeRules
  blanks := CharSet.space ++ ⟨[(0x200b, 0x200b), (0x2060, 0x2060), (0xfeff, 0xfeff)], false, []⟩
  extras := ["comment", "line_continuation"]
  externals := [⟨"_newline", false⟩, ⟨"_indent", false⟩, ⟨"_dedent", false⟩,
    ⟨"string_start", false⟩, ⟨"_string_content", false⟩, ⟨"escape_interpolation", false⟩,
    ⟨"string_end", false⟩, ⟨"comment", false⟩, ⟨"]", true⟩, ⟨")", true⟩, ⟨"\x7d", true⟩,
    ⟨"except", true⟩]
  inlined := ["_simple_statement", "_compound_statement", "_suite", "_expressions",
    "_left_hand_side", "keyword_identifier"]
  supertypes := ["expression", "primary_expression", "pattern", "parameter"]
  word := some "identifier"

def engine : Thunk Engine := Thunk.mk fun _ => .ofGrammar grammar

/-- The tree of a module. -/
def tree (text : List Char) : Node := Node.ofText engine.get scanner text

end SourceSlices.Python
