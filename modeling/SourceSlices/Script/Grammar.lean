import SourceSlices.Script.Lexemes
import SourceSlices.Syntax.Tree

/-!
The grammar of JavaScript with markup.
-/
namespace SourceSlices.Script

open Syntax Syntax.Rule

def flag (s : String) : Rule := opt (lit s)
def renamed (name : String) (r : Rule) : Rule := .shownAs name true r
def name : Rule := .ref "identifier"
def reservedName : Rule := renamed "identifier" (.ref "_reserved_identifier")
def propertyName : Rule := renamed "property_identifier" name
def memberName : Rule := renamed "member_expression" (.ref "decorator_member_expression")

/-- Text of a literal. -/
def fragment (p : Pattern) : Rule := .token { pattern := p, rank := 1, immediate := true }

def stringRule (quote piece : String) (escapes : Rule) : Rule :=
  .seq [quote, many (.choice [renamed "string_fragment" (.ref piece), escapes]), quote]

def decorators : Rule := many (.field "decorator" (.ref "decorator"))
def variableName : Rule := .field "name" (.choice [name, .ref "_destructuring_pattern"])
def callSignature : Rule := .field "parameters" (.ref "formal_parameters")
def bodyBlock : Rule := .field "body" (.ref "statement_block")
def lineEnd : Rule := opt (.ref "_automatic_semicolon")

def binary (sign level : String) (left : Rule := .ref "expression")
    (wrap : String → Rule → Rule := leftOf) : Rule :=
  wrap level (.seq [.field "left" left, .field "operator" (lit sign),
    .field "right" (.ref "expression")])

def anyOf (words : List String) : Rule := .choice (words.map lit)

def compoundSigns : List String :=
  ["+=", "-=", "*=", "/=", "%=", "^=", "&=", "|=", ">>=", ">>>=", "<<=", "**=", "&&=", "||=", "??="]

def reservedWords : List String :=
  ["break", "case", "catch", "class", "const", "continue", "debugger", "default", "delete", "do",
    "else", "export", "extends", "false", "finally", "for", "function", "if", "import", "in",
    "instanceof", "new", "null", "return", "super", "switch", "this", "throw", "true", "try",
    "typeof", "var", "void", "while", "with"]

def moduleRules : List (String × Rule) := [
  ("program", .seq [opt (.ref "hash_bang_line"), many (.ref "statement")]),
  ("hash_bang_line", pat (.seq [.text "#!", .many anyButLineEnd])),
  ("export_statement", .choice [
    .seq ["export", .choice [
      .seq ["*", .ref "_from_clause"],
      .seq [.ref "namespace_export", .ref "_from_clause"],
      .seq [.ref "export_clause", .ref "_from_clause"],
      .ref "export_clause"], .ref "_semicolon"],
    .seq [decorators, "export", .choice [
      .field "declaration" (.ref "declaration"),
      .seq ["default", .choice [.field "declaration" (.ref "declaration"),
        .seq [.field "value" (.ref "expression"), .ref "_semicolon"]]]]]]),
  ("namespace_export", .seq ["*", "as", .ref "_module_export_name"]),
  ("export_clause", .seq ["\x7b", commas (.ref "export_specifier"), flag ",", "\x7d"]),
  ("export_specifier", .seq [.field "name" (.ref "_module_export_name"),
    opt (.seq ["as", .field "alias" (.ref "_module_export_name")])]),
  ("_module_export_name", .choice [name, .ref "string", "default"]),
  ("declaration", .choice [.ref "function_declaration", .ref "generator_function_declaration",
    .ref "class_declaration", .ref "lexical_declaration", .ref "variable_declaration",
    .ref "using_declaration"]),
  ("import", lit "import"),
  ("import_statement", .seq ["import",
    .choice [.seq [.ref "import_clause", .ref "_from_clause"], .field "source" (.ref "string")],
    opt (.ref "import_attribute"), .ref "_semicolon"]),
  ("import_clause", .choice [.ref "namespace_import", .ref "named_imports",
    .seq [name, opt (.seq [",", .choice [.ref "namespace_import", .ref "named_imports"]])]]),
  ("_from_clause", .seq ["from", .field "source" (.ref "string")]),
  ("namespace_import", .seq ["*", "as", name]),
  ("named_imports", .seq ["\x7b", commas (.ref "import_specifier"), flag ",", "\x7d"]),
  ("import_specifier", .choice [.field "name" name,
    .seq [.field "name" (.ref "_module_export_name"), "as", .field "alias" name]]),
  ("import_attribute", .seq ["with", .ref "object"])]

def statementRules : List (String × Rule) := [
  ("statement", .choice [.ref "export_statement", .ref "import_statement",
    .ref "debugger_statement", .ref "expression_statement", .ref "declaration",
    .ref "statement_block", .ref "if_statement", .ref "switch_statement", .ref "for_statement",
    .ref "for_in_statement", .ref "while_statement", .ref "do_statement", .ref "try_statement",
    .ref "with_statement", .ref "break_statement", .ref "continue_statement",
    .ref "return_statement", .ref "throw_statement", .ref "empty_statement",
    .ref "labeled_statement"]),
  ("expression_statement", .seq [.ref "_expressions", .ref "_semicolon"]),
  ("variable_declaration", .seq ["var", commas1 (.ref "variable_declarator"), .ref "_semicolon"]),
  ("lexical_declaration", .seq [.field "kind" (anyOf ["let", "const"]),
    commas1 (.ref "variable_declarator"), .ref "_semicolon"]),
  ("using_declaration", .seq [.field "kind" (.choice ["using", .seq ["await", "using"]]),
    commas1 (.ref "variable_declarator"), .ref "_semicolon"]),
  ("variable_declarator", .seq [variableName, opt (.ref "_initializer")]),
  ("statement_block", right (.seq ["\x7b", many (.ref "statement"), "\x7d", lineEnd])),
  ("else_clause", .seq ["else", .ref "statement"]),
  ("if_statement", right (.seq ["if", .field "condition" (.ref "parenthesized_expression"),
    .field "consequence" (.ref "statement"), opt (.field "alternative" (.ref "else_clause"))])),
  ("switch_statement", .seq ["switch", .field "value" (.ref "parenthesized_expression"),
    .field "body" (.ref "switch_body")]),
  ("for_statement", .seq ["for", "(",
    .choice [.field "initializer" (.choice [.ref "lexical_declaration", .ref "variable_declaration"]),
      .seq [.field "initializer" (.ref "_expressions"), ";"],
      .field "initializer" (.ref "empty_statement")],
    .choice [.seq [.field "condition" (.ref "_expressions"), ";"],
      .field "condition" (.ref "empty_statement")],
    .field "increment" (opt (.ref "_expressions")), ")", .field "body" (.ref "statement")]),
  ("for_in_statement", .seq ["for", flag "await", .ref "_for_header",
    .field "body" (.ref "statement")]),
  ("_for_header", .seq ["(", .choice [
      .field "left" (.choice [.ref "_lhs_expression", .ref "parenthesized_expression"]),
      .seq [.field "kind" "var", .field "left" (.choice [name, .ref "_destructuring_pattern"]),
        opt (.ref "_initializer")],
      .seq [.field "kind" (anyOf ["let", "const"]),
        .field "left" (.choice [name, .ref "_destructuring_pattern"]), lineEnd]],
    .field "operator" (anyOf ["in", "of"]), .field "right" (.ref "_expressions"), ")"]),
  ("while_statement", .seq ["while", .field "condition" (.ref "parenthesized_expression"),
    .field "body" (.ref "statement")]),
  ("do_statement", right (.seq ["do", .field "body" (.ref "statement"), "while",
    .field "condition" (.ref "parenthesized_expression"), opt (.ref "_semicolon")])),
  ("try_statement", .seq ["try", bodyBlock, opt (.field "handler" (.ref "catch_clause")),
    opt (.field "finalizer" (.ref "finally_clause"))]),
  ("with_statement", .seq ["with", .field "object" (.ref "parenthesized_expression"),
    .field "body" (.ref "statement")]),
  ("break_statement", .seq ["break",
    .field "label" (opt (renamed "statement_identifier" name)), .ref "_semicolon"]),
  ("continue_statement", .seq ["continue",
    .field "label" (opt (renamed "statement_identifier" name)), .ref "_semicolon"]),
  ("debugger_statement", .seq ["debugger", .ref "_semicolon"]),
  ("return_statement", .seq ["return", opt (.ref "_expressions"), .ref "_semicolon"]),
  ("throw_statement", .seq ["throw", .ref "_expressions", .ref "_semicolon"]),
  ("empty_statement", lit ";"),
  ("labeled_statement", .dynamic (-1) (.seq [
    .field "label" (renamed "statement_identifier" (.choice [name, .ref "_reserved_identifier"])),
    ":", .field "body" (.ref "statement")])),
  ("switch_body", .seq ["\x7b", many (.choice [.ref "switch_case", .ref "switch_default"]), "\x7d"]),
  ("switch_case", .seq ["case", .field "value" (.ref "_expressions"), ":",
    .field "body" (many (.ref "statement"))]),
  ("switch_default", .seq ["default", ":", .field "body" (many (.ref "statement"))]),
  ("catch_clause", .seq ["catch",
    opt (.seq ["(", .field "parameter" (.choice [name, .ref "_destructuring_pattern"]), ")"]),
    bodyBlock]),
  ("finally_clause", .seq ["finally", bodyBlock]),
  ("parenthesized_expression", .seq ["(", .ref "_expressions", ")"])]

def valueRules : List (String × Rule) := [
  ("_expressions", .choice [.ref "expression", .ref "sequence_expression"]),
  ("expression", .choice [.ref "primary_expression", .ref "_jsx_element",
    .ref "assignment_expression", .ref "augmented_assignment_expression", .ref "await_expression",
    .ref "unary_expression", .ref "binary_expression", .ref "ternary_expression",
    .ref "update_expression", .ref "new_expression", .ref "yield_expression"]),
  ("primary_expression", .choice [.ref "subscript_expression", .ref "member_expression",
    .ref "parenthesized_expression", .ref "_identifier", reservedName, .ref "this", .ref "super",
    .ref "number", .ref "string", .ref "template_string", .ref "regex", .ref "true", .ref "false",
    .ref "null", .ref "object", .ref "array", .ref "function_expression", .ref "arrow_function",
    .ref "generator_function", .ref "class", .ref "meta_property", .ref "call_expression"]),
  ("yield_expression", right (.seq ["yield",
    .choice [.seq ["*", .ref "expression"], opt (.ref "expression")]])),
  ("object", at' "object" (.seq ["\x7b",
    commas (opt (.choice [.ref "pair", .ref "spread_element", .ref "method_definition",
      renamed "shorthand_property_identifier" (.choice [name, .ref "_reserved_identifier"])])),
    "\x7d"])),
  ("object_pattern", at' "object" (.seq ["\x7b",
    commas (opt (.choice [.ref "pair_pattern", .ref "rest_pattern", .ref "object_assignment_pattern",
      renamed "shorthand_property_identifier_pattern"
        (.choice [name, .ref "_reserved_identifier"])])),
    "\x7d"])),
  ("assignment_pattern", .seq [.field "left" (.ref "pattern"), "=",
    .field "right" (.ref "expression")]),
  ("object_assignment_pattern", .seq [
    .field "left" (.choice [
      renamed "shorthand_property_identifier_pattern" (.choice [.ref "_reserved_identifier", name]),
      .ref "_destructuring_pattern"]),
    "=", .field "right" (.ref "expression")]),
  ("array", .seq ["[", commas (opt (.choice [.ref "expression", .ref "spread_element"])), "]"]),
  ("array_pattern", .seq ["[", commas (opt (.choice [.ref "pattern", .ref "assignment_pattern"])),
    "]"])]

def markupRules : List (String × Rule) := [
  ("_jsx_element", .choice [.ref "jsx_element", .ref "jsx_self_closing_element"]),
  ("jsx_element", .seq [.field "open_tag" (.ref "jsx_opening_element"), many (.ref "_jsx_child"),
    .field "close_tag" (.ref "jsx_closing_element")]),
  ("html_character_reference", pat entityPattern),
  ("jsx_expression", .seq ["\x7b",
    opt (.choice [.ref "expression", .ref "sequence_expression", .ref "spread_element"]), "\x7d"]),
  ("_jsx_child", .choice [.ref "jsx_text", .ref "html_character_reference", .ref "_jsx_element",
    .ref "jsx_expression"]),
  ("jsx_opening_element", .dynamic (-1) (.seq ["<",
    opt (.seq [.field "name" (.ref "_jsx_element_name"),
      many (.field "attribute" (.ref "_jsx_attribute"))]), ">"])),
  ("jsx_identifier", pat markupNamePattern),
  ("_jsx_identifier", .choice [renamed "identifier" (.ref "jsx_identifier"), name]),
  ("nested_identifier", at' "member" (.seq [
    .field "object" (.choice [name, renamed "member_expression" (.ref "nested_identifier")]), ".",
    .field "property" propertyName])),
  ("jsx_namespace_name", .seq [.ref "_jsx_identifier", ":", .ref "_jsx_identifier"]),
  ("_jsx_element_name", .choice [.ref "_jsx_identifier",
    renamed "member_expression" (.ref "nested_identifier"), .ref "jsx_namespace_name"]),
  ("jsx_closing_element", .seq ["</", opt (.field "name" (.ref "_jsx_element_name")), ">"]),
  ("jsx_self_closing_element", .seq ["<", .field "name" (.ref "_jsx_element_name"),
    many (.field "attribute" (.ref "_jsx_attribute")), "/>"]),
  ("_jsx_attribute", .choice [.ref "jsx_attribute", .ref "jsx_expression"]),
  ("_jsx_attribute_name", .choice [
    .anyName (renamed "property_identifier" (.ref "_jsx_identifier")), .ref "jsx_namespace_name"]),
  ("jsx_attribute", .seq [.ref "_jsx_attribute_name",
    opt (.seq ["=", .ref "_jsx_attribute_value"])]),
  ("_jsx_string", .choice [
    stringRule "\"" "unescaped_double_jsx_string_fragment" (.ref "html_character_reference"),
    stringRule "'" "unescaped_single_jsx_string_fragment" (.ref "html_character_reference")]),
  ("unescaped_double_jsx_string_fragment", fragment (attributeText "\"")),
  ("unescaped_single_jsx_string_fragment", fragment (attributeText "'")),
  ("_jsx_attribute_value", .choice [renamed "string" (.ref "_jsx_string"), .ref "jsx_expression",
    .ref "_jsx_element"])]

def functionRules : List (String × Rule) := [
  ("class", at' "literal" (.seq [decorators, "class", .field "name" (opt name),
    opt (.ref "class_heritage"), .field "body" (.ref "class_body")])),
  ("class_declaration", at' "declare" (.seq [decorators, "class", .field "name" name,
    opt (.ref "class_heritage"), .field "body" (.ref "class_body"), lineEnd])),
  ("class_heritage", .seq ["extends", .ref "expression"]),
  ("function_expression", at' "literal" (.seq [flag "async", "function", .field "name" (opt name),
    .ref "_call_signature", bodyBlock])),
  ("function_declaration", rightOf "declare" (.seq [flag "async", "function", .field "name" name,
    .ref "_call_signature", bodyBlock, lineEnd])),
  ("generator_function", at' "literal" (.seq [flag "async", "function", "*",
    .field "name" (opt name), .ref "_call_signature", bodyBlock])),
  ("generator_function_declaration", rightOf "declare" (.seq [flag "async", "function", "*",
    .field "name" name, .ref "_call_signature", bodyBlock, lineEnd])),
  ("arrow_function", .seq [flag "async",
    .choice [.field "parameter" (.choice [reservedName, name]), .ref "_call_signature"], "=>",
    .field "body" (.choice [.ref "expression", .ref "statement_block"])]),
  ("_call_signature", callSignature),
  ("_formal_parameter", .choice [.ref "pattern", .ref "assignment_pattern"])]

def expressionRules : List (String × Rule) := [
  ("optional_chain", lit "?."),
  ("call_expression", .choice [
    at' "call" (.seq [.field "function" (.choice [.ref "expression", .ref "import"]),
      .field "arguments" (.ref "arguments")]),
    at' "template_call" (.seq [
      .field "function" (.choice [.ref "primary_expression", .ref "new_expression"]),
      .field "arguments" (.ref "template_string")]),
    at' "member" (.seq [.field "function" (.ref "primary_expression"),
      .field "optional_chain" (.ref "optional_chain"), .field "arguments" (.ref "arguments")])]),
  ("new_expression", rightOf "new" (.seq ["new",
    .field "constructor" (.choice [.ref "primary_expression", .ref "new_expression"]),
    .field "arguments" (opt (.dynamic 1 (.ref "arguments")))])),
  ("await_expression", at' "unary_void" (.seq ["await", .ref "expression"])),
  ("member_expression", at' "member" (.seq [
    .field "object" (.choice [.ref "expression", .ref "primary_expression", .ref "import"]),
    .choice [".", .field "optional_chain" (.ref "optional_chain")],
    .field "property" (.choice [.ref "private_property_identifier", .anyName propertyName])])),
  ("subscript_expression", rightOf "member" (.seq [
    .field "object" (.choice [.ref "expression", .ref "primary_expression"]),
    opt (.field "optional_chain" (.ref "optional_chain")),
    "[", .field "index" (.ref "_expressions"), "]"])),
  ("_lhs_expression", .choice [.ref "member_expression", .ref "subscript_expression",
    .ref "_identifier", reservedName, .ref "_destructuring_pattern"]),
  ("assignment_expression", rightOf "assign" (.seq [
    .field "left" (.choice [.ref "parenthesized_expression", .ref "_lhs_expression"]), "=",
    .field "right" (.ref "expression")])),
  ("_augmented_assignment_lhs", .choice [.ref "member_expression", .ref "subscript_expression",
    reservedName, name, .ref "parenthesized_expression"]),
  ("augmented_assignment_expression", rightOf "assign" (.seq [
    .field "left" (.ref "_augmented_assignment_lhs"), .field "operator" (anyOf compoundSigns),
    .field "right" (.ref "expression")])),
  ("_initializer", .seq ["=", .field "value" (.ref "expression")]),
  ("_destructuring_pattern", .choice [.ref "object_pattern", .ref "array_pattern"]),
  ("spread_element", .seq ["...", .ref "expression"]),
  ("ternary_expression", rightOf "ternary" (.seq [.field "condition" (.ref "expression"),
    .shownAs "?" false (.ref "_ternary_qmark"), .field "consequence" (.ref "expression"), ":",
    .field "alternative" (.ref "expression")])),
  ("binary_expression", .choice [
    binary "&&" "logical_and", binary "||" "logical_or", binary ">>" "binary_shift",
    binary ">>>" "binary_shift", binary "<<" "binary_shift", binary "&" "bitwise_and",
    binary "^" "bitwise_xor", binary "|" "bitwise_or", binary "+" "binary_plus",
    binary "-" "binary_plus", binary "*" "binary_times", binary "/" "binary_times",
    binary "%" "binary_times", binary "**" "binary_exp" (.ref "expression") rightOf,
    binary "<" "binary_relation", binary "<=" "binary_relation", binary "==" "binary_equality",
    binary "===" "binary_equality", binary "!=" "binary_equality", binary "!==" "binary_equality",
    binary ">=" "binary_relation", binary ">" "binary_relation", binary "??" "ternary",
    binary "instanceof" "binary_relation",
    binary "in" "binary_relation"
      (.choice [.ref "expression", .ref "private_property_identifier"])]),
  ("unary_expression", leftOf "unary_void" (.seq [
    .field "operator" (anyOf ["!", "~", "-", "+", "typeof", "void", "delete"]),
    .field "argument" (.ref "expression")])),
  ("update_expression", left (.choice [
    .seq [.field "argument" (.ref "expression"), .field "operator" (anyOf ["++", "--"])],
    .seq [.field "operator" (anyOf ["++", "--"]), .field "argument" (.ref "expression")]])),
  ("sequence_expression", right (commas1 (.ref "expression")))]

def lexemeRules : List (String × Rule) := [
  ("string", .choice [
    stringRule "\"" "unescaped_double_string_fragment" (.ref "escape_sequence"),
    stringRule "'" "unescaped_single_string_fragment" (.ref "escape_sequence")]),
  ("unescaped_double_string_fragment", fragment (.some (chars (CharSet.except "\"\\\r\n")))),
  ("unescaped_single_string_fragment", fragment (.some (chars (CharSet.except "'\\\r\n")))),
  ("escape_sequence", immediate escapePattern),
  ("comment", pat commentPattern),
  ("template_string", .seq ["`", many (.choice [
    renamed "string_fragment" (.ref "_template_chars"), .ref "escape_sequence",
    .ref "template_substitution"]), "`"]),
  ("template_substitution", .seq ["$\x7b", .ref "_expressions", "\x7d"]),
  ("regex", .seq ["/", .field "pattern" (.ref "regex_pattern"),
    .token { literalToken "/" with rank := 1, immediate := true },
    opt (.field "flags" (.ref "regex_flags"))]),
  ("regex_pattern", .token { pattern := regexPattern, rank := -1, immediate := true }),
  ("regex_flags", immediate (.some (chars CharSet.lower))),
  ("number", pat numberPattern),
  ("_identifier", .choice [.ref "undefined", name]),
  ("identifier", pat namePattern),
  ("private_property_identifier", pat (.seq [.text "#", namePattern])),
  ("meta_property", .choice [.seq ["new", ".", "target"], .seq ["import", ".", "meta"]]),
  ("this", lit "this"),
  ("super", lit "super"),
  ("true", lit "true"),
  ("false", lit "false"),
  ("null", lit "null"),
  ("undefined", lit "undefined")]

def memberRules : List (String × Rule) := [
  ("arguments", .seq ["(",
    commas (opt (.choice [.ref "expression", .ref "spread_element"])), ")"]),
  ("decorator", .seq ["@", .choice [name, memberName,
    renamed "call_expression" (.ref "decorator_call_expression")]]),
  ("decorator_member_expression", at' "member" (.seq [
    .field "object" (.choice [name, memberName]), ".", .field "property" propertyName])),
  ("decorator_call_expression", at' "call" (.seq [.field "function" (.choice [name, memberName]),
    .field "arguments" (.ref "arguments")])),
  ("class_body", .seq ["\x7b", many (.choice [
    .seq [.field "member" (.ref "method_definition"), flag ";"],
    .seq [.field "member" (.ref "field_definition"), .ref "_semicolon"],
    .field "member" (.ref "class_static_block"), ";"]), "\x7d"]),
  ("field_definition", .seq [decorators, flag "static", .field "property" (.ref "_property_name"),
    opt (.ref "_initializer")]),
  ("formal_parameters", .seq ["(",
    opt (.seq [commas1 (.ref "_formal_parameter"), flag ","]), ")"]),
  ("class_static_block", .seq ["static", bodyBlock]),
  ("pattern", .dynamic (-1) (.choice [.ref "_lhs_expression", .ref "rest_pattern"])),
  ("rest_pattern", right (.seq ["...", .ref "_lhs_expression"])),
  ("method_definition", .seq [decorators,
    opt (.choice ["static", .shownAs "static get" false
      (pat (.seq [.text "static", .some (chars CharSet.space), .text "get",
        .many (chars CharSet.space), .text "\n"]))]),
    flag "async", opt (anyOf ["get", "set", "*"]), .field "name" (.ref "_property_name"),
    .field "parameters" (.ref "formal_parameters"), bodyBlock]),
  ("pair", .seq [.field "key" (.ref "_property_name"), ":", .field "value" (.ref "expression")]),
  ("pair_pattern", .seq [.field "key" (.ref "_property_name"), ":",
    .field "value" (.choice [.ref "pattern", .ref "assignment_pattern"])]),
  ("_property_name", .anyName (.choice [
    renamed "property_identifier" (.choice [name, .ref "_reserved_identifier"]),
    .ref "private_property_identifier", .ref "string", .ref "number",
    .ref "computed_property_name"])),
  ("computed_property_name", .seq ["[", .ref "expression", "]"]),
  ("_reserved_identifier", anyOf ["get", "set", "async", "await", "static", "export", "let"]),
  ("_semicolon", .choice [.ref "_automatic_semicolon", ";"])]

def strengths : List (List Rank) := [
  [.name "member", .name "template_call", .name "call", .symbol "update_expression",
    .name "unary_void", .name "binary_exp", .name "binary_times", .name "binary_plus",
    .name "binary_shift", .name "binary_compare", .name "binary_relation", .name "binary_equality",
    .name "bitwise_and", .name "bitwise_xor", .name "bitwise_or", .name "logical_and",
    .name "logical_or", .name "ternary", .symbol "sequence_expression", .symbol "arrow_function"],
  [.name "assign", .symbol "primary_expression"],
  [.name "member", .name "template_call", .name "new", .name "call", .symbol "expression"],
  [.name "declare", .name "literal"],
  [.symbol "primary_expression", .symbol "statement_block", .name "object"],
  [.symbol "meta_property", .symbol "import"],
  [.symbol "import_statement", .symbol "import"],
  [.symbol "export_statement", .symbol "primary_expression"],
  [.symbol "lexical_declaration", .symbol "primary_expression"]]

def grammar : Grammar where
  rules := moduleRules ++ statementRules ++ valueRules ++ markupRules ++ functionRules ++
    expressionRules ++ lexemeRules ++ memberRules
  blanks := blanks
  extras := ["comment", "html_comment"]
  externals := [⟨"_automatic_semicolon", false⟩, ⟨"_template_chars", false⟩,
    ⟨"_ternary_qmark", false⟩, ⟨"html_comment", false⟩, ⟨"||", true⟩, ⟨"escape_sequence", false⟩,
    ⟨"regex_pattern", false⟩, ⟨"jsx_text", false⟩]
  inlined := ["_call_signature", "_formal_parameter", "_expressions", "_semicolon", "_identifier",
    "_reserved_identifier", "_jsx_attribute", "_jsx_element_name", "_jsx_child", "_jsx_element",
    "_jsx_attribute_name", "_jsx_attribute_value", "_jsx_identifier", "_lhs_expression"]
  supertypes := ["statement", "declaration", "expression", "primary_expression", "pattern"]
  word := some "identifier"
  reserved := reservedWords
  precedences := strengths

def engine : Thunk Engine := Thunk.mk fun _ => .ofGrammar grammar

/-- The tree of a script. -/
def tree (text : List Char) : Node := Node.ofText engine.get scanner text

end SourceSlices.Script
