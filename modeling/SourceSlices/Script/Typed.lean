import SourceSlices.Script.Grammar

/-!
The grammar of TypeScript: JavaScript with types, without markup or with it. No word is reserved
there, and a statement ends under slightly other conditions.
-/
namespace SourceSlices.Script.Typed

open Syntax Syntax.Rule

/-- Changed rules in their old places, and new ones after them. -/
def change (rules changes : List (String × Rule)) : List (String × Rule) :=
  rules.map (fun (n, r) => (n, ((changes.find? (·.1 == n)).map (·.2)).getD r)) ++
    changes.filter fun c => !rules.any (·.1 == c.1)

def typeOf (r : Rule := .ref "type_annotation") : Rule := .field "type" (opt r)
def typeArguments : Rule := .field "type_arguments" (opt (.ref "type_arguments"))
def typeParameters : Rule := .field "type_parameters" (opt (.ref "type_parameters"))
def typeName : Rule := .ref "_type_identifier"
def aType : Rule := .ref "type"
def access : Rule := opt (.ref "accessibility_modifier")
def overriding : Rule := opt (.ref "override_modifier")
def formal : Rule := .field "parameters" (.ref "formal_parameters")
def accessor : Rule := opt (anyOf ["get", "set", "*"])
def methodName : Rule := .field "name" (.ref "_property_name")
def typeWord : Rule := renamed "identifier" "type"
def heritage : Rule := opt (.ref "class_heritage")
def classBody : Rule := .field "body" (.ref "class_body")

def subscript : Rule := renamed "subscript_expression" (.ref "_type_query_subscript_expression")
def member : Rule := renamed "member_expression" (.ref "_type_query_member_expression")
def call : Rule := renamed "call_expression" (.ref "_type_query_call_expression")
def annotatedMember : Rule :=
  renamed "member_expression" (.ref "_type_query_member_expression_in_type_annotation")
def annotatedCall : Rule :=
  renamed "call_expression" (.ref "_type_query_call_expression_in_type_annotation")
def memberTail : Rule :=
  .field "property" (.choice [.ref "private_property_identifier", propertyName])

/-- What the dialects share of the changes to declarations. -/
def declarationChanges : List (String × Rule) := [
  ("public_field_definition", .seq [decorators,
    opt (.choice [.seq ["declare", access], .seq [.ref "accessibility_modifier", flag "declare"]]),
    .choice [.seq [flag "static", overriding, flag "readonly"],
      .seq [flag "abstract", flag "readonly"], .seq [flag "readonly", flag "abstract"],
      flag "accessor"],
    methodName, opt (anyOf ["?", "!"]), typeOf, opt (.ref "_initializer")]),
  ("catch_clause", .seq ["catch",
    opt (.seq ["(", .field "parameter" (.choice [name, .ref "_destructuring_pattern"]), typeOf,
      ")"]), bodyBlock]),
  ("export_specifier", .seq [opt (anyOf ["type", "typeof"]),
    .seq [.field "name" (.ref "_module_export_name"),
      opt (.seq ["as", .field "alias" (.ref "_module_export_name")])]]),
  ("_import_identifier", .choice [name, typeWord]),
  ("import_specifier", .seq [opt (anyOf ["type", "typeof"]),
    .choice [.field "name" (.ref "_import_identifier"),
      .seq [.field "name" (.choice [.ref "_module_export_name", typeWord]), "as",
        .field "alias" (.ref "_import_identifier")]]]),
  ("import_clause", .choice [.ref "namespace_import", .ref "named_imports",
    .seq [.ref "_import_identifier",
      opt (.seq [",", .choice [.ref "namespace_import", .ref "named_imports"]])]]),
  ("import_statement", .seq ["import", opt (anyOf ["type", "typeof"]),
    .choice [.seq [.ref "import_clause", .ref "_from_clause"], .ref "import_require_clause",
      .field "source" (.ref "string")],
    opt (.ref "import_attribute"), .ref "_semicolon"]),
  ("export_statement", .choice [
    ((moduleRules.find? (·.1 == "export_statement")).map (·.2)).getD .blank,
    .seq ["export", "type", .ref "export_clause", opt (.ref "_from_clause"), .ref "_semicolon"],
    .seq ["export", "import", .ref "import_alias"],
    .seq ["export", "=", .ref "expression", .ref "_semicolon"],
    .seq ["export", "as", "namespace", name, .ref "_semicolon"]]),
  ("variable_declarator", .choice [.seq [variableName, typeOf, opt (.ref "_initializer")],
    at' "declare" (.seq [.field "name" name, "!", .field "type" (.ref "type_annotation")])]),
  ("method_signature", .seq [access, flag "static", overriding, flag "readonly", flag "async",
    accessor, methodName, flag "?", .ref "_call_signature"]),
  ("abstract_method_signature", .seq [access, "abstract", overriding, accessor, methodName,
    flag "?", .ref "_call_signature"]),
  ("parenthesized_expression", .seq ["(",
    .choice [.seq [.ref "expression", typeOf], .ref "sequence_expression"], ")"]),
  ("_formal_parameter", .choice [.ref "required_parameter", .ref "optional_parameter"]),
  ("function_signature", .seq [flag "async", "function", .field "name" name,
    .ref "_call_signature",
    .choice [.ref "_semicolon", .ref "_function_signature_automatic_semicolon"]]),
  ("decorator", .seq ["@", .choice [name, memberName,
    renamed "call_expression" (.ref "decorator_call_expression"),
    renamed "parenthesized_expression" (.ref "decorator_parenthesized_expression")]]),
  ("decorator_call_expression", at' "call" (.seq [.field "function" (.choice [name, memberName]),
    opt (.field "type_arguments" (.ref "type_arguments")), .field "arguments" (.ref "arguments")])),
  ("decorator_parenthesized_expression", .seq ["(", .choice [name, memberName,
    renamed "call_expression" (.ref "decorator_call_expression")], ")"]),
  ("class_body", .seq ["\x7b", many (.choice [
    .seq [.ref "decorator"],
    .seq [.ref "method_definition", opt (.ref "_semicolon")],
    .seq [.ref "method_signature",
      .choice [.ref "_function_signature_automatic_semicolon", ","]],
    .ref "class_static_block",
    .seq [.choice [.ref "abstract_method_signature", .ref "index_signature",
      .ref "method_signature", .ref "public_field_definition"],
      .choice [.ref "_semicolon", ","]],
    ";"]), "\x7d"]),
  ("method_definition", left (.seq [access, flag "static", overriding, flag "readonly",
    flag "async", accessor, methodName, flag "?", .ref "_call_signature", bodyBlock])),
  ("declaration", .choice [
    .choice [.ref "function_declaration", .ref "generator_function_declaration",
      .ref "class_declaration", .ref "lexical_declaration", .ref "variable_declaration"],
    .ref "function_signature", .ref "abstract_class_declaration", .ref "module",
    at' "declare" (.ref "internal_module"), .ref "type_alias_declaration", .ref "enum_declaration",
    .ref "interface_declaration", .ref "import_alias", .ref "ambient_declaration"]),
  ("class_heritage", .choice [.seq [.ref "extends_clause", opt (.ref "implements_clause")],
    .ref "implements_clause"]),
  ("import_require_clause", .seq [name, "=", "require", "(", .field "source" (.ref "string"), ")"]),
  ("extends_clause", .seq ["extends", commas1 (.ref "_extends_clause_single")]),
  ("_extends_clause_single", at' "extends" (.seq [.field "value" (.ref "expression"),
    typeArguments])),
  ("implements_clause", .seq ["implements", commas1 aType]),
  ("ambient_declaration", .seq ["declare", .choice [.ref "declaration",
    .seq ["global", .ref "statement_block"],
    .seq ["module", ".", propertyName, ":", aType, .ref "_semicolon"]]]),
  ("class", at' "literal" (.seq [decorators, "class", .field "name" (opt typeName),
    typeParameters, heritage, classBody])),
  ("abstract_class_declaration", at' "declare" (.seq [decorators, "abstract", "class",
    .field "name" typeName, typeParameters, heritage, classBody])),
  ("class_declaration", leftOf "declare" (.seq [decorators, "class", .field "name" typeName,
    typeParameters, heritage, classBody, lineEnd])),
  ("module", .seq ["module", .ref "_module"]),
  ("internal_module", .seq ["namespace", .ref "_module"]),
  ("_module", right (.seq [
    .field "name" (.choice [.ref "string", name, .ref "nested_identifier"]),
    .field "body" (opt (.ref "statement_block"))])),
  ("import_alias", .seq ["import", name, "=", .choice [name, .ref "nested_identifier"],
    .ref "_semicolon"]),
  ("nested_type_identifier", at' "member" (.seq [
    .field "module" (.choice [name, .ref "nested_identifier"]), ".", .field "name" typeName])),
  ("interface_declaration", at' "declare" (.seq ["interface", .field "name" typeName,
    typeParameters, opt (.ref "extends_type_clause"),
    .field "body" (renamed "interface_body" (.ref "object_type"))])),
  ("extends_type_clause", .seq ["extends", commas1 (.field "type"
    (.choice [typeName, .ref "nested_type_identifier", .ref "generic_type"]))]),
  ("enum_declaration", at' "declare" (.seq [flag "const", "enum", .field "name" name,
    .field "body" (.ref "enum_body")])),
  ("enum_body", .seq ["\x7b",
    opt (.seq [commas1 (.choice [methodName, .ref "enum_assignment"]), flag ","]), "\x7d"]),
  ("enum_assignment", .seq [methodName, .ref "_initializer"]),
  ("type_alias_declaration", at' "declare" (.seq ["type", .field "name" typeName, typeParameters,
    "=", .field "value" aType, .ref "_semicolon"])),
  ("accessibility_modifier", anyOf ["public", "private", "protected"]),
  ("override_modifier", lit "override"),
  ("required_parameter", .seq [.ref "_parameter_name", typeOf, opt (.ref "_initializer")]),
  ("optional_parameter", .seq [.ref "_parameter_name", "?", typeOf, opt (.ref "_initializer")]),
  ("_parameter_name", .seq [decorators, access, overriding, flag "readonly",
    .field "pattern" (.choice [.ref "pattern", .ref "this"])])]

/-- What the dialects share of the changes to expressions. -/
def expressionChanges : List (String × Rule) := [
  ("call_expression", .choice [
    at' "call" (.seq [.field "function" (.choice [.ref "expression", .ref "import"]),
      typeArguments, .field "arguments" (.ref "arguments")]),
    at' "template_call" (.seq [
      .field "function" (.choice [.ref "primary_expression", .ref "new_expression"]),
      .field "arguments" (.ref "template_string")]),
    at' "member" (.seq [.field "function" (.ref "primary_expression"), "?.", typeArguments,
      .field "arguments" (.ref "arguments")])]),
  ("new_expression", rightOf "new" (.seq ["new",
    .field "constructor" (.choice [.ref "primary_expression", .ref "new_expression"]),
    typeArguments, .field "arguments" (opt (.ref "arguments"))])),
  ("assignment_expression", rightOf "assign" (.seq [flag "using",
    .field "left" (.choice [.ref "parenthesized_expression", .ref "_lhs_expression"]), "=",
    .field "right" (.ref "expression")])),
  ("_augmented_assignment_lhs", .choice [.ref "member_expression", .ref "subscript_expression",
    reservedName, name, .ref "parenthesized_expression", .ref "non_null_expression"]),
  ("_lhs_expression", .choice [.ref "member_expression", .ref "subscript_expression",
    .ref "_identifier", reservedName, .ref "_destructuring_pattern", .ref "non_null_expression"]),
  ("primary_expression", .choice [.ref "subscript_expression", .ref "member_expression",
    .ref "parenthesized_expression", .ref "_identifier", reservedName, .ref "this", .ref "super",
    .ref "number", .ref "string", .ref "template_string", .ref "regex", .ref "true", .ref "false",
    .ref "null", .ref "object", .ref "array", .ref "function_expression", .ref "arrow_function",
    .ref "generator_function", .ref "class", .ref "meta_property", .ref "call_expression",
    .ref "non_null_expression"]),
  ("_jsx_start_opening_element", .seq ["<", opt (.seq [
    .choice [
      .field "name" (.choice [.ref "_jsx_identifier", .ref "jsx_namespace_name"]),
      .seq [.field "name" (.choice [name, renamed "member_expression" (.ref "nested_identifier")]),
        typeArguments]],
    many (.field "attribute" (.ref "_jsx_attribute"))])]),
  ("jsx_opening_element", .dynamic (-1) (.seq [.ref "_jsx_start_opening_element", ">"])),
  ("jsx_self_closing_element", .dynamic (-1) (.seq [.ref "_jsx_start_opening_element", "/>"])),
  ("non_null_expression", leftOf "unary" (.seq [.ref "expression", "!"])),
  ("type_assertion", leftOf "unary" (.seq [.ref "type_arguments", .ref "expression"])),
  ("as_expression", leftOf "binary" (.seq [.ref "expression", "as", .choice ["const", aType]])),
  ("satisfies_expression", leftOf "binary" (.seq [.ref "expression", "satisfies", aType])),
  ("instantiation_expression", at' "instantiation" (.seq [.ref "expression",
    .field "type_arguments" (.ref "type_arguments")]))]

def typeRules : List (String × Rule) := [
  ("omitting_type_annotation", .seq ["-?:", aType]),
  ("adding_type_annotation", .seq ["+?:", aType]),
  ("opting_type_annotation", .seq ["?:", aType]),
  ("type_annotation", .seq [":", .choice [aType, annotatedMember, annotatedCall]]),
  ("_type_query_member_expression_in_type_annotation", .seq [
    .field "object" (.choice [.ref "import", annotatedMember, annotatedCall]), ".", memberTail]),
  ("_type_query_call_expression_in_type_annotation", .seq [
    .field "function" (.choice [.ref "import", annotatedMember]),
    .field "arguments" (.ref "arguments")]),
  ("asserts", .seq ["asserts", .choice [.ref "type_predicate", name, .ref "this"]]),
  ("asserts_annotation", .seq [":", .ref "asserts"]),
  ("type", .choice [.ref "primary_type", .ref "function_type", .ref "readonly_type",
    .ref "constructor_type", .ref "infer_type", level (-1) annotatedMember,
    level (-1) annotatedCall]),
  ("tuple_parameter", .seq [.field "name" (.choice [name, .ref "rest_pattern"]),
    .field "type" (.ref "type_annotation")]),
  ("optional_tuple_parameter", .seq [.field "name" name, "?",
    .field "type" (.ref "type_annotation")]),
  ("optional_type", .seq [aType, "?"]),
  ("rest_type", .seq ["...", aType]),
  ("_tuple_type_member", .choice [renamed "required_parameter" (.ref "tuple_parameter"),
    renamed "optional_parameter" (.ref "optional_tuple_parameter"), .ref "optional_type",
    .ref "rest_type", aType]),
  ("constructor_type", left (.seq [flag "abstract", "new", typeParameters, formal, "=>",
    .field "type" aType])),
  ("primary_type", .choice [.ref "parenthesized_type", .ref "predefined_type", typeName,
    .ref "nested_type_identifier", .ref "generic_type", .ref "object_type", .ref "array_type",
    .ref "tuple_type", .ref "flow_maybe_type", .ref "type_query", .ref "index_type_query",
    renamed "this_type" (.ref "this"), .ref "existential_type", .ref "literal_type",
    .ref "lookup_type", .ref "conditional_type", .ref "template_literal_type",
    .ref "intersection_type", .ref "union_type", "const"]),
  ("template_type", .seq ["$\x7b", .choice [.ref "primary_type", .ref "infer_type"], "\x7d"]),
  ("template_literal_type", .seq ["`", many (.choice [
    renamed "string_fragment" (.ref "_template_chars"), .ref "template_type"]), "`"]),
  ("infer_type", right (.seq ["infer", typeName, opt (.seq ["extends", aType])])),
  ("conditional_type", right (.seq [.field "left" aType, "extends", .field "right" aType, "?",
    .field "consequence" aType, ":", .field "alternative" aType])),
  ("generic_type", at' "call" (.seq [
    .field "name" (.choice [typeName, .ref "nested_type_identifier"]),
    .field "type_arguments" (.ref "type_arguments")])),
  ("type_predicate", .seq [
    .field "name" (.choice [name, .ref "this", renamed "identifier" (.ref "predefined_type")]),
    "is", .field "type" aType]),
  ("type_predicate_annotation", .seq [":", .ref "type_predicate"]),
  ("_type_query_member_expression", .seq [
    .field "object" (.choice [name, .ref "this", subscript, member, call]),
    anyOf [".", "?."], memberTail]),
  ("_type_query_subscript_expression", .seq [
    .field "object" (.choice [name, .ref "this", subscript, member, call]), flag "?.", "[",
    .field "index" (.choice [.ref "predefined_type", .ref "string", .ref "number"]), "]"]),
  ("_type_query_call_expression", .seq [
    .field "function" (.choice [.ref "import", name, member, subscript]),
    .field "arguments" (.ref "arguments")]),
  ("_type_query_instantiation_expression", .seq [
    .field "function" (.choice [.ref "import", name, member, subscript]),
    .field "type_arguments" (.ref "type_arguments")]),
  ("type_query", right (.seq ["typeof", .choice [subscript, member, call,
    renamed "instantiation_expression" (.ref "_type_query_instantiation_expression"), name,
    .ref "this"]])),
  ("index_type_query", .seq ["keyof", .ref "primary_type"]),
  ("lookup_type", .seq [.ref "primary_type", "[", aType, "]"]),
  ("mapped_type_clause", .seq [.field "name" typeName, "in", .field "type" aType,
    opt (.seq ["as", .field "alias" aType])]),
  ("literal_type", .choice [renamed "unary_expression" (.ref "_number"), .ref "number",
    .ref "string", .ref "true", .ref "false", .ref "null", .ref "undefined"]),
  ("_number", leftAt 1 (.seq [.field "operator" (anyOf ["-", "+"]),
    .field "argument" (.ref "number")])),
  ("existential_type", lit "*"),
  ("flow_maybe_type", right (.seq ["?", .ref "primary_type"])),
  ("parenthesized_type", .seq ["(", aType, ")"]),
  ("predefined_type", .choice ["any", "number", "boolean", "string", "symbol",
    .shownAs "unique symbol" false (.seq ["unique", "symbol"]), "void", "unknown", "string",
    "never", "object"]),
  ("type_arguments", .seq ["<", commas1 aType, flag ",", ">"]),
  ("object_type", .seq [anyOf ["\x7b", "\x7b|"],
    opt (.seq [opt (anyOf [",", ";"]),
      sep1 (.choice [",", .ref "_semicolon"])
        (.choice [.ref "export_statement", .ref "property_signature", .ref "call_signature",
          .ref "construct_signature", .ref "index_signature", .ref "method_signature"]),
      opt (.choice [",", .ref "_semicolon"])]),
    anyOf ["\x7d", "|\x7d"]]),
  ("call_signature", .ref "_call_signature"),
  ("property_signature", .seq [access, flag "static", overriding, flag "readonly", methodName,
    flag "?", typeOf]),
  ("_call_signature", .seq [typeParameters, formal,
    .field "return_type" (opt (.choice [.ref "type_annotation", .ref "asserts_annotation",
      .ref "type_predicate_annotation"]))]),
  ("type_parameters", .seq ["<", commas1 (.ref "type_parameter"), flag ",", ">"]),
  ("type_parameter", .seq [flag "const", .field "name" typeName,
    .field "constraint" (opt (.ref "constraint")), .field "value" (opt (.ref "default_type"))]),
  ("default_type", .seq ["=", aType]),
  ("constraint", .seq [anyOf ["extends", ":"], aType]),
  ("construct_signature", .seq [flag "abstract", "new", typeParameters, formal, typeOf]),
  ("index_signature", .seq [opt (.seq [.field "sign" (opt (anyOf ["-", "+"])), "readonly"]), "[",
    .choice [.seq [.field "name" (.choice [name, reservedName]), ":", .field "index_type" aType],
      .ref "mapped_type_clause"],
    "]",
    .field "type" (.choice [.ref "type_annotation", .ref "omitting_type_annotation",
      .ref "adding_type_annotation", .ref "opting_type_annotation"])]),
  ("array_type", .seq [.ref "primary_type", "[", "]"]),
  ("tuple_type", .seq ["[", commas (.ref "_tuple_type_member"), flag ",", "]"]),
  ("readonly_type", .seq ["readonly", aType]),
  ("union_type", left (.seq [opt aType, "|", aType])),
  ("intersection_type", left (.seq [opt aType, "&", aType])),
  ("function_type", left (.seq [typeParameters, formal, "=>",
    .field "return_type" (.choice [aType, .ref "asserts", .ref "type_predicate"])])),
  ("_type_identifier", renamed "type_identifier" name),
  ("_reserved_identifier", anyOf ["declare", "namespace", "type", "public", "private", "protected",
    "override", "readonly", "module", "any", "number", "boolean", "string", "symbol", "export",
    "object", "new", "readonly", "get", "set", "async", "await", "static", "export", "let"])]

/-- Expressions of a dialect: markup, or assertions of types in its place. -/
def expressions (markup : Bool) : Rule :=
  .choice ([.ref "as_expression", .ref "satisfies_expression", .ref "instantiation_expression",
    .ref "internal_module"] ++
    (if markup then [] else [.ref "type_assertion"]) ++
    [.ref "primary_expression"] ++ (if markup then [.ref "_jsx_element"] else []) ++
    [.ref "assignment_expression", .ref "augmented_assignment_expression", .ref "await_expression",
      .ref "unary_expression", .ref "binary_expression", .ref "ternary_expression",
      .ref "update_expression", .ref "new_expression", .ref "yield_expression"])

def moreStrengths : List (List Rank) := [
  [.name "call", .name "instantiation", .name "unary", .name "binary", .symbol "await_expression",
    .symbol "arrow_function"],
  [.name "extends", .name "instantiation"],
  [.symbol "intersection_type", .symbol "union_type", .symbol "conditional_type",
    .symbol "function_type", .name "binary", .symbol "type_predicate", .symbol "readonly_type"],
  [.symbol "mapped_type_clause", .symbol "primary_expression"],
  [.symbol "accessibility_modifier", .symbol "primary_expression"],
  [.name "unary_void", .symbol "expression"],
  [.symbol "extends_clause", .symbol "primary_expression"],
  [.name "unary", .name "assign"],
  [.name "declare", .symbol "expression"],
  [.symbol "predefined_type", .symbol "unary_expression"],
  [.symbol "type", .symbol "flow_maybe_type"],
  [.symbol "tuple_type", .symbol "array_type", .symbol "pattern", .symbol "type"],
  [.symbol "readonly_type", .symbol "pattern"],
  [.symbol "readonly_type", .symbol "primary_expression"],
  [.symbol "type_query", .symbol "subscript_expression", .symbol "expression"],
  [.symbol "type_query", .symbol "_type_query_subscript_expression"],
  [.symbol "nested_type_identifier", .symbol "generic_type", .symbol "primary_type",
    .symbol "lookup_type", .symbol "index_type_query", .symbol "type"],
  [.symbol "as_expression", .symbol "satisfies_expression", .symbol "primary_type"],
  [.symbol "_type_query_member_expression", .symbol "member_expression"],
  [.symbol "member_expression", .symbol "_type_query_member_expression_in_type_annotation"],
  [.symbol "_type_query_member_expression", .symbol "primary_expression"],
  [.symbol "_type_query_subscript_expression", .symbol "subscript_expression"],
  [.symbol "_type_query_subscript_expression", .symbol "primary_expression"],
  [.symbol "_type_query_call_expression", .symbol "primary_expression"],
  [.symbol "_type_query_instantiation_expression", .symbol "primary_expression"],
  [.symbol "type_query", .symbol "primary_expression"],
  [.symbol "override_modifier", .symbol "primary_expression"],
  [.symbol "decorator_call_expression", .symbol "decorator"],
  [.symbol "literal_type", .symbol "pattern"],
  [.symbol "predefined_type", .symbol "pattern"],
  [.symbol "call_expression", .symbol "_type_query_call_expression"],
  [.symbol "call_expression", .symbol "_type_query_call_expression_in_type_annotation"],
  [.symbol "new_expression", .symbol "primary_expression"],
  [.symbol "meta_property", .symbol "primary_expression"],
  [.symbol "construct_signature", .symbol "_property_name"]]

def ruleChanges (markup : Bool) : List (String × Rule) :=
  declarationChanges ++ expressionChanges ++ [("expression", expressions markup)] ++ typeRules

/-- The grammar of the dialect with markup or without. -/
def grammar (markup : Bool) : Grammar where
  rules := change (Script.grammar.rules.filter (·.1 != "using_declaration")) (ruleChanges markup)
  blanks := blanks
  extras := Script.grammar.extras
  externals := Script.grammar.externals ++ [⟨"_function_signature_automatic_semicolon", false⟩,
    ⟨"__error_recovery", false⟩]
  inlined := (Script.grammar.inlined.filter fun n =>
    n != "_formal_parameter" && n != "_call_signature") ++
    ["_type_identifier", "_jsx_start_opening_element"]
  supertypes := Script.grammar.supertypes ++ ["type", "primary_type"]
  word := some "identifier"
  precedences := strengths ++ moreStrengths

/-! ### The scanner -/

/-- Signs that continue a statement over a line end. -/
def continuing : List Char :=
  ['\x60', ',', '.', ';', '*', '%', '>', '<', '=', '?', '^', '|', '&', '/', ':']

/-- After a line end: brackets continue an expression but not a type, and a brace continues a
signature. -/
def beginsStatement (valid : Lexeme → Bool) (text : Array Char) (i : Nat) : Ended :=
  let c := charAt text i
  if c = '\x7b' then ⟨!valid .signatureEnd, i, false⟩
  else if c = '(' || c = '[' then ⟨!valid .logicalOr, i, false⟩
  else Script.beginsStatement continuing text i

/-- Whether a statement ends here without a semicolon; a brace before a colon belongs to a pattern
with a type. -/
def statementEnds (valid : Lexeme → Bool) (text : Array Char) (pos : Nat) : Ended :=
  let i := skipWhile (fun c => isBlank c && c ≠ '\n') text text.size pos
  let c := charAt text i
  if c = '\x00' then ⟨true, i, false⟩
  else if c = '\x7d' then
    let next := skipBlanks text (i + 1)
    ⟨charAt text next ≠ ':' || valid .logicalOr, next, false⟩
  else if c = '\n' then
    let g := passGap text false text.size (i + 1) false false
    if g.gap = .refused then ⟨false, g.stop, g.commented⟩
    else { beginsStatement valid text g.stop with commented := g.commented }
  else ⟨false, i, false⟩

/-- The sign of a condition, unless it marks something optional. -/
def conditionMark? (text : Array Char) (pos : Nat) : Option (Hit Empty) :=
  let i := skipBlanks text pos
  let after := charAt text (i + 1)
  let next := skipBlanks text (i + 1)
  let sign := charAt text next
  if charAt text i ≠ '?' || after = '?' || after = '.' then none
  else if sign = ':' || sign = ')' || sign = ',' then none
  else if sign = '.' && !(charAt text (next + 1)).isDigit then none
  else some ⟨Lexeme.conditionMark.place, i, i + 1, none⟩

def scanner : Scanner Empty := ⟨fun _ => scan statementEnds conditionMark?⟩

def plainEngine : Thunk Engine := Thunk.mk fun _ => .ofGrammar (grammar false)
def markupEngine : Thunk Engine := Thunk.mk fun _ => .ofGrammar (grammar true)

/-- The tree of a script with types. -/
def tree (text : List Char) : Node := Node.ofText plainEngine.get scanner text

/-- The tree of a script with types and markup. -/
def markupTree (text : List Char) : Node := Node.ofText markupEngine.get scanner text

end SourceSlices.Script.Typed
