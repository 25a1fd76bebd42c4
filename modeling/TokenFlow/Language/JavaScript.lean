import TokenFlow.Language.Table

/-!
# The table of JavaScript

The names of properties are names like any others, so `a.b` reads `a` and `b`; the
keys of an object literal are labels.
-/
namespace TokenFlow.Language
namespace JavaScript

/-- The parameter that a node of a parameter list declares. -/
def parameter (p : Place) : Parameter :=
  if p.kind == "assignment_pattern" then ⟨(p.field? "left").getD p, p.field? "right"⟩
  else { name := p }

/-- The parameters in some lists; an arrow function may have one bare name in place
of a list. -/
def parametersIn (lists : List Place) : List Parameter :=
  let items := lists.flatMap fun list =>
    if list.kind == "formal_parameters" then list.namedChildren else [list]
  (items.filter (·.kind != "comment")).map parameter

def switch (p : Place) : Pattern :=
  let cases := p.namedIn "body"
  .branch {
    condition := p.parts ["value"]
    arms := (cases.filter fun c => c.kind == "switch_case" || c.kind == "switch_default").map
      Place.namedChildren
    exhaustive := cases.any (·.kind == "switch_default") }

/-- The operand of `++` or `--`. -/
def operand? (p : Place) : Option Place :=
  (p.field? "argument").or p.namedChildren.head?

def pattern (p : Place) : Pattern :=
  match p.kind with
  | "variable_declarator" => .bindFields .declaration "name" "value" p
  | "assignment_expression" => .bindFields .assignment "left" "right" p
  | "augmented_assignment_expression" => .bindFields .compound "left" "right" p
  | "update_expression" => .updateOf (operand? p)
  | "if_statement" => .ifElse ["condition"] Place.namedChildren p
  | "switch_statement" => switch p
  | "for_statement" => .threePartLoop p
  | "for_in_statement" => .iterateFields "left" "right" p
  | "while_statement" => .loopOver ["condition", "body"] p
  | "do_statement" => .loopOver ["body", "condition"] p
  | "arrow_function" =>
    .defineAnonymous (parametersIn (p.firstFields ["parameters", "parameter"])) p
  | "function_declaration" | "function_expression" | "function" | "generator_function"
  | "generator_function_declaration" | "method_definition" =>
    .defineNamed (parametersIn (p.parts ["parameters"])) p
  | _ => .plain

end JavaScript

/-- The table of JavaScript. -/
def javaScript : Language where
  name := "javascript"
  extensions := ["js", "jsx", "mjs", "cjs"]
  identifiers := ["identifier", "property_identifier", "shorthand_property_identifier",
    "shorthand_property_identifier_pattern"]
  atoms := ["string", "regex"]
  comments := ["comment"]
  memberAccess := ["member_expression"]
  isLabel p := p.isFieldOf "pair" "key"
  pattern := JavaScript.pattern

end TokenFlow.Language
