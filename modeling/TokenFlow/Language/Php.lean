import TokenFlow.Language.Table

/-!
# The table of PHP

A variable is one token with its dollar sign, so it never shares a name with a
function or a class.
-/
namespace TokenFlow.Language
namespace Php

/-- Whether a node of a parameter list declares a parameter. -/
def isParameter (p : Place) : Bool :=
  ["simple_parameter", "variadic_parameter", "property_promotion_parameter"].contains p.kind

def parameters (p : Place) : List Parameter :=
  ((p.namedIn "parameters").filter isParameter).filterMap fun q =>
    (q.field? "name").map fun name => ⟨name, q.field? "default_value"⟩

/-- The arm of one clause behind the first. -/
def clauseArm (clause : Place) : List Place :=
  if clause.kind == "else_if_clause" then clause.parts ["condition", "body"]
  else clause.parts ["body"]

def ifStatement (p : Place) : Pattern :=
  let clauses := p.fields "alternative"
  .branch {
    condition := p.parts ["condition"]
    arms := p.parts ["body"] :: clauses.map clauseArm
    exhaustive := clauses.any (·.kind != "else_if_clause") }

/-- `foreach ($xs as $x)`: of the named children without the body, the first is the
iterable and the second the target. -/
def forEach (p : Place) : Pattern :=
  let body := (p.field? "body").or p.namedChildren.getLast?
  let operands := p.namedExcept body.toList
  .iteration {
    targets := (operands.drop 1).take 1, iterable := operands.head?, body := body.toList }

def switch (p : Place) : Pattern :=
  let cases := p.namedIn "body"
  .branch {
    condition := p.parts ["condition"]
    arms := (cases.filter fun c =>
      c.kind == "case_statement" || c.kind == "default_statement").map Place.namedChildren
    exhaustive := cases.any (·.kind == "default_statement") }

/-- The operand of `++` or `--`. -/
def operand? (p : Place) : Option Place :=
  (p.field? "argument").or p.namedChildren.head?

def pattern (p : Place) : Pattern :=
  match p.kind with
  | "assignment_expression" | "reference_assignment_expression" =>
    .bindFields .assignment "left" "right" p
  | "augmented_assignment_expression" => .bindFields .compound "left" "right" p
  | "update_expression" => .updateOf (operand? p)
  | "if_statement" => ifStatement p
  | "switch_statement" => switch p
  | "for_statement" => .threePartLoop p
  | "foreach_statement" => forEach p
  | "while_statement" => .loopOver ["condition", "body"] p
  | "do_statement" => .loopOver ["body", "condition"] p
  | "function_definition" | "method_declaration" => .defineNamed (parameters p) p
  | "anonymous_function" | "anonymous_function_creation_expression" | "arrow_function" =>
    .defineAnonymous (parameters p) p
  | _ => .plain

end Php

/-- The table of PHP. -/
def php : Language where
  name := "php"
  extensions := ["php"]
  identifiers := ["variable_name", "name"]
  atoms := ["variable_name", "string"]
  comments := ["comment"]
  memberAccess := ["member_access_expression"]
  pattern := Php.pattern

end TokenFlow.Language
