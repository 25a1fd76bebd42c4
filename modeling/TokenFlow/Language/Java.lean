import TokenFlow.Language.Table

/-!
# The table of Java

A `switch` always runs some arm if one of its groups carries the `default` label.
-/
namespace TokenFlow.Language
namespace Java

/-- The name that a node of a parameter list declares. -/
def parameterName? (p : Place) : Option Place :=
  match p.kind with
  | "formal_parameter" => p.field? "name"
  | "spread_parameter" => (p.childOfKind? ["variable_declarator"]).bind (·.field? "name")
  | "identifier" => some p
  | _ => none

/-- The parameters of a method or lambda; a lambda may have one bare name. -/
def parameters (p : Place) : List Parameter :=
  match p.field? "parameters" with
  | none => []
  | some list =>
    if list.kind == "identifier" then [{ name := list }]
    else (list.namedChildren.filterMap parameterName?).map fun name => { name }

/-- Whether a group of a `switch` carries the `default` label. -/
def isDefaultGroup (group : Place) : Bool :=
  (group.namedChildren.filter (·.kind == "switch_label")).any (·.hasChildKind "default")

def switch (p : Place) : Pattern :=
  let groups := p.namedIn "body"
  .branch {
    condition := p.parts ["condition"]
    arms := groups.map Place.namedChildren
    exhaustive := groups.any isDefaultGroup }

def method (p : Place) : Pattern :=
  .definition ⟨p.field? "name", parameters p, p.fields "body"⟩

def pattern (p : Place) : Pattern :=
  match p.kind with
  | "variable_declarator" | "resource" => .bindFields .declaration "name" "value" p
  | "catch_formal_parameter" => .declareField "name" p
  | "assignment_expression" => .bindFields (Pattern.operatorKind p) "left" "right" p
  | "update_expression" => .updateOf p.namedChildren.head?
  | "if_statement" => .ifElse ["condition"] (fun other => [other]) p
  | "switch_expression" => switch p
  | "for_statement" => .threePartLoop p
  | "enhanced_for_statement" => .iterateFields "name" "value" p
  | "while_statement" => .loopOver ["condition", "body"] p
  | "do_statement" => .loopOver ["body", "condition"] p
  | "method_declaration" | "constructor_declaration" => method p
  | "lambda_expression" => .defineAnonymous (parameters p) p
  | _ => .plain

end Java

/-- The table of Java. -/
def java : Language where
  name := "java"
  extensions := ["java"]
  identifiers := ["identifier"]
  atoms := ["string_literal", "character_literal"]
  comments := ["line_comment", "block_comment"]
  memberAccess := ["field_access"]
  pattern := Java.pattern

end TokenFlow.Language
