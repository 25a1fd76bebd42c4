import TokenFlow.Language.Table

/-!
# The table of C#

Grammars of this language differ in which operands have fields, so several parts
are found by field first and by position second.
-/
namespace TokenFlow.Language
namespace CSharp

/-- The name that a declarator or parameter declares. -/
def declaredName? (p : Place) : Option Place :=
  (p.field? "name").or (p.childOfKind? ["identifier", "tuple_pattern"])

/-- What stands behind the `=`, directly or in a node of its own. -/
def initializer (p : Place) : List Place :=
  match p.childOfKind? ["equals_value_clause"] with
  | some clause => clause.namedChildren
  | none => p.namedAfter "="

/-- The parameters in a list; a lambda may have one bare name in its place. -/
def parametersIn (list : Option Place) : List Parameter :=
  match list with
  | none => []
  | some list =>
    if list.kind == "identifier" then [{ name := list }]
    else (list.namedChildren.filter (·.kind == "parameter")).filterMap fun p =>
      (declaredName? p).map fun name => ⟨name, (initializer p).head?⟩

def parameters (p : Place) : List Parameter :=
  parametersIn (p.field? "parameters")

/-- Whether a section of a `switch` carries the `default` label. -/
def isDefaultSection (group : Place) : Bool :=
  group.hasChildKind "default" || (group.childOfKind? ["default_switch_label"]).isSome

def switch (p : Place) : Pattern :=
  let body := (p.field? "body").or (p.childOfKind? ["switch_body"])
  let subject := p.firstFields ["value", "expression"]
  let sections := ((body.map Place.namedChildren).getD []).filter (·.kind == "switch_section")
  .branch {
    condition := if subject.isEmpty then p.namedExcept body.toList else subject
    arms := sections.map Place.namedChildren
    exhaustive := sections.any isDefaultSection }

/-- An operator with one operand, which updates it if it is `++` or `--`. -/
def unary (p : Place) : Pattern :=
  if p.children.any fun c => c.kind == "++" || c.kind == "--" then
    .updateOf p.namedChildren.head?
  else .plain

/-- A `foreach`.  Where it has no fields, the target is the last name in front of
`in`. -/
def forEach (p : Place) : Pattern :=
  let (targets, iterable) :=
    match p.field? "left" with
    | some left => ([left], p.field? "right")
    | none =>
      (((p.namedBefore "in").reverse.find? fun c =>
          c.kind == "identifier" || c.kind == "tuple_pattern").toList,
        (p.namedAfter "in").head?)
  .iteration { targets, iterable, body := p.parts ["body"] }

/-- A `delegate`, whose parameters and block need not have fields. -/
def anonymousMethod (p : Place) : Pattern :=
  .definition ⟨none,
    parametersIn ((p.field? "parameters").or (p.childOfKind? ["parameter_list"])),
    (p.childOfKind? ["block"]).toList⟩

def pattern (p : Place) : Pattern :=
  match p.kind with
  | "variable_declarator" =>
    .binding ⟨.declaration, (declaredName? p).toList, initializer p⟩
  | "catch_declaration" => .declareField "name" p
  | "assignment_expression" => .bindFields (Pattern.operatorKind p) "left" "right" p
  | "postfix_unary_expression" | "prefix_unary_expression" => unary p
  | "if_statement" => .ifElse ["condition"] (fun other => [other]) p
  | "switch_statement" => switch p
  | "for_statement" => .threePartLoop p
  | "foreach_statement" | "for_each_statement" => forEach p
  | "while_statement" => .loopOver ["condition", "body"] p
  | "do_statement" => .loopOver ["body", "condition"] p
  | "method_declaration" | "constructor_declaration" | "local_function_statement" =>
    .defineNamed (parameters p) p
  | "lambda_expression" => .defineAnonymous (parameters p) p
  | "anonymous_method_expression" => anonymousMethod p
  | _ => .plain

end CSharp

/-- The table of C#. -/
def cSharp : Language where
  name := "c_sharp"
  extensions := ["cs"]
  identifiers := ["identifier"]
  atoms := ["string_literal", "verbatim_string_literal", "raw_string_literal",
    "character_literal"]
  comments := ["comment"]
  memberAccess := ["member_access_expression"]
  pattern := CSharp.pattern

end TokenFlow.Language
