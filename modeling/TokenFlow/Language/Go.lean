import TokenFlow.Language.Table

/-!
# The table of Go

All loops have one keyword.  The clause in the header tells an iteration from a
loop with a three-part header; without a clause, whatever precedes the body is the
condition.
-/
namespace TokenFlow.Language
namespace Go

/-- Kinds of nodes that list several targets or values. -/
def listKinds : List String := ["expression_list"]

/-- The names declared by the parameter lists in some fields.  One declaration may
hold several names. -/
def parametersIn (fields : List String) (p : Place) : List Parameter :=
  let declarations := ((p.parts fields).flatMap Place.namedChildren).filter fun c =>
    c.kind == "parameter_declaration" || c.kind == "variadic_parameter_declaration"
  (declarations.flatMap (·.fields "name")).map fun name => { name }

/-- A binding of the items in one field from those in another. -/
def bindItems (kind : BindingKind) (p : Place) : Pattern :=
  .binding ⟨kind, p.itemsOf "left" listKinds, p.itemsOf "right" listKinds⟩

def forStatement (p : Place) : Pattern :=
  let body := p.parts ["body"]
  match p.childOfKind? ["range_clause"] with
  | some clause =>
    .iteration {
      targets := clause.itemsOf "left" listKinds, iterable := clause.field? "right", body }
  | none =>
    match p.childOfKind? ["for_clause"] with
    | some clause =>
      .loop {
        setup := clause.fields "initializer"
        repeated := clause.fields "condition" ++ body ++ clause.fields "update" }
    | none => .loop { repeated := p.namedExcept body ++ body }

/-- Whether a child of a `switch` is one of its arms. -/
def isArm (p : Place) : Bool :=
  ["expression_case", "type_case", "default_case"].contains p.kind

def switch (p : Place) : Pattern :=
  .branch {
    condition := p.fields "initializer" ++ p.fields "alias" ++ p.fields "value"
    arms := (p.namedChildren.filter isArm).map Place.namedChildren
    exhaustive := p.namedChildren.any (·.kind == "default_case") }

def pattern (p : Place) : Pattern :=
  match p.kind with
  | "var_spec" | "const_spec" =>
    .binding ⟨.declaration, p.fields "name", p.itemsOf "value" listKinds⟩
  | "short_var_declaration" => bindItems .declaration p
  | "assignment_statement" => bindItems (Pattern.operatorKind p) p
  | "inc_statement" | "dec_statement" => .updateOf p.namedChildren.head?
  | "if_statement" => .ifElse ["initializer", "condition"] (fun other => [other]) p
  | "expression_switch_statement" | "type_switch_statement" => switch p
  | "for_statement" => forStatement p
  | "function_declaration" | "method_declaration" =>
    .defineNamed (parametersIn ["receiver", "parameters"] p) p
  | "func_literal" => .defineAnonymous (parametersIn ["parameters"] p) p
  | _ => .plain

end Go

/-- The table of Go. -/
def go : Language where
  name := "go"
  extensions := ["go"]
  identifiers := ["identifier", "field_identifier"]
  atoms := ["interpreted_string_literal", "raw_string_literal", "rune_literal"]
  comments := ["comment"]
  memberAccess := ["selector_expression"]
  pattern := Go.pattern

end TokenFlow.Language
