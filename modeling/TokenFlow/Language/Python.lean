import TokenFlow.Language.Table

/-!
# The table of Python

The arms of an `if` with `elif` clauses lie side by side: each clause is an arm
that begins with its own condition.  Comprehension clauses come before the element
they produce, whatever their place in the text.
-/
namespace TokenFlow.Language
namespace Python

/-- Kinds of nodes that list several targets or values. -/
def listKinds : List String :=
  ["pattern_list", "expression_list", "tuple_pattern", "list_pattern", "tuple"]

/-- An assignment; with an annotation and no value it only declares. -/
def assignment (p : Place) : Pattern :=
  let targets := p.itemsOf "left" listKinds
  match p.field? "right" with
  | some right => .binding ⟨.assignment, targets, right.listItems listKinds⟩
  | none => .binding ⟨.declaration, targets, []⟩

/-- A value bound under another name, as in `with open(path) as file`. -/
def asPattern (p : Place) : Pattern :=
  let name := p.parts ["alias"]
  .binding ⟨.assignment, name, (p.namedExcept name).take 1⟩

/-- The arm of one clause behind the first. -/
def clauseArm (clause : Place) : List Place :=
  if clause.kind == "elif_clause" then clause.parts ["condition", "consequence"]
  else clause.parts ["body"]

def ifStatement (p : Place) : Pattern :=
  let clauses := p.fields "alternative"
  .branch {
    condition := p.parts ["condition"]
    arms := p.parts ["consequence"] :: clauses.map clauseArm
    exhaustive := clauses.any (·.kind != "elif_clause") }

/-- A `match` statement.  That a wildcard case catches everything is not used. -/
def matchStatement (p : Place) : Pattern :=
  .branch {
    condition := p.fields "subject"
    arms := ((p.namedIn "body").filter (·.kind == "case_clause")).map Place.namedChildren
    exhaustive := false }

/-- The parameter that a node of a parameter list declares. -/
def parameter? (p : Place) : Option Parameter :=
  match p.kind with
  | "default_parameter" | "typed_default_parameter" =>
    (p.field? "name").map fun name => ⟨name, p.field? "value"⟩
  | "typed_parameter" => p.namedChildren.head?.map fun name => { name }
  | "identifier" | "list_splat_pattern" | "dictionary_splat_pattern" | "tuple_pattern" =>
    some { name := p }
  | _ => none

def parameters (p : Place) : List Parameter :=
  (p.namedIn "parameters").filterMap parameter?

/-- The body of the `else` clause of a loop. -/
def elseBody (p : Place) : List Place :=
  ((p.field? "alternative").bind (·.field? "body")).toList

def forStatement (p : Place) : Pattern :=
  .iteration {
    targets := p.itemsOf "left" listKinds
    iterable := p.field? "right"
    body := p.parts ["body"]
    tail := elseBody p }

/-- The `for` clause of a comprehension. -/
def forClause (p : Place) : Pattern :=
  .iteration {
    targets := p.itemsOf "left" listKinds, iterable := p.field? "right", body := [] }

def whileStatement (p : Place) : Pattern :=
  .loop { repeated := p.parts ["condition", "body"], tail := elseBody p }

def comprehension (p : Place) : Pattern :=
  let element := p.parts ["body"]
  .sequence (p.namedExcept element) element

def pattern (p : Place) : Pattern :=
  match p.kind with
  | "assignment" => assignment p
  | "augmented_assignment" => .bindFields .compound "left" "right" p
  | "named_expression" => .bindFields .assignment "name" "value" p
  | "as_pattern" => asPattern p
  | "if_statement" => ifStatement p
  | "match_statement" => matchStatement p
  | "for_statement" => forStatement p
  | "for_in_clause" => forClause p
  | "while_statement" => whileStatement p
  | "function_definition" => .defineNamed (parameters p) p
  | "lambda" => .defineAnonymous (parameters p) p
  | "list_comprehension" | "set_comprehension" | "dictionary_comprehension"
  | "generator_expression" => comprehension p
  | _ => .plain

end Python

/-- The table of Python. -/
def python : Language where
  name := "python"
  extensions := ["py"]
  identifiers := ["identifier"]
  atoms := ["string"]
  comments := ["comment"]
  memberAccess := ["attribute"]
  isLabel p := p.isFieldOf "keyword_argument" "name"
  pattern := Python.pattern

end TokenFlow.Language
