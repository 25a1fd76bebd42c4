import TokenFlow.Language.Table

/-!
# The table of Ruby

A block runs any number of times against the variables around it, and only its
parameters are its own: it is an iteration with scoped targets and not a
definition.  Calling a method without arguments reads like a field.
-/
namespace TokenFlow.Language
namespace Ruby

/-- Kinds of nodes that list several targets or values. -/
def listKinds : List String :=
  ["left_assignment_list", "right_assignment_list"]

/-- The parameter that a node of a parameter list declares. -/
def parameter? (p : Place) : Option Parameter :=
  match p.kind with
  | "identifier" | "destructured_parameter" => some { name := p }
  | "optional_parameter" | "keyword_parameter" =>
    (p.field? "name").map fun name => ⟨name, p.field? "value"⟩
  | "splat_parameter" | "hash_splat_parameter" | "block_parameter" =>
    (p.field? "name").map fun name => { name }
  | _ => none

def parameters (p : Place) : List Parameter :=
  (p.namedIn "parameters").filterMap parameter?

/-- The child in the field of the body, or else the named children that stand in
none of the given fields. -/
def bodyOr (p : Place) (fields : List String) : List Place :=
  match p.field? "body" with
  | some body => [body]
  | none => p.namedExcept (p.parts fields)

def method (p : Place) : Pattern :=
  .definition ⟨p.field? "name", parameters p, bodyOr p ["name", "parameters", "object"]⟩

/-- The statements of a block. -/
def blockBody (p : Place) : List Place :=
  bodyOr p ["parameters"]

def block (p : Place) : Pattern :=
  .iteration {
    targets := (parameters p).map (·.name), iterable := none
    body := blockBody p, isScoped := true }

/-- A lambda; where its body is a block, the statements of the block. -/
def lambda (p : Place) : Pattern :=
  .definition ⟨none, parameters p,
    match p.field? "body" with
    | some body =>
      if body.kind == "block" || body.kind == "do_block" then blockBody body else [body]
    | none => []⟩

/-- Whether a child of a `case` is one of its arms. -/
def isArm (p : Place) : Bool :=
  p.kind == "when" || p.kind == "else"

def caseOf (p : Place) : Pattern :=
  .branch {
    condition := p.parts ["value"]
    arms := (p.namedChildren.filter isArm).map Place.namedChildren
    exhaustive := p.namedChildren.any (·.kind == "else") }

/-- A statement guarded from behind. -/
def guarded (p : Place) : Pattern :=
  .branch { condition := p.parts ["condition"], arms := [p.parts ["body"]], exhaustive := false }

def pattern (p : Place) : Pattern :=
  match p.kind with
  | "assignment" =>
    .binding ⟨.assignment, p.itemsOf "left" listKinds, p.itemsOf "right" listKinds⟩
  | "operator_assignment" => .bindFields .compound "left" "right" p
  | "if" | "unless" | "elsif" => .ifElse ["condition"] (fun other => [other]) p
  | "if_modifier" | "unless_modifier" => guarded p
  | "while" | "until" | "while_modifier" | "until_modifier" =>
    .loopOver ["condition", "body"] p
  | "for" => .iterateFields "pattern" "value" p
  | "case" => caseOf p
  | "method" | "singleton_method" => method p
  | "block" | "do_block" => block p
  | "lambda" => lambda p
  | _ => .plain

end Ruby

/-- The table of Ruby. -/
def ruby : Language where
  name := "ruby"
  extensions := ["rb"]
  identifiers := ["identifier", "instance_variable", "class_variable", "global_variable",
    "constant"]
  atoms := ["string", "character"]
  comments := ["comment"]
  memberAccess := ["call"]
  pattern := Ruby.pattern

end TokenFlow.Language
