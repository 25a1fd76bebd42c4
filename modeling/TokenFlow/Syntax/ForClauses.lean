import TokenFlow.Syntax.Place

/-!
# The clauses of a three-part loop header

`for (init; condition; update) body`, as grammars store it in two ways.  Where the
clauses have fields, the fields decide.  Where they have none, the named children
between the parentheses are told apart by the semicolons passed so far, and the
first named child outside the parentheses is the body.
-/
namespace TokenFlow

/-- The clauses of a loop header and the body. -/
structure ForClauses where
  init : List Place := []
  condition : List Place := []
  update : List Place := []
  body : Option Place := none

namespace ForClauses

/-- What has been passed of a header without fields. -/
structure Reading where
  /-- Semicolons passed inside the parentheses. -/
  segment : Nat := 0
  /-- Whether the last parenthesis passed was an opening one. -/
  inside : Bool := false
  clauses : ForClauses

/-- Adds a named child to the clause of the segment it stands in. -/
def addClause (clauses : ForClauses) (segment : Nat) (p : Place) : ForClauses :=
  match segment with
  | 0 => { clauses with init := clauses.init ++ [p] }
  | 1 => { clauses with condition := clauses.condition ++ [p] }
  | _ => { clauses with update := clauses.update ++ [p] }

/-- Passes one more child of the header. -/
def Reading.pass (r : Reading) (p : Place) : Reading :=
  if r.inside then
    if p.kind == ")" then { r with inside := false }
    else if p.kind == ";" then { r with segment := r.segment + 1 }
    else if p.named then { r with clauses := r.clauses.addClause r.segment p }
    else r
  else if p.kind == "(" then { r with inside := true }
  else if p.named && r.clauses.body.isNone then
    { r with clauses := { r.clauses with body := some p } }
  else r

/-- The clauses found at a loop. -/
def locate (p : Place) : ForClauses :=
  let init := p.firstFields ["init", "initializer", "initialize"]
  let condition := p.fields "condition"
  let update := p.firstFields ["update", "increment"]
  let body := p.field? "body"
  if !init.isEmpty || !condition.isEmpty || !update.isEmpty then
    { init, condition, update, body }
  else
    (p.children.foldl Reading.pass { clauses := { body } }).clauses

/-- What repeats: condition, body, update, in the order of evaluation. -/
def repeated (c : ForClauses) : List Place :=
  c.condition ++ c.body.toList ++ c.update

end ForClauses

end TokenFlow
