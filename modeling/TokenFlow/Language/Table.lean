import TokenFlow.Pattern
import TokenFlow.Syntax.ForClauses

/-!
# What a language table says

A `Language` tells the analysis all it has to know about a grammar: which kinds of
leaves are names, which nodes count as one token although they have parts, which
are comments, which chains of names merely refer, and which pattern each construct
has.  The analysis never looks at a kind itself.

The second half of the module gives the patterns of constructs that several
grammars store alike.
-/
namespace TokenFlow

/-- The table of one language. -/
structure Language where
  /-- The name under which the language is known. -/
  name : String
  /-- The extensions of its files, without the dot. -/
  extensions : List String
  /-- Kinds of leaves that name variables. -/
  identifiers : List String
  /-- Kinds of nodes that are one token although they have parts. -/
  atoms : List String
  /-- Kinds of comments. -/
  comments : List String
  /-- Kinds of nodes that only refer to a part of something: a copy of `a.b` is a
  copy and not a computation. -/
  memberAccess : List String
  /-- Whether a name at a place labels something in place of reading a variable. -/
  isLabel : Place → Bool := fun _ => false
  /-- The pattern of the construct at a place. -/
  pattern : Place → Pattern

namespace Language

def isIdentifier (l : Language) (kind : String) : Bool :=
  l.identifiers.contains kind

def isAtom (l : Language) (kind : String) : Bool :=
  l.atoms.contains kind

def isComment (l : Language) (kind : String) : Bool :=
  l.comments.contains kind

/-- Whether a file with this extension is written in the language.  The case of
the extension matters. -/
def handlesExtension (l : Language) (extension : String) : Bool :=
  l.extensions.contains extension

/-- Whether a node is one token: it has no parts, or they do not count. -/
def isToken (l : Language) (n : Node) : Bool :=
  n.isLeaf || l.isAtom n.kind

end Language

namespace Place

/-- The children in several fields that hold at most one each, in the order of the
fields. -/
def parts (p : Place) (names : List String) : List Place :=
  names.filterMap p.field?

/-- The items listed in a field, and none if the field is empty. -/
def itemsOf (p : Place) (field : String) (listKinds : List String) : List Place :=
  ((p.field? field).map (·.listItems listKinds)).getD []

/-- The named children of the child in a field. -/
def namedIn (p : Place) (field : String) : List Place :=
  ((p.field? field).map namedChildren).getD []

end Place

namespace Pattern

/-- A binding of one field from another. -/
def bindFields (kind : BindingKind) (target value : String) (p : Place) : Pattern :=
  .binding ⟨kind, p.parts [target], p.parts [value]⟩

/-- A declaration of the name in a field, without a value. -/
def declareField (target : String) (p : Place) : Pattern :=
  .binding ⟨.declaration, p.parts [target], []⟩

/-- Whether the operator at a place combines or only assigns. -/
def operatorKind (p : Place) : BindingKind :=
  if p.operator?.any isCompoundOperator then .compound else .assignment

/-- The update of an operand, if there is one. -/
def updateOf (operand : Option Place) : Pattern :=
  match operand with
  | some p => .update p
  | none => .plain

/-- A conditional with a consequence and perhaps an alternative, which holds what
`otherwise` finds in it. -/
def ifElse (condition : List String) (otherwise : Place → List Place) (p : Place) : Pattern :=
  .branch {
    condition := p.parts condition
    arms := [p.parts ["consequence"], ((p.field? "alternative").map otherwise).getD []]
    exhaustive := (p.field? "alternative").isSome }

/-- A loop over the parts in some fields, in the order of evaluation. -/
def loopOver (fields : List String) (p : Place) : Pattern :=
  .loop { repeated := p.parts fields }

/-- A loop with a three-part header. -/
def threePartLoop (p : Place) : Pattern :=
  let clauses := ForClauses.locate p
  .loop { setup := clauses.init, repeated := clauses.repeated }

/-- An iteration whose target, iterable and body stand in fields. -/
def iterateFields (target iterable : String) (p : Place) : Pattern :=
  .iteration {
    targets := p.parts [target], iterable := p.field? iterable, body := p.parts ["body"] }

/-- A definition with the given parameters whose name and body stand in fields. -/
def defineNamed (parameters : List Parameter) (p : Place) : Pattern :=
  .definition ⟨p.field? "name", parameters, p.parts ["body"]⟩

/-- A definition without a name. -/
def defineAnonymous (parameters : List Parameter) (p : Place) : Pattern :=
  .definition ⟨none, parameters, p.parts ["body"]⟩

end Pattern

end TokenFlow
