import TokenFlow.Syntax.Node

/-!
# Nodes in their context

Whether a name reads a variable can depend on what its node is part of.  A `Place`
is therefore a node together with its parent, and everything that walks a tree
walks places: stepping to a child records the node stepped from.

The functions here are the ways in which a language table finds the parts of a
construct: by field, by kind, or by position beside a keyword.  Each answers with
children of the given place, except that `listItems` may answer with the place
itself.
-/
namespace TokenFlow

/-- A node of a tree, with its parent unless it is the root. -/
structure Place where
  parent : Option Node
  node : Node

namespace Place

/-- The root of a tree. -/
def root (n : Node) : Place := ⟨none, n⟩

/-- Two places are the same if they hold the same node. -/
instance : BEq Place := ⟨fun p q => p.node.number == q.node.number⟩

abbrev kind (p : Place) : String := p.node.kind

abbrev named (p : Place) : Bool := p.node.named

/-- Everything directly below, keywords and marks included. -/
def children (p : Place) : List Place :=
  p.node.children.map (⟨some p.node, ·⟩)

/-- The named children. -/
def namedChildren (p : Place) : List Place :=
  p.children.filter (·.named)

/-- The children stored under a field. -/
def fields (p : Place) (name : String) : List Place :=
  p.children.filter fun c => c.node.field == some name

/-- The first child stored under a field. -/
def field? (p : Place) (name : String) : Option Place :=
  p.children.find? fun c => c.node.field == some name

/-- The children stored under the first of several fields that holds any. -/
def firstFields (p : Place) (names : List String) : List Place :=
  ((names.map p.fields).find? fun found => !found.isEmpty).getD []

/-- The items of a node that lists them; a node of another kind, or one that lists
nothing, is its own single item. -/
def listItems (p : Place) (listKinds : List String) : List Place :=
  if listKinds.contains p.kind && !p.namedChildren.isEmpty then p.namedChildren else [p]

/-- The first named child of one of the given kinds. -/
def childOfKind? (p : Place) (kinds : List String) : Option Place :=
  p.namedChildren.find? fun c => kinds.contains c.kind

/-- Whether a child has this kind. -/
def hasChildKind (p : Place) (kind : String) : Bool :=
  p.children.any (·.kind == kind)

/-- The named children without some nodes. -/
def namedExcept (p : Place) (excluded : List Place) : List Place :=
  p.namedChildren.filter fun c => !excluded.contains c

/-- Whether the place is an unnamed node of this kind: a keyword or a mark. -/
def isMark (p : Place) (kind : String) : Bool :=
  !p.named && p.kind == kind

/-- The named children behind the first mark of this kind. -/
def namedAfter (p : Place) (kind : String) : List Place :=
  (p.children.dropWhile fun c => !c.isMark kind).filter (·.named)

/-- The named children in front of the first mark of this kind. -/
def namedBefore (p : Place) (kind : String) : List Place :=
  (p.children.takeWhile fun c => !c.isMark kind).filter (·.named)

/-- The text of an operator, which some grammars wrap in a node of its own. -/
def operatorText (p : Place) : String :=
  match p.node.children with
  | [inner] => if inner.named then p.kind else inner.kind
  | _ => p.kind

/-- The operator that joins target and value: the child in the field for it, or
else the first that looks like an assignment sign. -/
def operator? (p : Place) : Option String :=
  match p.field? "operator" with
  | some sign => some sign.operatorText
  | none =>
    (p.children.find? fun c =>
      c.kind == "assignment_operator" || c.kind.endsWith "=").map operatorText

/-- Whether the parent has the given kind and stores this node as its first child
in the given field. -/
def isFieldOf (p : Place) (parentKind field : String) : Bool :=
  match p.parent with
  | none => false
  | some above =>
    above.kind == parentKind && ((root above).field? field).any (· == p)

end Place

/-- Whether an operator combines the target with the value, as `+=` does.  Signs
that only assign or compare end alike but do not. -/
def isCompoundOperator (sign : String) : Bool :=
  sign.endsWith "=" && ["=", ":=", "==", "===", "!=", "<=", ">="].all (sign != ·)

end TokenFlow
