import TokenFlow.Syntax.Span

/-!
# Syntax trees

A `Node` has a kind, the name of the field under which its parent stores it, the
octets it covers, and its children in order.  Its `number` is its place in a walk
that meets every node before its children and the children from left to right;
two nodes of one tree are the same node exactly if their numbers are equal.

A tree reaches us as the list of its nodes in that order, each with its number of
children (`Entry`).  `ofEntries?` rebuilds it from the right: when a node's turn
comes, the trees that follow it are complete and lie ready in order, and the
first of them are its children.
-/
namespace TokenFlow

/-- A node of a syntax tree, with everything below it. -/
structure Node where
  /-- The place of the node in a walk of the whole tree, parents first. -/
  number : Nat
  /-- What the grammar calls it; of a keyword or a mark, its own text. -/
  kind : String
  /-- Whether the grammar has a rule of this name. -/
  named : Bool
  /-- The field under which the parent stores it. -/
  field : Option String
  /-- The offset of its first octet. -/
  first : Nat
  /-- The offset behind its last octet. -/
  beyond : Nat
  span : Span
  children : List Node

namespace Node

/-- A node as it is listed: with the number of its children in place of them. -/
structure Entry where
  kind : String
  named : Bool
  field : Option String
  first : Nat
  beyond : Nat
  childCount : Nat

/-- Whether nothing is below the node. -/
def isLeaf (n : Node) : Bool :=
  n.children.isEmpty

/-- Puts the node of an entry in front of the trees that follow it, taking its
children from them. -/
def gather (marks : Array Position) (entry : Entry × Nat) (trees : List Node) : List Node :=
  let (e, number) := entry
  let mark (offset : Nat) : Position := marks[offset]?.getD Position.origin
  { number, kind := e.kind, named := e.named, field := e.field,
    first := e.first, beyond := e.beyond,
    span := ⟨mark e.first, mark e.beyond⟩,
    children := trees.take e.childCount } :: trees.drop e.childCount

/-- The tree whose nodes are listed, over the given source text. -/
def ofEntries? (source : ByteArray) (entries : List Entry) : Option Node :=
  (entries.zipIdx.foldr (gather (Position.marks source)) []).head?

/-- The octets a node covers; none if the text does not reach to its end. -/
def octets (n : Node) (source : ByteArray) : List UInt8 :=
  if n.beyond ≤ source.size then (source.extract n.first n.beyond).toList else []

end Node

/-- The tree of a whole source text. -/
structure SyntaxTree where
  root : Node
  /-- Whether the text had errors that reading it had to get over. -/
  hasError : Bool

end TokenFlow
