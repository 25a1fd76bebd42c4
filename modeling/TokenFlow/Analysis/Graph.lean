import TokenFlow.Analysis.Walk

/-!
# The data-flow graph of a tree

`Setup.graph` reads a whole tree from given live definitions.  Its edges are raw: in
the order of the walk, with those that say nothing and those that repeat others.  A
loop brings up the degradations of its body once for every round; each is listed
once, where it came up first.
-/
namespace TokenFlow

/-- What the analysis finds in a tree. -/
structure Graph where
  edges : List Edge
  /-- The live definitions at the end. -/
  live : LiveDefs
  degradations : List Degradation

namespace Graph

/-- The edges that define a variable. -/
def edgesFor (edges : List Edge) (name : String) : List Edge :=
  edges.filter (·.name == name)

end Graph

/-- The graph of a tree whose root is read from some live definitions. -/
def Setup.graph (s : Setup) (root : Place) (live : LiveDefs) : Graph :=
  let walked := s.visit s.budget root live
  { edges := walked.edges
    live := walked.value
    degradations := walked.degradations.eraseDups }

/-- The graphs of several trees, each with a setup of its own and read from what the
one before it leaves. -/
def Graph.chain : List (Setup × Place) → LiveDefs → List Graph
  | [], _ => []
  | (s, root) :: rest, live =>
    let graph := s.graph root live
    graph :: chain rest graph.live

end TokenFlow
