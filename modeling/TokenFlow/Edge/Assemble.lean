import TokenFlow.Edge.Basic

/-!
# The final list of edges

Edges without sources say nothing and are left out.  Of edges that agree in
everything but the relation, the first stays where it is and the others are left out
too, unless repetitions are asked for.
-/
namespace TokenFlow.Edge

/-- Whether two edges draw the same token from the same sources. -/
def sameFlow (e f : Edge) : Bool :=
  e.name == f.name && e.index == f.index &&
    e.sourceIndices == f.sourceIndices && e.sourceNames == f.sourceNames

/-- The edges that no edge seen or listed before them agrees with. -/
def withoutRepeats (seen : List Edge) : List Edge → List Edge
  | [] => []
  | e :: es =>
    if seen.any e.sameFlow then withoutRepeats seen es
    else e :: withoutRepeats (e :: seen) es

/-- The edges with sources, each once if `dedupe` is set. -/
def assemble (dedupe : Bool) (edges : List Edge) : List Edge :=
  let informative := edges.filter hasSources
  if dedupe then withoutRepeats [] informative else informative

end TokenFlow.Edge
