import TokenFlow.Edge.Basic

/-!
# The edges of a loop

The passes over the body of a loop define the same tokens several times.  `fold`
makes one edge of all that define a token in the same way: it stands where the first
of them stood and has the sources of all of them.
-/
namespace TokenFlow.Edge

/-- Whether two edges define the same token in the same way. -/
def sameSlot (e f : Edge) : Bool :=
  e.name == f.name && e.index == f.index && e.relation == f.relation

/-- Unites an edge with the one for its slot, or appends it where there is none. -/
def absorb : List Edge → Edge → List Edge
  | [], e => [e]
  | f :: fs, e =>
    if f.sameSlot e then ofSources f.name f.index f.relation (f.sources ++ e.sources) :: fs
    else f :: absorb fs e

/-- One edge for each slot, with the sources of all edges of the slot. -/
def fold (edges : List Edge) : List Edge :=
  edges.foldl absorb []

end TokenFlow.Edge
