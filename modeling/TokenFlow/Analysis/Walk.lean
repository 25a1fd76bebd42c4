import TokenFlow.Analysis.Walkers
import TokenFlow.Analysis.Operand

/-!
# The walk over a program

Two walks go through a tree with the live definitions.  `visit` reads a place as a
statement: a name that is merely read there gets an edge from its live definitions.
`resolve` reads it as a value: what is read there is handed to the binding that
takes the value, which makes the edge.

Each walk takes a budget of levels that may still be entered.  Every step down the
tree costs one, so the recursion is on the budget, and a place met without any
budget left is reported and skipped.  What a walk does at one place is said by
`visitStep` and `resolveStep`, which do not recurse.
-/
namespace TokenFlow.Setup

variable (s : Setup)

/-- Reads a token as a statement.  A name with no live definition becomes its own. -/
def readToken (p : Place) (live : LiveDefs) : Traced LiveDefs := do
  match ← s.leaf p with
  | .name token =>
    match live.get? token.text with
    | none => return live.bind token.text token.index
    | some defs =>
      -- a token that is its own live definition has nothing to draw from
      unless defs == [token.index] do
        .emit [.ofSources token.text token.index .comesFrom (Source.ofDefs token.text defs)]
      return live
  | _ => return live

/-- Reads a token as a value. -/
def resolveToken (p : Place) (live : LiveDefs) : Traced (LiveDefs × List Source) := do
  match ← s.leaf p with
  | .name token =>
    match live.get? token.text with
    | none => return (live.bind token.text token.index, [token.source])
    | some defs => return (live, Source.ofDefs token.text defs)
  | .literal token => return (live, [token.source])
  | .silent => return (live, [])

/-- Reads a place as a statement. -/
def visitStep (w : Walkers) (p : Place) (live : LiveDefs) : Traced LiveDefs :=
  if s.language.isComment p.kind then return live
  else if s.language.isToken p.node then s.readToken p live
  else w.visitPattern s.passes (s.language.pattern p) p live

/-- Reads a place as a value. -/
def resolveStep (w : Walkers) (p : Place) (live : LiveDefs) :
    Traced (LiveDefs × List Source) :=
  if s.language.isComment p.kind then return (live, [])
  else if s.language.isToken p.node then s.resolveToken p live
  else w.resolvePattern s.passes (s.language.pattern p) p live

mutual
/-- Reads a place as a statement, entering as many levels as the budget allows. -/
def visit : Nat → Place → LiveDefs → Traced LiveDefs
  | 0, p, live => do
    s.cut p
    return live
  | budget + 1, p, live =>
    s.visitStep
      ⟨visit budget, resolve budget, s.targets budget, s.isReference budget⟩ p live

/-- Reads a place as a value, entering as many levels as the budget allows. -/
def resolve : Nat → Place → LiveDefs → Traced (LiveDefs × List Source)
  | 0, p, live => do
    s.cut p
    return (live, [])
  | budget + 1, p, live =>
    s.resolveStep
      ⟨visit budget, resolve budget, s.targets budget, s.isReference budget⟩ p live
end

/-- How to read places with a budget. -/
def walkers (budget : Nat) : Walkers :=
  ⟨s.visit budget, s.resolve budget, s.targets budget, s.isReference budget⟩

theorem visit_succ (budget : Nat) (p : Place) (live : LiveDefs) :
    s.visit (budget + 1) p live = s.visitStep (s.walkers budget) p live := rfl

theorem resolve_succ (budget : Nat) (p : Place) (live : LiveDefs) :
    s.resolve (budget + 1) p live = s.resolveStep (s.walkers budget) p live := rfl

end TokenFlow.Setup
