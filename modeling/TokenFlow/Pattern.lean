import TokenFlow.Syntax.Place

/-!
# Data-flow patterns

Whatever its language calls it, a construct moves values in one of few ways.  A
language table maps each node to a `Pattern` that names the parts of the construct;
the analysis gives every pattern its meaning once.
-/
namespace TokenFlow

/-- How a binding relates its targets to its values. -/
inductive BindingKind where
  /-- `x = y` -/
  | assignment
  /-- `x += y`: the target also draws from its own earlier value. -/
  | compound
  /-- `int x = y`, `x := y`: binds even without a value. -/
  | declaration
  deriving DecidableEq, Repr

/-- Targets defined from values.  Lists of equal length pair up element by element,
as in `a, b = b, a`; otherwise every target draws from every value. -/
structure Binding where
  kind : BindingKind
  targets : List Place
  values : List Place

/-- A conditional with its alternatives. -/
structure Branch where
  /-- Evaluated once, before any arm. -/
  condition : List Place
  /-- The alternatives, each started from what the condition leaves. -/
  arms : List (List Place)
  /-- Whether some arm always runs. -/
  exhaustive : Bool

/-- Iteration over the elements of something. -/
structure Iteration where
  targets : List Place
  iterable : Option Place
  body : List Place
  /-- Runs once after the last element. -/
  tail : List Place := []
  /-- Whether the targets are local to the body, as the parameters of a block are. -/
  isScoped : Bool := false

/-- A loop driven by a condition. -/
structure Loop where
  /-- Runs once before the loop. -/
  setup : List Place := []
  /-- Condition, body and update, in the order of evaluation. -/
  repeated : List Place
  /-- Runs once after the loop. -/
  tail : List Place := []

/-- A formal parameter; its name may be a pattern that takes a value apart. -/
structure Parameter where
  name : Place
  /-- What it holds when the caller passes nothing. -/
  fallback : Option Place := none

/-- The definition of a function, a method or an anonymous function. -/
structure Definition where
  name : Option Place
  parameters : List Parameter
  body : List Place

/-- The way in which a construct moves values. -/
inductive Pattern where
  | binding (b : Binding)
  /-- `i++`: every name in the operand is redefined from its own earlier value. -/
  | update (operand : Place)
  | branch (b : Branch)
  | iteration (i : Iteration)
  | loop (l : Loop)
  | definition (d : Definition)
  /-- Parts with an order of evaluation that differs from their order in the text. -/
  | sequence (first rest : List Place)
  /-- No pattern of its own: the children, in order. -/
  | plain

end TokenFlow
