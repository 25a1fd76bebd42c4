import TokenFlow.Pattern

/-!
# The parts of a pattern

`Pattern.parts` lists every place that a pattern names.  A walk goes on from a place to
its children or to the parts of its pattern and to nothing else, so what is closed
under both holds wherever a walk gets.
-/
namespace TokenFlow

/-- The name of a parameter and its fallback. -/
def Parameter.parts (q : Parameter) : List Place :=
  q.name :: q.fallback.toList

/-- Every place that a pattern names. -/
def Pattern.parts : Pattern → List Place
  | binding b => b.targets ++ b.values
  | update operand => [operand]
  | branch b => b.condition ++ b.arms.flatten
  | iteration i => i.targets ++ i.iterable.toList ++ i.body ++ i.tail
  | loop l => l.setup ++ l.repeated ++ l.tail
  | definition d => d.name.toList ++ d.parameters.flatMap Parameter.parts ++ d.body
  | sequence first rest => first ++ rest
  | plain => []

/-- The places that a pattern assigns to: their names are bound and not read. -/
def Pattern.assigned : Pattern → List Place
  | binding b => b.targets
  | update operand => [operand]
  | iteration i => i.targets
  | definition d => d.name.toList ++ d.parameters.map (·.name)
  | branch _ | loop _ | sequence _ _ | plain => []

/-- The places that a pattern reads, as statements or as values. -/
def Pattern.evaluated : Pattern → List Place
  | binding b => b.values
  | update _ => []
  | branch b => b.condition ++ b.arms.flatten
  | iteration i => i.iterable.toList ++ i.body ++ i.tail
  | loop l => l.setup ++ l.repeated ++ l.tail
  | definition d => d.parameters.flatMap (·.fallback.toList) ++ d.body
  | sequence first rest => first ++ rest
  | plain => []

/-- Every part of a pattern is assigned to or read. -/
theorem Pattern.mem_parts {pattern : Pattern} {p : Place} :
    p ∈ pattern.parts ↔ p ∈ pattern.assigned ∨ p ∈ pattern.evaluated := by
  cases pattern with
  | definition d =>
    have hparameters : p ∈ d.parameters.flatMap Parameter.parts ↔
        p ∈ d.parameters.map (·.name) ∨ p ∈ d.parameters.flatMap (·.fallback.toList) := by
      simp only [List.mem_flatMap, List.mem_map, Parameter.parts, List.mem_cons, and_or_left,
        exists_or, eq_comm]
    simp only [parts, assigned, evaluated, List.mem_append, hparameters, or_assoc]
  | binding b | update operand | branch b | iteration i | loop l | sequence first rest | plain =>
    simp [parts, assigned, evaluated]

end TokenFlow
