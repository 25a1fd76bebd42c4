import TokenFlow.LiveDefs
import TokenFlow.Edge.Fold
import TokenFlow.Pattern
import TokenFlow.Tokens
import TokenFlow.Analysis.Traced

/-!
# The meaning of the patterns

This module says what each pattern does to the live definitions and which edges it
brings up.  Nothing here recurses into a tree: whatever is nested deeper is read by
the `Walkers` that each function is given, so the meaning of a pattern depends on
its operands only through how they are read.
-/
namespace TokenFlow

/-- How to read what is nested one level deeper. -/
structure Walkers where
  /-- Reads a place as a statement. -/
  visit : Place → LiveDefs → Traced LiveDefs
  /-- Reads a place as a value, and answers its sources too. -/
  resolve : Place → LiveDefs → Traced (LiveDefs × List Source)
  /-- The variables that a place assigns to. -/
  targets : Place → Traced (List Token)
  /-- Whether a value is a mere copy. -/
  isReference : Place → Bool

/-- A token as a source. -/
def Token.source (t : Token) : Source := ⟨t.text, t.index⟩

/-- Makes each token the only live definition of its name, in order. -/
def LiveDefs.bindAll (live : LiveDefs) (tokens : List Token) : LiveDefs :=
  tokens.foldl (fun live t => live.bind t.text t.index) live

/-- What a value draws from, and whether it is a mere copy. -/
structure Value (α : Type) where
  sources : List α
  isReference : Bool

/-- One value made of several: a copy only if it was one and that a copy. -/
def Value.join {α : Type} (values : List (Value α)) : Value α where
  sources := values.flatMap (·.sources)
  isReference := match values with
    | [v] => v.isReference
    | _ => false

namespace Binding

/-- Each target with the value it takes: element by element where several targets
meet as many values, and all values for each target otherwise. -/
def pairUp {α : Type} (targets : List Place) (values : List (Value α)) :
    List (Place × Value α) :=
  if targets.length > 1 && targets.length == values.length then targets.zip values
  else targets.map (·, Value.join values)

end Binding

namespace BindingKind

/-- How a target of a binding relates to its value. -/
def relation {α : Type} (kind : BindingKind) (v : Value α) : Relation :=
  if v.isReference && kind != .compound then .comesFrom else .computedFrom

/-- The sources of a target: those of its value, and for a compound binding its own
live definitions too. -/
def sources (kind : BindingKind) (v : Value Source) (live : LiveDefs) (t : Token) :
    List Source :=
  match kind with
  | .compound => v.sources ++ Source.ofDefs t.text ((live.get? t.text).getD [])
  | _ => v.sources

end BindingKind

namespace Walkers

variable (w : Walkers)

/-! ### Sequences -/

/-- Reads places as statements, one after the other. -/
def visitAll : List Place → LiveDefs → Traced LiveDefs
  | [], live => return live
  | p :: ps, live => do
    let live ← w.visit p live
    visitAll ps live

/-- Reads places as parts of one value, one after the other. -/
def resolveAll : List Place → LiveDefs → Traced (LiveDefs × List Source)
  | [], live => return (live, [])
  | p :: ps, live => do
    let (live, found) ← w.resolve p live
    let (live, more) ← resolveAll ps live
    return (live, found ++ more)

/-- The variables that several places assign to. -/
def allTargets (places : List Place) : Traced (List Token) :=
  Traced.gather w.targets places

/-! ### Bindings and updates -/

/-- Reads the values of a binding. -/
def readValues : List Place → LiveDefs → Traced (LiveDefs × List (Value Source))
  | [], live => return (live, [])
  | p :: ps, live => do
    let (live, sources) ← w.resolve p live
    let (live, more) ← readValues ps live
    return (live, ⟨sources, w.isReference p⟩ :: more)

/-- Brings up the edges of the targets of a binding and answers the tokens that it
defines. -/
def defineTargets (kind : BindingKind) (live : LiveDefs) :
    List (Place × Value Source) → Traced (List Token)
  | [] => return []
  | (target, v) :: rest => do
    let tokens ← w.targets target
    .emit (tokens.map fun t =>
      .ofSources t.text t.index (kind.relation v) (kind.sources v live t))
    return tokens ++ (← defineTargets kind live rest)

/-- A binding: all values are read, then all edges are made, then all targets are
bound, so that `a, b = b, a` swaps.  Answers the tokens it defines too. -/
def bind (b : Binding) (live : LiveDefs) : Traced (LiveDefs × List Token) := do
  let (live, values) ← w.readValues b.values live
  let defined ← w.defineTargets b.kind live (Binding.pairUp b.targets values)
  return (live.bindAll defined, defined)

/-- Redefines tokens from their own earlier values, one after the other. -/
def updateTokens : List Token → LiveDefs → Traced LiveDefs
  | [], live => return live
  | t :: ts, live => do
    let sources := match live.get? t.text with
      | some defs => Source.ofDefs t.text defs
      | none => [t.source]
    .emit [.ofSources t.text t.index .computedFrom sources]
    updateTokens ts (live.bind t.text t.index)

/-- An update of everything that an operand names.  Answers the tokens it defines
too. -/
def update (operand : Place) (live : LiveDefs) : Traced (LiveDefs × List Token) := do
  let tokens ← w.targets operand
  return (← updateTokens tokens live, tokens)

/-! ### Alternatives -/

/-- What each arm leaves when it is started from the same live definitions. -/
def armOutcomes : List (List Place) → LiveDefs → Traced (List LiveDefs)
  | [], _ => return []
  | arm :: arms, live => do
    let outcome ← w.visitAll arm live
    return outcome :: (← armOutcomes arms live)

/-- A conditional.  Where no arm need run, what came in may survive. -/
def branch (b : Branch) (live : LiveDefs) : Traced LiveDefs := do
  let live ← w.visitAll b.condition live
  let outcomes ← w.armOutcomes b.arms live
  let skipped := if b.exhaustive && !outcomes.isEmpty then [] else [live]
  return .merge (outcomes ++ skipped)

/-! ### Repetition -/

/-- Reads something several times over. -/
def rounds (round : LiveDefs → Traced LiveDefs) : Nat → LiveDefs → Traced LiveDefs
  | 0, live => return live
  | n + 1, live => do
    let live ← round live
    rounds round n live

/-- One round of an iteration: the targets draw from the iterable, then the body is
read. -/
def round (i : Iteration) (live : LiveDefs) : Traced LiveDefs := do
  let (live, sources) ← w.resolveAll i.iterable.toList live
  let tokens ← w.allTargets i.targets
  .emit (tokens.map fun t => .ofSources t.text t.index .computedFrom sources)
  w.visitAll i.body (live.bindAll tokens)

/-- What the scoped targets of an iteration are bound to before it. -/
def shadowed (i : Iteration) (live : LiveDefs) : Traced (List (String × Option (List Nat))) :=
  if i.isScoped then
    return (← w.allTargets i.targets).map fun t => (t.text, live.get? t.text)
  else return []

/-- An iteration of so many rounds.  Behind it, scoped targets are put back to what
they were. -/
def iterate (passes : Nat) (i : Iteration) (live : LiveDefs) : Traced LiveDefs := do
  let outer ← w.shadowed i live
  let live ← (rounds (w.round i) passes live).mapEdges Edge.fold
  let live ← w.visitAll i.tail live
  return outer.foldl (fun live (name, defs) => live.restore name defs) live

/-- A loop of so many rounds. -/
def loop (passes : Nat) (l : Loop) (live : LiveDefs) : Traced LiveDefs := do
  let live ← w.visitAll l.setup live
  let live ← (rounds (w.visitAll l.repeated) passes live).mapEdges Edge.fold
  w.visitAll l.tail live

/-! ### Definitions -/

/-- Binds the parameters of a function to their fallbacks, from left to right. -/
def bindParameters : List Parameter → LiveDefs → Traced LiveDefs
  | [], scope => return scope
  | q :: qs, scope => do
    let (scope, _) ← w.bind ⟨.declaration, [q.name], q.fallback.toList⟩ scope
    bindParameters qs scope

/-- The definition of a function.  Its name is bound around it; parameters and body
have a scope of their own, of which nothing is left behind. -/
def define (d : Definition) (live : LiveDefs) : Traced LiveDefs := do
  let names ← w.allTargets d.name.toList
  let scope ← w.bindParameters d.parameters .empty
  let _ ← w.visitAll d.body scope
  return live.bindAll names

/-! ### Patterns -/

/-- The pattern at a place, read as a statement. -/
def visitPattern (passes : Nat) (pattern : Pattern) (p : Place) (live : LiveDefs) :
    Traced LiveDefs :=
  match pattern with
  | .binding b => return (← w.bind b live).1
  | .update operand => return (← w.update operand live).1
  | .branch b => w.branch b live
  | .iteration i => w.iterate passes i live
  | .loop l => w.loop passes l live
  | .definition d => w.define d live
  | .sequence first rest => w.visitAll (first ++ rest) live
  | .plain => w.visitAll p.children live

/-- The pattern at a place, read as a value.  Bindings and updates inside a value
contribute what they define; definitions and iterations contribute nothing. -/
def resolvePattern (passes : Nat) (pattern : Pattern) (p : Place) (live : LiveDefs) :
    Traced (LiveDefs × List Source) :=
  match pattern with
  | .binding b => do
    let (live, defined) ← w.bind b live
    return (live, defined.map Token.source)
  | .update operand => do
    let (live, defined) ← w.update operand live
    return (live, defined.map Token.source)
  | .iteration i => return (← w.iterate passes i live, [])
  | .definition d => return (← w.define d live, [])
  | .sequence first rest => w.resolveAll (first ++ rest) live
  -- a branch or a loop inside a value is read only for what it holds
  | _ => w.resolveAll p.children live

end Walkers

end TokenFlow
