import Mathlib.Data.Set.Defs
import TokenFlow.Analysis.Walk
import TokenFlow.Proofs.WalkSpecs

/-!
# Path runs

The walk over a program merges the alternatives of a conditional and folds the passes
over a loop.  A *path run* does neither: at every conditional that is read as a statement
it takes one alternative, and the repeated part of every loop it runs some number of
times, choosing afresh each time.  Everything else it does as the walk does, operand for
operand, so that the two can be compared.

A computation that makes such choices has many outcomes; `Paths` is the monad of sets of
outcomes, and the definitions below are those of the walk written in it.  How often a
repeated part may run is a parameter (`rounds`), since it is part of what is claimed.

Along a path the definition of a name is either **firm**, made by the seed, a binding, an
update, an iteration or a definition, or it is only the **first sighting** of a name that
was not bound.  A `Trail` keeps the two apart, and so do the sources of a `PathEdge`.
-/
namespace TokenFlow

/-! ## Outcomes -/

/-- A source as a path draws it. -/
structure PathSource where
  source : Source
  /-- Whether it is a literal, what a nested binding defines, or a firm definition. -/
  firm : Bool

/-- An edge that a path brings up. -/
structure PathEdge where
  name : String
  index : Nat
  relation : Relation
  sources : List PathSource

/-- The token that the edge defines, and how. -/
def PathEdge.slot (f : PathEdge) : String × Nat × Relation :=
  (f.name, f.index, f.relation)

/-- One outcome of a computation, with the edges brought up on the way. -/
structure Run (α : Type) where
  value : α
  edges : List PathEdge

/-- The outcomes that a computation may have. -/
def Paths (α : Type) : Type := Set (Run α)

namespace Paths

variable {α β : Type}

instance : Membership (Run α) (Paths α) := ⟨fun x r => x r⟩

instance : Monad Paths where
  pure a := fun r => r = ⟨a, []⟩
  bind x f := fun r =>
    ∃ before ∈ x, ∃ after ∈ f before.value, r = ⟨after.value, before.edges ++ after.edges⟩

theorem mem_pure {a : α} {r : Run α} : r ∈ (pure a : Paths α) ↔ r = ⟨a, []⟩ := Iff.rfl

theorem mem_bind {x : Paths α} {f : α → Paths β} {r : Run β} :
    r ∈ x >>= f ↔
      ∃ before ∈ x, ∃ after ∈ f before.value, r = ⟨after.value, before.edges ++ after.edges⟩ :=
  Iff.rfl

theorem ext {x y : Paths α} (h : ∀ r, r ∈ x ↔ r ∈ y) : x = y :=
  funext fun r => propext (h r)

theorem mem_map {f : α → β} {x : Paths α} {r : Run β} :
    r ∈ f <$> x ↔ ∃ before ∈ x, r = ⟨f before.value, before.edges⟩ := by
  constructor
  · rintro ⟨before, hbefore, after, rfl, rfl⟩
    exact ⟨before, hbefore, by rw [List.append_nil]⟩
  · rintro ⟨before, hbefore, rfl⟩
    exact ⟨before, hbefore, _, rfl, by rw [List.append_nil]⟩

theorem mem_pure_bind {a : α} {f : α → Paths β} {r : Run β} : r ∈ pure a >>= f ↔ r ∈ f a := by
  constructor
  · rintro ⟨_, rfl, after, hafter, rfl⟩
    exact hafter
  · exact fun h => ⟨_, rfl, r, h, rfl⟩

theorem mem_bind_bind {γ : Type} {x : Paths α} {f : α → Paths β} {g : β → Paths γ} {r : Run γ} :
    r ∈ x >>= f >>= g ↔ r ∈ x >>= fun a => f a >>= g := by
  constructor
  · rintro ⟨_, ⟨before, hbefore, after, hafter, rfl⟩, last, hlast, rfl⟩
    exact ⟨before, hbefore, _, ⟨after, hafter, last, hlast, rfl⟩, by rw [List.append_assoc]⟩
  · rintro ⟨before, hbefore, _, ⟨after, hafter, last, hlast, rfl⟩, rfl⟩
    exact ⟨_, ⟨before, hbefore, after, hafter, rfl⟩, last, hlast, by rw [List.append_assoc]⟩

instance : LawfulMonad Paths := LawfulMonad.mk' Paths
  (fun x => ext fun r => mem_map.trans ⟨fun ⟨_, h, heq⟩ => heq ▸ h, fun h => ⟨r, h, rfl⟩⟩)
  (fun _ _ => ext fun _ => mem_pure_bind)
  (fun _ _ _ => ext fun _ => mem_bind_bind)

/-- Brings up some edges. -/
def emit (edges : List PathEdge) : Paths Unit :=
  fun r => r = ⟨(), edges⟩

/-- Any value that meets a condition. -/
def choose (P : α → Prop) : Paths α :=
  fun r => P r.value ∧ r.edges = []

theorem mem_emit_bind {edges : List PathEdge} {f : Unit → Paths β} {r : Run β} :
    r ∈ emit edges >>= f ↔ ∃ after ∈ f (), r = ⟨after.value, edges ++ after.edges⟩ := by
  constructor
  · rintro ⟨_, rfl, after, hafter, rfl⟩
    exact ⟨after, hafter, rfl⟩
  · rintro ⟨after, hafter, rfl⟩
    exact ⟨_, rfl, after, hafter, rfl⟩

theorem mem_choose_bind {P : α → Prop} {f : α → Paths β} {r : Run β} :
    r ∈ choose P >>= f ↔ ∃ a, P a ∧ r ∈ f a := by
  constructor
  · rintro ⟨before, ⟨hP, hnone⟩, after, hafter, rfl⟩
    rw [hnone]
    exact ⟨_, hP, hafter⟩
  · rintro ⟨a, hP, hr⟩
    exact ⟨⟨a, []⟩, ⟨hP, rfl⟩, r, hr, rfl⟩

end Paths

/-! ## Trails -/

/-- What a path holds of a bound name. -/
structure Held where
  defs : List Nat
  /-- Whether they were made, and not only sighted. -/
  firm : Bool

/-- The definitions as sources. -/
def Held.sources (held : Held) (name : String) : List PathSource :=
  (Source.ofDefs name held.defs).map (⟨·, held.firm⟩)

/-- What a path holds of each name. -/
def Trail : Type := String → Option Held

namespace Trail

/-- Nothing is bound. -/
def empty : Trail := fun _ => none

/-- The trail at the start, where whatever is live is firm. -/
def ofLive (live : LiveDefs) : Trail :=
  fun name => (live.get? name).map (⟨·, true⟩)

/-- Binds a name as given, or unbinds it. -/
def restore (t : Trail) (name : String) (own : Option Held) : Trail :=
  fun other => if name = other then own else t other

/-- Makes a token the only definition of its name. -/
def bind (t : Trail) (k : Token) : Trail :=
  t.restore k.text (some ⟨[k.index], true⟩)

/-- Binds a token's name to it unless the name is bound.  That does not make it firm. -/
def sight (t : Trail) (k : Token) : Trail :=
  match t k.text with
  | none => t.restore k.text (some ⟨[k.index], false⟩)
  | some _ => t

theorem sight_of_eq_none {t : Trail} {k : Token} (h : t k.text = none) :
    t.sight k = t.restore k.text (some ⟨[k.index], false⟩) := by
  rw [sight, h]

theorem sight_of_eq_some {t : Trail} {k : Token} {held : Held} (h : t k.text = some held) :
    t.sight k = t := by
  rw [sight, h]

theorem sight_of_ne (t : Trail) {k : Token} {name : String} (h : k.text ≠ name) :
    t.sight k name = t name := by
  cases hheld : t k.text with
  | none =>
    rw [sight_of_eq_none hheld]
    exact if_neg h
  | some held => rw [sight_of_eq_some hheld]

/-- What a name draws from as a value, as `LiveDefs.sources`. -/
def sources (t : Trail) (k : Token) : List PathSource :=
  match t k.text with
  | none => [⟨k.source, false⟩]
  | some held => held.sources k.text

/-- The edges of a name that is read as a statement, as `LiveDefs.reads`. -/
def reads (t : Trail) (k : Token) : List PathEdge :=
  match t k.text with
  | none => []
  | some held =>
    if held.defs = [k.index] then []
    else [⟨k.text, k.index, .comesFrom, held.sources k.text⟩]

/-- Makes each token the only definition of its name, in order. -/
def bindAll (t : Trail) (tokens : List Token) : Trail :=
  tokens.foldl bind t

/-- Puts names back to what was held of them. -/
def restoreAll (t : Trail) (outer : List (String × Option Held)) : Trail :=
  outer.foldl (fun t (name, own) => t.restore name own) t

/-- As `LiveDefs.get?_restoreAll`. -/
theorem restoreAll_apply (t before : Trail) (ks : List Token) (name : String) :
    t.restoreAll (ks.map fun k => (k.text, before k.text)) name =
      if name ∈ ks.map (·.text) then before name else t name := by
  induction ks generalizing t with
  | nil => rfl
  | cons k ks ih =>
    show (t.restore k.text (before k.text)).restoreAll _ name = _
    rw [ih, restore, List.map_cons]
    by_cases hks : name ∈ ks.map (·.text)
    · rw [if_pos hks, if_pos (List.mem_cons_of_mem _ hks)]
    · rw [if_neg hks]
      by_cases hk : k.text = name
      · rw [if_pos hk, if_pos (hk ▸ List.mem_cons_self), hk]
      · rw [if_neg hk, if_neg fun h => (List.mem_cons.mp h).elim (fun h => hk h.symm) hks]

end Trail

/-- The sources of a target, as `BindingKind.sources`. -/
def BindingKind.pathSources (kind : BindingKind) (v : Value PathSource) (t : Trail) (k : Token) :
    List PathSource :=
  match kind with
  | .compound => v.sources ++ ((t k.text).map (·.sources k.text)).getD []
  | _ => v.sources

theorem BindingKind.mem_pathSources {kind : BindingKind} {v : Value PathSource} {t : Trail}
    {k : Token} {x : PathSource} :
    x ∈ kind.pathSources v t k ↔
      x ∈ v.sources ∨ kind = .compound ∧
        ∃ held, t k.text = some held ∧ x ∈ held.sources k.text := by
  cases kind with
  | assignment | declaration => simp [pathSources]
  | compound =>
    rw [pathSources, List.mem_append]
    cases t k.text <;> simp

/-! ## Patterns -/

/-- How a path reads what is nested one level deeper. -/
structure PathWalkers where
  visit : Place → Trail → Paths Trail
  resolve : Place → Trail → Paths (Trail × List PathSource)
  targets : Place → List Token
  isReference : Place → Bool

namespace PathWalkers

variable (w : PathWalkers)

def visitAll : List Place → Trail → Paths Trail
  | [], t => return t
  | p :: ps, t => do visitAll ps (← w.visit p t)

def resolveAll : List Place → Trail → Paths (Trail × List PathSource)
  | [], t => return (t, [])
  | p :: ps, t => do
    let (t, found) ← w.resolve p t
    let (t, more) ← resolveAll ps t
    return (t, found ++ more)

def readValues : List Place → Trail → Paths (Trail × List (Value PathSource))
  | [], t => return (t, [])
  | p :: ps, t => do
    let (t, sources) ← w.resolve p t
    let (t, more) ← readValues ps t
    return (t, ⟨sources, w.isReference p⟩ :: more)

/-- The edges of the targets of a binding. -/
def targetEdges (kind : BindingKind) (t : Trail) (pairs : List (Place × Value PathSource)) :
    List PathEdge :=
  pairs.flatMap fun (target, v) => (w.targets target).map fun k =>
    ⟨k.text, k.index, kind.relation v, kind.pathSources v t k⟩

def bind (b : Binding) (t : Trail) : Paths (Trail × List Token) := do
  let (t, values) ← w.readValues b.values t
  .emit (w.targetEdges b.kind t (Binding.pairUp b.targets values))
  let defined := b.targets.flatMap w.targets
  return (t.bindAll defined, defined)

def updateTokens : List Token → Trail → Paths Trail
  | [], t => return t
  | k :: ks, t => do
    .emit [⟨k.text, k.index, .computedFrom, t.sources k⟩]
    updateTokens ks (t.bind k)

def update (operand : Place) (t : Trail) : Paths (Trail × List Token) :=
  return (← updateTokens (w.targets operand) t, w.targets operand)

/-- A path takes one of the alternatives. -/
def branch (b : Branch) (t : Trail) : Paths Trail := do
  let t ← w.visitAll b.condition t
  let arm ← .choose (· ∈ b.alternatives)
  w.visitAll arm t

/-- Runs something so many times. -/
def repeated (round : Trail → Paths Trail) : Nat → Trail → Paths Trail
  | 0, t => return t
  | n + 1, t => do repeated round n (← round t)

def round (i : Iteration) (t : Trail) : Paths Trail := do
  let (t, sources) ← w.resolveAll i.iterable.toList t
  let tokens := i.targets.flatMap w.targets
  .emit (tokens.map fun k => ⟨k.text, k.index, .computedFrom, sources⟩)
  w.visitAll i.body (t.bindAll tokens)

/-- What a path holds of the scoped targets of an iteration before it. -/
def shadowed (i : Iteration) (t : Trail) : List (String × Option Held) :=
  if i.isScoped then (i.targets.flatMap w.targets).map fun k => (k.text, t k.text) else []

theorem shadowed_eq (i : Iteration) (t : Trail) :
    w.shadowed i t =
      (if i.isScoped then i.targets.flatMap w.targets else []).map fun k => (k.text, t k.text) := by
  unfold shadowed
  split <;> rfl

/-- A path runs an iteration as often as `rounds` allows. -/
def iterate (rounds : Nat → Prop) (i : Iteration) (t : Trail) : Paths Trail := do
  let n ← .choose rounds
  let inner ← w.visitAll i.tail (← repeated (w.round i) n t)
  return inner.restoreAll (w.shadowed i t)

/-- A path runs a loop as often as `rounds` allows. -/
def loop (rounds : Nat → Prop) (l : Loop) (t : Trail) : Paths Trail := do
  let t ← w.visitAll l.setup t
  let n ← .choose rounds
  w.visitAll l.tail (← repeated (w.visitAll l.repeated) n t)

def bindParameters : List Parameter → Trail → Paths Trail
  | [], scope => return scope
  | q :: qs, scope => do
    let (scope, _) ← w.bind ⟨.declaration, [q.name], q.fallback.toList⟩ scope
    bindParameters qs scope

def define (d : Definition) (t : Trail) : Paths Trail := do
  let scope ← w.bindParameters d.parameters .empty
  let _ ← w.visitAll d.body scope
  return t.bindAll (d.name.toList.flatMap w.targets)

def visitPattern (rounds : Nat → Prop) (pattern : Pattern) (p : Place) (t : Trail) : Paths Trail :=
  match pattern with
  | .binding b => return (← w.bind b t).1
  | .update operand => return (← w.update operand t).1
  | .branch b => w.branch b t
  | .iteration i => w.iterate rounds i t
  | .loop l => w.loop rounds l t
  | .definition d => w.define d t
  | .sequence first rest => w.visitAll (first ++ rest) t
  | .plain => w.visitAll p.children t

def resolvePattern (rounds : Nat → Prop) (pattern : Pattern) (p : Place) (t : Trail) :
    Paths (Trail × List PathSource) :=
  match pattern with
  | .binding b => do
    let (t, defined) ← w.bind b t
    return (t, defined.map fun k => ⟨k.source, true⟩)
  | .update operand => do
    let (t, defined) ← w.update operand t
    return (t, defined.map fun k => ⟨k.source, true⟩)
  | .iteration i => return (← w.iterate rounds i t, [])
  | .definition d => return (← w.define d t, [])
  | .sequence first rest => w.resolveAll (first ++ rest) t
  | _ => w.resolveAll p.children t

end PathWalkers

/-! ## Whole runs -/

namespace Setup

variable (s : Setup) (rounds : Nat → Prop)

/-- A name read as a statement, as `Setup.readToken`. -/
def pathReadToken (p : Place) (t : Trail) : Paths Trail :=
  match (s.leaf p).value with
  | .name k => do
    .emit (t.reads k)
    return t.sight k
  | _ => return t

/-- A token read as a value, as `Setup.resolveToken`. -/
def pathResolveToken (p : Place) (t : Trail) : Paths (Trail × List PathSource) :=
  match (s.leaf p).value with
  | .name k => return (t.sight k, t.sources k)
  | .literal k => return (t, [⟨k.source, true⟩])
  | .silent => return (t, [])

def pathVisitStep (w : PathWalkers) (p : Place) (t : Trail) : Paths Trail :=
  if s.language.isComment p.kind then return t
  else if s.language.isToken p.node then s.pathReadToken p t
  else w.visitPattern rounds (s.language.pattern p) p t

def pathResolveStep (w : PathWalkers) (p : Place) (t : Trail) : Paths (Trail × List PathSource) :=
  if s.language.isComment p.kind then return (t, [])
  else if s.language.isToken p.node then s.pathResolveToken p t
  else w.resolvePattern rounds (s.language.pattern p) p t

section Steps

variable {s} {w : PathWalkers} {p : Place}

theorem pathVisitStep_of_comment (hcomment : s.language.isComment p.kind = true) (t : Trail) :
    s.pathVisitStep rounds w p t = pure t :=
  if_pos hcomment

theorem pathVisitStep_of_token (hcomment : s.language.isComment p.kind = false)
    (htoken : s.language.isToken p.node = true) (t : Trail) :
    s.pathVisitStep rounds w p t = s.pathReadToken p t := by
  rw [pathVisitStep, hcomment, htoken]
  rfl

theorem pathVisitStep_of_construct (hcomment : s.language.isComment p.kind = false)
    (htoken : s.language.isToken p.node = false) (t : Trail) :
    s.pathVisitStep rounds w p t = w.visitPattern rounds (s.language.pattern p) p t := by
  rw [pathVisitStep, hcomment, htoken]
  rfl

theorem pathResolveStep_of_comment (hcomment : s.language.isComment p.kind = true) (t : Trail) :
    s.pathResolveStep rounds w p t = pure (t, []) :=
  if_pos hcomment

theorem pathResolveStep_of_token (hcomment : s.language.isComment p.kind = false)
    (htoken : s.language.isToken p.node = true) (t : Trail) :
    s.pathResolveStep rounds w p t = s.pathResolveToken p t := by
  rw [pathResolveStep, hcomment, htoken]
  rfl

theorem pathResolveStep_of_construct (hcomment : s.language.isComment p.kind = false)
    (htoken : s.language.isToken p.node = false) (t : Trail) :
    s.pathResolveStep rounds w p t = w.resolvePattern rounds (s.language.pattern p) p t := by
  rw [pathResolveStep, hcomment, htoken]
  rfl

end Steps

mutual
/-- How a path may read a place as a statement. -/
def pathVisit : Nat → Place → Trail → Paths Trail
  | 0, _, t => return t
  | budget + 1, p, t =>
    s.pathVisitStep rounds
      ⟨pathVisit budget, pathResolve budget, fun q => (s.targets budget q).value,
        s.isReference budget⟩ p t

/-- How a path may read a place as a value. -/
def pathResolve : Nat → Place → Trail → Paths (Trail × List PathSource)
  | 0, _, t => return (t, [])
  | budget + 1, p, t =>
    s.pathResolveStep rounds
      ⟨pathVisit budget, pathResolve budget, fun q => (s.targets budget q).value,
        s.isReference budget⟩ p t
end

/-- How a path may read places with a budget. -/
def pathWalkers (budget : Nat) : PathWalkers :=
  ⟨s.pathVisit rounds budget, s.pathResolve rounds budget, fun q => (s.targets budget q).value,
    s.isReference budget⟩

/-- The path runs over a tree, read from some live definitions. -/
def pathRuns (root : Place) (live : LiveDefs) : Paths Trail :=
  s.pathVisit rounds s.budget root (.ofLive live)

end Setup

end TokenFlow
