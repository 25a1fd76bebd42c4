import TokenFlow.Proofs.PathRuns

/-!
# Every path can go on

A path makes choices, but it is never left without one: a conditional has an alternative
to take, and a loop some number of rounds to run.  So whatever a path has done so far, it
has an outcome (`Setup.total_pathWalkers`).
-/
namespace TokenFlow

namespace Paths

variable {α β : Type}

/-- There is an outcome. -/
def Possible (x : Paths α) : Prop :=
  ∃ r, r ∈ x

namespace Possible

theorem pure (a : α) : (pure a : Paths α).Possible :=
  ⟨_, rfl⟩

theorem bind {x : Paths α} {f : α → Paths β} (hx : x.Possible) (hf : ∀ a, (f a).Possible) :
    (x >>= f).Possible := by
  obtain ⟨before, hbefore⟩ := hx
  obtain ⟨after, hafter⟩ := hf before.value
  exact ⟨_, mem_bind.mpr ⟨before, hbefore, after, hafter, rfl⟩⟩

theorem emit (edges : List PathEdge) : (emit edges).Possible :=
  ⟨_, rfl⟩

theorem choose {P : α → Prop} (h : ∃ a, P a) : (choose P).Possible := by
  obtain ⟨a, ha⟩ := h
  exact ⟨⟨a, []⟩, ha, rfl⟩

end Possible

end Paths

namespace PathWalkers

/-- Reading what is nested deeper always has an outcome. -/
structure Total (w : PathWalkers) : Prop where
  visit : ∀ p t, (w.visit p t).Possible
  resolve : ∀ p t, (w.resolve p t).Possible

namespace Total

open Paths (Possible)

variable {w : PathWalkers}

theorem visitAll (hw : w.Total) (ps : List Place) (t : Trail) : (w.visitAll ps t).Possible := by
  induction ps generalizing t with
  | nil => exact .pure t
  | cons p ps ih => exact (hw.visit p t).bind ih

theorem resolveAll (hw : w.Total) (ps : List Place) (t : Trail) : (w.resolveAll ps t).Possible := by
  induction ps generalizing t with
  | nil => exact .pure _
  | cons p ps ih => exact (hw.resolve p t).bind fun u => (ih u.1).bind fun _ => .pure _

theorem readValues (hw : w.Total) (ps : List Place) (t : Trail) : (w.readValues ps t).Possible := by
  induction ps generalizing t with
  | nil => exact .pure _
  | cons p ps ih => exact (hw.resolve p t).bind fun u => (ih u.1).bind fun _ => .pure _

theorem bind (hw : w.Total) (b : Binding) (t : Trail) : (w.bind b t).Possible :=
  (hw.readValues b.values t).bind fun _ => (Possible.emit _).bind fun _ => .pure _

theorem updateTokens (ks : List Token) (t : Trail) : (PathWalkers.updateTokens ks t).Possible := by
  induction ks generalizing t with
  | nil => exact .pure t
  | cons k ks ih => exact (Possible.emit _).bind fun _ => ih (t.bind k)

theorem update (operand : Place) (t : Trail) : (w.update operand t).Possible :=
  (updateTokens _ t).bind fun _ => .pure _

theorem branch (hw : w.Total) (b : Branch) (t : Trail) : (w.branch b t).Possible :=
  (hw.visitAll b.condition t).bind fun t =>
    (Possible.choose (List.exists_mem_of_ne_nil _ b.alternatives_ne_nil)).bind fun arm =>
      hw.visitAll arm t

theorem repeated {round : Trail → Paths Trail} (hround : ∀ t, (round t).Possible) (n : Nat)
    (t : Trail) : (PathWalkers.repeated round n t).Possible := by
  induction n generalizing t with
  | zero => exact .pure t
  | succ n ih => exact (hround t).bind ih

theorem round (hw : w.Total) (i : Iteration) (t : Trail) : (w.round i t).Possible :=
  (hw.resolveAll i.iterable.toList t).bind fun _ => (Possible.emit _).bind fun _ =>
    hw.visitAll i.body _

section Loops

variable {rounds : Nat → Prop} (hrounds : ∃ n, rounds n)
include hrounds

theorem iterate (hw : w.Total) (i : Iteration) (t : Trail) : (w.iterate rounds i t).Possible :=
  (Possible.choose hrounds).bind fun n => (repeated (hw.round i) n t).bind fun t =>
    (hw.visitAll i.tail t).bind fun _ => .pure _

theorem loop (hw : w.Total) (l : Loop) (t : Trail) : (w.loop rounds l t).Possible :=
  (hw.visitAll l.setup t).bind fun t => (Possible.choose hrounds).bind fun n =>
    (repeated (hw.visitAll l.repeated) n t).bind fun t => hw.visitAll l.tail t

end Loops

theorem bindParameters (hw : w.Total) (qs : List Parameter) (t : Trail) :
    (w.bindParameters qs t).Possible := by
  induction qs generalizing t with
  | nil => exact .pure t
  | cons q qs ih => exact (hw.bind _ t).bind fun u => ih u.1

theorem define (hw : w.Total) (d : Definition) (t : Trail) : (w.define d t).Possible :=
  (hw.bindParameters d.parameters .empty).bind fun scope =>
    (hw.visitAll d.body scope).bind fun _ => .pure _

section Patterns

variable {rounds : Nat → Prop} (hrounds : ∃ n, rounds n)
include hrounds

theorem visitPattern (hw : w.Total) (pattern : Pattern) (p : Place) (t : Trail) :
    (w.visitPattern rounds pattern p t).Possible := by
  cases pattern with
  | binding b => exact (hw.bind b t).bind fun _ => .pure _
  | update operand => exact (update operand t).bind fun _ => .pure _
  | branch b => exact hw.branch b t
  | iteration i => exact hw.iterate hrounds i t
  | loop l => exact hw.loop hrounds l t
  | definition d => exact hw.define d t
  | sequence first rest => exact hw.visitAll (first ++ rest) t
  | plain => exact hw.visitAll p.children t

theorem resolvePattern (hw : w.Total) (pattern : Pattern) (p : Place) (t : Trail) :
    (w.resolvePattern rounds pattern p t).Possible := by
  cases pattern with
  | binding b => exact (hw.bind b t).bind fun _ => .pure _
  | update operand => exact (update operand t).bind fun _ => .pure _
  | iteration i => exact (hw.iterate hrounds i t).bind fun _ => .pure _
  | definition d => exact (hw.define d t).bind fun _ => .pure _
  | sequence first rest => exact hw.resolveAll (first ++ rest) t
  | branch | loop | plain => exact hw.resolveAll p.children t

end Patterns

end Total

end PathWalkers

namespace Setup

open Paths (Possible)

variable (s : Setup) {rounds : Nat → Prop} {w : PathWalkers}

theorem possible_pathReadToken (p : Place) (t : Trail) : (s.pathReadToken p t).Possible := by
  unfold pathReadToken
  split
  · exact (Possible.emit _).bind fun _ => .pure _
  · exact .pure t

theorem possible_pathResolveToken (p : Place) (t : Trail) : (s.pathResolveToken p t).Possible := by
  unfold pathResolveToken
  split <;> exact .pure _

theorem possible_pathVisitStep (hrounds : ∃ n, rounds n) (hw : w.Total) (p : Place) (t : Trail) :
    (s.pathVisitStep rounds w p t).Possible := by
  cases s.language.reads p with
  | comment hcomment =>
    rw [pathVisitStep_of_comment rounds hcomment]
    exact .pure t
  | token hcomment htoken =>
    rw [pathVisitStep_of_token rounds hcomment htoken]
    exact s.possible_pathReadToken p t
  | construct hcomment htoken =>
    rw [pathVisitStep_of_construct rounds hcomment htoken]
    exact hw.visitPattern hrounds _ p t

theorem possible_pathResolveStep (hrounds : ∃ n, rounds n) (hw : w.Total) (p : Place) (t : Trail) :
    (s.pathResolveStep rounds w p t).Possible := by
  cases s.language.reads p with
  | comment hcomment =>
    rw [pathResolveStep_of_comment rounds hcomment]
    exact .pure _
  | token hcomment htoken =>
    rw [pathResolveStep_of_token rounds hcomment htoken]
    exact s.possible_pathResolveToken p t
  | construct hcomment htoken =>
    rw [pathResolveStep_of_construct rounds hcomment htoken]
    exact hw.resolvePattern hrounds _ p t

/-- **A path is never stuck**, whatever the budget. -/
theorem total_pathWalkers (hrounds : ∃ n, rounds n) (budget : Nat) :
    (s.pathWalkers rounds budget).Total := by
  induction budget with
  | zero => exact ⟨fun _ t => .pure t, fun _ _ => .pure _⟩
  | succ budget ih =>
    exact ⟨s.possible_pathVisitStep hrounds ih, s.possible_pathResolveStep hrounds ih⟩

end Setup

end TokenFlow
