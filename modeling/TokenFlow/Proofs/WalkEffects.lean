import TokenFlow.Language.Python
import TokenFlow.Proofs.Effects

/-!
# Walks have effects

Every pattern has an effect on each name, provided that reading its parts has one
(`Walkers.Effective`).  Sequences compose, conditionals meet, rounds iterate; the scoped
targets of an iteration are put back and so are not touched at all.  By induction on the
budget both walks have effects (`Setup.effective_walkers`), which makes whatever a loop
repeats idempotent.
-/
namespace TokenFlow

/-- Behind a scope the scoped names are as before it. -/
theorem Transfers.scoped {f : LiveDefs → LiveDefs} (hf : Transfers f) (tokens : List Token) :
    Transfers fun live =>
      (f live).restoreAll (tokens.map fun t => (t.text, live.get? t.text)) := by
  intro name
  by_cases h : name ∈ tokens.map (·.text)
  · refine ⟨.skip, fun live hlive => ?_⟩
    rw [LiveDefs.get?_restoreAll, if_pos h, Effect.apply_skip fun defs => hlive name defs]
  · obtain ⟨e, he⟩ := hf name
    refine ⟨e, fun live hlive => ?_⟩
    rw [LiveDefs.get?_restoreAll, if_neg h, he live hlive]

theorem Transfers.rounds {round : LiveDefs → Traced LiveDefs}
    (h : Transfers fun live => (round live).value) (n : Nat) :
    Transfers fun live => (Walkers.rounds round n live).value := by
  simp only [Walkers.value_rounds]
  exact h.iterate n

/-- **One round leaves what any number of rounds leaves.** -/
theorem Transfers.value_rounds {round : LiveDefs → Traced LiveDefs}
    (hround : Transfers fun live => (round live).value) {live : LiveDefs} (h : live.Ascending)
    (n : Nat) : (Walkers.rounds round (n + 1) live).value = (round live).value := by
  rw [Walkers.value_rounds, Function.iterate_succ_apply]
  exact Function.iterate_fixed (hround.apply_apply h) n

namespace Walkers

/-- Reading what is nested deeper has an effect on each name. -/
structure Effective (w : Walkers) : Prop where
  visit : ∀ p, Transfers fun live => (w.visit p live).value
  resolve : ∀ p, Transfers fun live => (w.resolve p live).value.1

namespace Effective

variable {w : Walkers} (hw : w.Effective)
include hw

theorem visitAll (ps : List Place) : Transfers fun live => (w.visitAll ps live).value := by
  induction ps with
  | nil => exact Transfers.id
  | cons p ps ih => exact ih.comp (hw.visit p)

theorem resolveAll (ps : List Place) : Transfers fun live => (w.resolveAll ps live).value.1 := by
  induction ps with
  | nil => exact Transfers.id
  | cons p ps ih => exact ih.comp (hw.resolve p)

theorem readValues (ps : List Place) : Transfers fun live => (w.readValues ps live).value.1 := by
  induction ps with
  | nil => exact Transfers.id
  | cons p ps ih => exact ih.comp (hw.resolve p)

theorem bind (b : Binding) : Transfers fun live => (w.bind b live).value.1 := by
  simp only [value_bind]
  exact (Transfers.bindAll (w.tokensOf b.targets)).comp (hw.readValues b.values)

omit hw in
theorem update (operand : Place) : Transfers fun live => (w.update operand live).value.1 := by
  simp only [value_update]
  exact Transfers.bindAll _

theorem branch (b : Branch) : Transfers fun live => (w.branch b live).value := by
  simp only [value_branch]
  have hmeet : Transfers fun live =>
      .merge (b.alternatives.map fun arm => (w.visitAll arm live).value) :=
    Transfers.merge b.alternatives_ne_nil fun arm _ => hw.visitAll arm
  exact hmeet.comp (hw.visitAll b.condition)

theorem round (i : Iteration) : Transfers fun live => (w.round i live).value := by
  simp only [value_round]
  exact (hw.visitAll i.body).comp
    ((Transfers.bindAll (w.tokensOf i.targets)).comp (hw.resolveAll i.iterable.toList))

theorem iterate (passes : Nat) (i : Iteration) :
    Transfers fun live => (w.iterate passes i live).value := by
  simp only [value_iterate, value_shadowed]
  exact ((hw.visitAll i.tail).comp ((hw.round i).rounds passes)).scoped _

theorem loop (passes : Nat) (l : Loop) : Transfers fun live => (w.loop passes l live).value := by
  simp only [value_loop]
  exact (hw.visitAll l.tail).comp
    (((hw.visitAll l.repeated).rounds passes).comp (hw.visitAll l.setup))

omit hw in
theorem define (d : Definition) : Transfers fun live => (w.define d live).value := by
  simp only [value_define]
  exact Transfers.bindAll _

theorem visitPattern (passes : Nat) (pattern : Pattern) (p : Place) :
    Transfers fun live => (w.visitPattern passes pattern p live).value := by
  cases pattern with
  | binding b => exact hw.bind b
  | update operand => exact update operand
  | branch b => exact hw.branch b
  | iteration i => exact hw.iterate passes i
  | loop l => exact hw.loop passes l
  | definition d => exact define d
  | sequence first rest => exact hw.visitAll (first ++ rest)
  | plain => exact hw.visitAll p.children

theorem resolvePattern (passes : Nat) (pattern : Pattern) (p : Place) :
    Transfers fun live => (w.resolvePattern passes pattern p live).value.1 := by
  cases pattern with
  | binding b => exact hw.bind b
  | update operand => exact update operand
  | iteration i => exact hw.iterate passes i
  | definition d => exact define d
  | sequence first rest => exact hw.resolveAll (first ++ rest)
  | branch | loop | plain => exact hw.resolveAll p.children

end Effective

end Walkers

namespace Setup

variable (s : Setup) {w : Walkers}

theorem transfers_readToken (p : Place) : Transfers fun live => (s.readToken p live).value := by
  simp only [value_readToken]
  cases (s.leaf p).value with
  | name t => exact Transfers.sight t
  | literal t => exact Transfers.id
  | silent => exact Transfers.id

theorem transfers_resolveToken (p : Place) :
    Transfers fun live => (s.resolveToken p live).value.1 := by
  simp only [value_resolveToken]
  cases (s.leaf p).value with
  | name t => exact Transfers.sight t
  | literal t => exact Transfers.id
  | silent => exact Transfers.id

theorem transfers_visitStep (hw : w.Effective) (p : Place) :
    Transfers fun live => (s.visitStep w p live).value := by
  cases s.language.reads p with
  | comment hcomment =>
    simp only [visitStep_of_comment hcomment]
    exact Transfers.id
  | token hcomment htoken =>
    simp only [visitStep_of_token hcomment htoken]
    exact s.transfers_readToken p
  | construct hcomment htoken =>
    simp only [visitStep_of_construct hcomment htoken]
    exact hw.visitPattern s.passes _ p

theorem transfers_resolveStep (hw : w.Effective) (p : Place) :
    Transfers fun live => (s.resolveStep w p live).value.1 := by
  cases s.language.reads p with
  | comment hcomment =>
    simp only [resolveStep_of_comment hcomment]
    exact Transfers.id
  | token hcomment htoken =>
    simp only [resolveStep_of_token hcomment htoken]
    exact s.transfers_resolveToken p
  | construct hcomment htoken =>
    simp only [resolveStep_of_construct hcomment htoken]
    exact hw.resolvePattern s.passes _ p

/-- **Both walks have an effect on each name**, whatever the budget. -/
theorem effective_walkers (budget : Nat) : (s.walkers budget).Effective := by
  induction budget with
  | zero => exact ⟨fun _ => Transfers.id, fun _ => Transfers.id⟩
  | succ budget ih => exact ⟨s.transfers_visitStep ih, s.transfers_resolveStep ih⟩

end Setup

/-! ## A loop that copies

`while a: a = b`, one octet to a token.  Its second reading leaves the live definitions
that the first leaves, but draws `a` in the condition from them and not from the seed. -/
/-- A node of a text of one line. -/
def Node.onLine (number : Nat) (kind : String) (named : Bool) (field : Option String)
    (first beyond : Nat) (children : List Node) : Node :=
  { number, kind, named, field, first, beyond, children, span := ⟨⟨0, first⟩, ⟨0, beyond⟩⟩ }

namespace CopyLoop

/-- A name of one octet. -/
def word (number : Nat) (field : String) : Node where
  number
  kind := "identifier"
  named := true
  field := some field
  first := number
  beyond := number + 1
  span := ⟨⟨0, number⟩, ⟨0, number + 1⟩⟩
  children := []

/-- The token of a name. -/
def token (index : Nat) (text : String) : Token :=
  ⟨index, text, (word index text).span⟩

def assignment : Node where
  number := 3
  kind := "assignment"
  named := true
  field := some "body"
  first := 1
  beyond := 3
  span := ⟨⟨0, 1⟩, ⟨0, 3⟩⟩
  children := [word 1 "left", word 2 "right"]

def root : Place := .root {
  number := 4
  kind := "while_statement"
  named := true
  field := none
  first := 0
  beyond := 3
  span := ⟨⟨0, 0⟩, ⟨0, 3⟩⟩
  children := [word 0 "condition", assignment] }

def setup : Setup where
  language := Language.python
  tokens := .ofList ([token 0 "a", token 1 "a", token 2 "b"].map fun t => (t.span, t.text))
  limit := 2

/-- What is live before the loop. -/
def seed : LiveDefs :=
  LiveDefs.empty.bindAll [token 8 "a", token 9 "b"]

theorem ascending_seed : seed.Ascending :=
  (Transfers.bindAll _).ascending LiveDefs.ascending_empty

end CopyLoop

end TokenFlow
