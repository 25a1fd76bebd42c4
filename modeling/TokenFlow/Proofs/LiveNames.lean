import TokenFlow.Language.Ruby
import TokenFlow.Proofs.MoreDefinitions

/-!
# Live names stay live

A name that is live at a place is live behind it, and what is live there is listed as it was
at the place: in ascending order, and with some definition for each name (`KeepsLive`).
`Setup.keepsLive_walks` says so of whole trees and of both walks at every place.

Only an iteration with scoped targets unbinds names, where it puts its targets back to what
they were.  So it keeps what was bound: a name that is bound inside is unbound behind it just
if it is a scoped target that was unbound before.
-/
namespace TokenFlow

/-- From ascending live definitions, the function loses no name and leaves ascending lists,
none of them empty if none was. -/
structure KeepsLive (f : LiveDefs → LiveDefs) : Prop where
  bound : ∀ live : LiveDefs, live.Ascending → ∀ name, live.get? name ≠ none →
    (f live).get? name ≠ none
  ascending : ∀ live : LiveDefs, live.Ascending → (f live).Ascending
  grounded : ∀ live : LiveDefs, live.Ascending → live.Grounded → (f live).Grounded

theorem Transfers.keepsLive {f : LiveDefs → LiveDefs} (hf : Transfers f)
    (hgrounded : ∀ live : LiveDefs, live.Ascending → live.Grounded → (f live).Grounded) :
    KeepsLive f where
  bound _ h _ := hf.get?_ne_none h
  ascending _ h := hf.ascending h
  grounded := hgrounded

namespace Walkers

variable (w : Walkers)

/-- What is live at the end of an iteration, before its scoped targets are put back. -/
def inside (passes : Nat) (i : Iteration) (live : LiveDefs) : LiveDefs :=
  (w.visitAll i.tail (rounds (w.round i) passes live).value).value

/-- Behind an iteration, its scoped targets are bound to what they were bound to before it. -/
theorem get?_iterate (passes : Nat) (i : Iteration) (live : LiveDefs) (name : String) :
    (w.iterate passes i live).value.get? name =
      if i.isScoped = true ∧ ∃ t ∈ w.tokensOf i.targets, t.text = name then live.get? name
      else (w.inside passes i live).get? name := by
  rw [value_iterate, value_shadowed, LiveDefs.get?_restoreAll, ← inside]
  cases i.isScoped with
  | false => simp
  | true => simp

/-- **A scoped iteration removes only what was unbound before it.** -/
theorem get?_iterate_eq_none_iff {passes : Nat} {i : Iteration} {live : LiveDefs} {name : String}
    (hinside : (w.inside passes i live).get? name ≠ none) :
    (w.iterate passes i live).value.get? name = none ↔
      i.isScoped = true ∧ (∃ t ∈ w.tokensOf i.targets, t.text = name) ∧
        live.get? name = none := by
  rw [get?_iterate, ← and_assoc]
  by_cases h : i.isScoped = true ∧ ∃ t ∈ w.tokensOf i.targets, t.text = name
  · rw [if_pos h]
    exact ⟨fun hnone => ⟨h, hnone⟩, fun hscoped => hscoped.2⟩
  · rw [if_neg h]
    exact ⟨fun hnone => absurd hnone hinside, fun hscoped => absurd hscoped.1 h⟩

end Walkers

namespace Setup

variable (s : Setup)

theorem keepsLive_visit (budget : Nat) (p : Place) :
    KeepsLive fun live => (s.visit budget p live).value :=
  ((s.effective_walkers budget).visit p).keepsLive fun _ h hgrounded =>
    ((related_moreDefined budget).visit (p := p) rfl (.self h hgrounded)).1.grounded

theorem keepsLive_resolve (budget : Nat) (p : Place) :
    KeepsLive fun live => (s.resolve budget p live).value.1 :=
  ((s.effective_walkers budget).resolve p).keepsLive fun _ h hgrounded =>
    ((related_moreDefined budget).resolve (p := p) rfl (.self h hgrounded)).1.1.grounded

/-- **A live name is never lost and live definitions stay in order**, from the seed to the end
of a tree and at every single place, wherever nesting is cut.  What a scoped iteration removes
was unbound before it. -/
theorem keepsLive_walks (s : Setup) :
    (∀ root : Place, KeepsLive fun seed => (s.graph root seed).live) ∧
    (∀ (budget : Nat) (p : Place), KeepsLive (fun live => (s.visit budget p live).value) ∧
      KeepsLive fun live => (s.resolve budget p live).value.1) ∧
    ∀ (budget : Nat) (i : Iteration) (live : LiveDefs) (name : String),
      ((s.walkers budget).inside s.passes i live).get? name ≠ none →
        (((s.walkers budget).iterate s.passes i live).value.get? name = none ↔
          i.isScoped = true ∧ (∃ t ∈ (s.walkers budget).tokensOf i.targets, t.text = name) ∧
            live.get? name = none) :=
  ⟨s.keepsLive_visit s.budget,
    fun budget p => ⟨s.keepsLive_visit budget p, s.keepsLive_resolve budget p⟩,
    fun budget _ _ _ hinside => (s.walkers budget).get?_iterate_eq_none_iff hinside⟩

end Setup

/-! ## A block that copies its parameter -/

namespace BlockCopy

/-- `xs.each { |x| b = x }` -/
def root : Place :=
  .root <| .onLine 0 "call" true none 0 21 [
    .onLine 1 "identifier" true (some "receiver") 0 2 [],
    .onLine 2 "." false none 2 3 [],
    .onLine 3 "identifier" true (some "method") 3 7 [],
    .onLine 4 "block" true (some "block") 8 21 [
      .onLine 5 "\x7b" false none 8 9 [],
      .onLine 6 "block_parameters" true (some "parameters") 10 13 [
        .onLine 7 "|" false none 10 11 [],
        .onLine 8 "identifier" true none 11 12 [],
        .onLine 9 "|" false none 12 13 []],
      .onLine 10 "block_body" true (some "body") 14 19 [
        .onLine 11 "assignment" true none 14 19 [
          .onLine 12 "identifier" true (some "left") 14 15 [],
          .onLine 13 "=" false none 16 17 [],
          .onLine 14 "identifier" true (some "right") 18 19 []]],
      .onLine 15 "\x7d" false none 20 21 []]]

def setup : Setup where
  language := Language.ruby
  tokens := .ofTree Language.ruby "xs.each \x7b |x| b = x \x7d".toUTF8 root.node

def block : Place := root.children[3]

/-- The block as an iteration. -/
def iteration : Iteration where
  targets := (Language.Ruby.parameters block).map (·.name)
  iterable := none
  body := Language.Ruby.blockBody block
  isScoped := true

end BlockCopy

namespace Setup

open BlockCopy

/-- The parameter is bound inside the block and not behind it, since it was not bound before.
The name that the block assigns to is bound before and behind it. -/
theorem keepsLive_blockCopy :
    setup.language.pattern block = .iteration iteration ∧
    ((setup.walkers 2).inside setup.passes iteration CopyLoop.seed).get? "x" = some [5] ∧
    ((setup.walkers 2).iterate setup.passes iteration CopyLoop.seed).value.get? "x" = none ∧
    CopyLoop.seed.get? "x" = none ∧
    (setup.graph root CopyLoop.seed).live.get? "b" ≠ none := by
  obtain ⟨hgraph, -, hiterate⟩ := keepsLive_walks setup
  have hinside : ((setup.walkers 2).inside setup.passes iteration CopyLoop.seed).get? "x" =
      some [5] := by decide +kernel
  have hbehind : ((setup.walkers 2).iterate setup.passes iteration CopyLoop.seed).value.get? "x" =
      none := by decide +kernel
  have hremoved := (hiterate 2 iteration CopyLoop.seed "x" (by rw [hinside]; simp)).mp hbehind
  exact ⟨rfl, hinside, hbehind, hremoved.2.2,
    (hgraph root).bound _ CopyLoop.ascending_seed "b" (by decide)⟩

end Setup

end TokenFlow
