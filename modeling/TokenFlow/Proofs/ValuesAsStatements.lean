import TokenFlow.Language.Ruby
import TokenFlow.Proofs.WalkEffects
import TokenFlow.Proofs.WalkRelation

/-!
# Values leave what statements leave

The two walks meet the same constructs, and what a construct defines should not depend on
whether its value is used.  Mostly it does not: a name is sighted by both walks alike, and
bindings, updates, iterations and definitions are read by the very same functions.

Conditionals and loops are where the walks part.  As a statement, each arm of a conditional
starts from what the condition leaves, and the arms meet; as a value, the conditional is read
like an operator, child by child, so that a later arm starts from an earlier one and puts its
definitions in place of the earlier ones (`Setup.resolve_conditional_ne_visit`).  A loop that
is read child by child is read once and in the order of the text.  Once is enough, since a
round is idempotent on live definitions, but the order matters.

So the walks agree on what is `Language.Straight`: whatever is met there as a value is no
conditional, and no loop whose text is out of order (`Setup.live_resolve_eq_live_visit`).
-/
namespace TokenFlow

/-- The pattern defines tokens of its own. -/
def Pattern.Defines : Pattern → Prop
  | binding _ | update _ | iteration _ | definition _ => True
  | branch _ | loop _ | sequence _ _ | plain => False

namespace Language

variable (l : Language)

/-- Reading the place leaves the live definitions alone: it is a comment, or a token of a
kind that names nothing. -/
def Idle (p : Place) : Prop :=
  l.isComment p.kind = true ∨ l.isToken p.node = true ∧ l.isIdentifier p.kind = false

/-- The parts of the loop are its children in the order of the text, up to idle ones. -/
def InTextOrder (p : Place) (loop : Loop) : Prop :=
  Aligned (· = ·) l.Idle p.children (loop.setup ++ (loop.repeated ++ loop.tail))

/-- Whatever is met at the place as a value is no conditional, and no loop whose parts stand
in the text in another order than they run. -/
inductive Straight : Place → Prop
  | comment {p : Place} (h : l.isComment p.kind = true) : Straight p
  | token {p : Place} (h : l.isToken p.node = true) : Straight p
  | defines {p : Place} (h : (l.pattern p).Defines) : Straight p
  | sequence {p : Place} {first rest : List Place} (h : l.pattern p = .sequence first rest)
      (hparts : ∀ q ∈ first ++ rest, Straight q) : Straight p
  | plain {p : Place} (h : l.pattern p = .plain) (hchildren : ∀ q ∈ p.children, Straight q) :
      Straight p
  | loop {p : Place} {loop : Loop} (h : l.pattern p = .loop loop)
      (horder : l.InTextOrder p loop) (hchildren : ∀ q ∈ p.children, Straight q) : Straight p

end Language

/-! ## Sequences -/

namespace Walkers

variable (w : Walkers)

theorem value_visitAll_append (ps qs : List Place) (live : LiveDefs) :
    (w.visitAll (ps ++ qs) live).value = (w.visitAll qs (w.visitAll ps live).value).value := by
  induction ps generalizing live with
  | nil => rfl
  | cons p ps ih => exact ih (w.visit p live).value

/-- The walkers leave the same live definitions at a place, whichever way it is read. -/
def LeavesAlike (p : Place) : Prop :=
  ∀ live : LiveDefs, live.Ascending → (w.resolve p live).value.1 = (w.visit p live).value

variable {w}

/-- **Places that are left alike one by one are left alike in a row**, and places that are
read for nothing may be left out. -/
theorem value_resolveAll_of_aligned (hw : w.Effective) {idle : Place → Prop}
    (hidle : ∀ p, idle p → ∀ live, (w.resolve p live).value.1 = live) {ps qs : List Place}
    (h : Aligned (· = ·) idle ps qs) (halike : ∀ p ∈ ps, w.LeavesAlike p) {live : LiveDefs}
    (hlive : live.Ascending) :
    (w.resolveAll ps live).value.1 = (w.visitAll qs live).value := by
  induction h generalizing live with
  | nil => rfl
  | @cons p q ps qs hpq _ ih =>
    subst hpq
    obtain ⟨hp, hps⟩ := List.forall_mem_cons.mp halike
    have hfirst : (w.resolve p live).value.1 = (w.visit p live).value := hp live hlive
    have hnext : (w.visit p live).value.Ascending := (hw.visit p).ascending hlive
    show (w.resolveAll ps (w.resolve p live).value.1).value.1 = _
    rw [hfirst]
    exact ih hps hnext
  | @extra p ps qs hp _ ih =>
    have hps := (List.forall_mem_cons.mp halike).2
    show (w.resolveAll ps (w.resolve p live).value.1).value.1 = _
    rw [hidle p hp live]
    exact ih hps hlive

theorem value_resolveAll_eq (hw : w.Effective) {ps : List Place}
    (halike : ∀ p ∈ ps, w.LeavesAlike p) {live : LiveDefs} (hlive : live.Ascending) :
    (w.resolveAll ps live).value.1 = (w.visitAll ps live).value := by
  have hnone : ∀ p, False → ∀ live, (w.resolve p live).value.1 = live := fun _ h => h.elim
  exact value_resolveAll_of_aligned hw hnone (.refl fun _ _ => rfl) halike hlive

/-- A loop leaves what a single reading of its parts leaves. -/
theorem value_loop_eq_visitAll (hw : w.Effective) {passes : Nat} (hpasses : 1 ≤ passes)
    (loop : Loop) {live : LiveDefs} (hlive : live.Ascending) :
    (w.loop passes loop live).value =
      (w.visitAll (loop.setup ++ (loop.repeated ++ loop.tail)) live).value := by
  obtain ⟨n, rfl⟩ := Nat.exists_eq_add_of_le' hpasses
  have hsetup : (w.visitAll loop.setup live).value.Ascending :=
    (hw.visitAll loop.setup).ascending hlive
  rw [value_loop, value_visitAll_append, value_visitAll_append,
    (hw.visitAll loop.repeated).value_rounds hsetup]

end Walkers

/-! ## Both walks -/

namespace Setup

variable (s : Setup)

/-- A name is sighted by both walks alike. -/
theorem live_resolveToken_eq (p : Place) (live : LiveDefs) :
    (s.resolveToken p live).value.1 = (s.readToken p live).value := by
  rw [value_resolveToken, value_readToken]
  cases (s.leaf p).value <;> rfl

theorem leaf_ne_name {p : Place} (h : s.language.isIdentifier p.kind = false) (t : Token) :
    (s.leaf p).value ≠ .name t := by
  intro hleaf
  rw [value_leaf] at hleaf
  split at hleaf
  · exact nomatch hleaf
  · simp only [h, Bool.false_eq_true, if_false] at hleaf
    split at hleaf <;> exact nomatch hleaf

theorem live_resolve_of_idle (budget : Nat) {p : Place} (h : s.language.Idle p)
    (live : LiveDefs) : (s.resolve budget p live).value.1 = live := by
  cases budget with
  | zero => rfl
  | succ budget =>
    rw [resolve_succ]
    cases s.language.reads p with
    | comment hcomment =>
      rw [resolveStep_of_comment hcomment]
      rfl
    | token hcomment htoken =>
      rcases h with h | ⟨-, hkind⟩
      · rw [hcomment] at h
        exact nomatch h
      · rw [resolveStep_of_token hcomment htoken, value_resolveToken]
        cases hleaf : (s.leaf p).value with
        | name t => exact absurd hleaf (s.leaf_ne_name hkind t)
        | literal t => rfl
        | silent => rfl
    | construct hcomment htoken =>
      rcases h with h | ⟨h, -⟩
      · rw [hcomment] at h
        exact nomatch h
      · rw [htoken] at h
        exact nomatch h

variable {s}

/-- What defines tokens of its own is read by the same functions in both walks. -/
theorem live_resolvePattern_of_defines {w : Walkers} {pattern : Pattern} (h : pattern.Defines)
    (p : Place) (live : LiveDefs) :
    (w.resolvePattern s.passes pattern p live).value.1 =
      (w.visitPattern s.passes pattern p live).value := by
  cases pattern with
  | binding | update | iteration | definition => rfl
  | branch | loop | sequence | plain => exact h.elim

/-- **Straight places are left alike by both walks**, wherever the limit cuts them. -/
theorem leavesAlike_of_straight (hpasses : 1 ≤ s.passes) (budget : Nat) {p : Place}
    (h : s.language.Straight p) : (s.walkers budget).LeavesAlike p := by
  induction budget generalizing p with
  | zero => exact fun _ _ => rfl
  | succ budget ih =>
    intro live hlive
    have hw : (s.walkers budget).Effective := s.effective_walkers budget
    have hidle := fun q hq => s.live_resolve_of_idle budget (p := q) hq
    show (s.resolveStep (s.walkers budget) p live).value.1 =
      (s.visitStep (s.walkers budget) p live).value
    cases s.language.reads p with
    | comment hcomment =>
      rw [resolveStep_of_comment hcomment, visitStep_of_comment hcomment]
      rfl
    | token hcomment htoken =>
      rw [resolveStep_of_token hcomment htoken, visitStep_of_token hcomment htoken]
      exact s.live_resolveToken_eq p live
    | construct hcomment htoken =>
      rw [resolveStep_of_construct hcomment htoken, visitStep_of_construct hcomment htoken]
      cases h with
      | comment h =>
        rw [hcomment] at h
        exact nomatch h
      | token h =>
        rw [htoken] at h
        exact nomatch h
      | defines h => exact live_resolvePattern_of_defines h p live
      | sequence h hparts =>
        rw [h]
        exact Walkers.value_resolveAll_eq hw (fun q hq => ih (hparts q hq)) hlive
      | plain h hchildren =>
        rw [h]
        exact Walkers.value_resolveAll_eq hw (fun q hq => ih (hchildren q hq)) hlive
      | @loop _ loop h horder hchildren =>
        have hchildren := fun q hq => ih (hchildren q hq)
        rw [h]
        calc ((s.walkers budget).resolveAll p.children live).value.1
          _ = ((s.walkers budget).visitAll _ live).value :=
            Walkers.value_resolveAll_of_aligned hw hidle horder hchildren hlive
          _ = ((s.walkers budget).loop s.passes loop live).value :=
            (Walkers.value_loop_eq_visitAll hw hpasses loop hlive).symm

/-- **A straight construct leaves the same live definitions as a value and as a statement.**
A conditional or a loop whose children are straight leaves, as a value, what its children
leave when they are read as statements, one after the other. -/
theorem live_resolve_eq_live_visit (s : Setup) (hpasses : 1 ≤ s.passes) (budget : Nat)
    (p : Place) (live : LiveDefs) (hlive : live.Ascending) :
    (s.language.Straight p →
      (s.resolve budget p live).value.1 = (s.visit budget p live).value) ∧
    ((∀ q ∈ p.children, s.language.Straight q) → s.language.isComment p.kind = false →
      s.language.isToken p.node = false →
      ((∃ b, s.language.pattern p = .branch b) ∨ ∃ l, s.language.pattern p = .loop l) →
      (s.resolve (budget + 1) p live).value.1 =
        ((s.walkers budget).visitAll p.children live).value) := by
  constructor
  · exact fun h => leavesAlike_of_straight hpasses budget h live hlive
  · intro hchildren hcomment htoken hpattern
    have halike : ∀ q ∈ p.children, (s.walkers budget).LeavesAlike q :=
      fun q hq => leavesAlike_of_straight hpasses budget (hchildren q hq)
    rw [← Walkers.value_resolveAll_eq (s.effective_walkers budget) halike hlive,
      resolve_succ, resolveStep_of_construct hcomment htoken]
    rcases hpattern with ⟨b, hb⟩ | ⟨l, hl⟩
    · rw [hb]
      rfl
    · rw [hl]
      rfl

end Setup

/-! ## A loop and a conditional as values -/

namespace LoopValue

/-- `while a do x = a end`, as it stands behind `y =`. -/
def root : Place :=
  .root <| .onLine 0 "while" true (some "right") 0 20 [
    .onLine 1 "while" false none 0 5 [],
    .onLine 2 "identifier" true (some "condition") 6 7 [],
    .onLine 3 "do" true (some "body") 8 20 [
      .onLine 4 "do" false none 8 10 [],
      .onLine 5 "assignment" true none 11 16 [
        .onLine 6 "identifier" true (some "left") 11 12 [],
        .onLine 7 "=" false none 13 14 [],
        .onLine 8 "identifier" true (some "right") 15 16 []],
      .onLine 9 "end" false none 17 20 []]]

def setup : Setup where
  language := Language.ruby
  tokens := .ofTree Language.ruby "while a do x = a end".toUTF8 root.node

theorem straight_root : Language.ruby.Straight root := by
  have hassignment : Language.ruby.Straight root.children[2].children[1] := .defines trivial
  have hbody : Language.ruby.Straight root.children[2] := by
    refine .plain rfl (List.forall_mem_cons.mpr ⟨.token rfl, ?_⟩)
    exact List.forall_mem_cons.mpr ⟨hassignment, List.forall_mem_singleton.mpr (.token rfl)⟩
  refine .loop rfl (.extra (.inr ⟨rfl, rfl⟩) (.cons rfl (.cons rfl .nil))) ?_
  refine List.forall_mem_cons.mpr ⟨.token rfl, List.forall_mem_cons.mpr ⟨.token rfl, ?_⟩⟩
  exact List.forall_mem_singleton.mpr hbody

end LoopValue

namespace ConditionalValue

/-- `if c then x = 1 else x = 2 end`, as it stands behind `y =`. -/
def root : Place :=
  .root <| .onLine 0 "if" true (some "right") 0 30 [
    .onLine 1 "if" false none 0 2 [],
    .onLine 2 "identifier" true (some "condition") 3 4 [],
    .onLine 3 "then" true (some "consequence") 5 15 [
      .onLine 4 "then" false none 5 9 [],
      .onLine 5 "assignment" true none 10 15 [
        .onLine 6 "identifier" true (some "left") 10 11 [],
        .onLine 7 "=" false none 12 13 [],
        .onLine 8 "integer" true (some "right") 14 15 []]],
    .onLine 9 "else" true (some "alternative") 16 26 [
      .onLine 10 "else" false none 16 20 [],
      .onLine 11 "assignment" true none 21 26 [
        .onLine 12 "identifier" true (some "left") 21 22 [],
        .onLine 13 "=" false none 23 24 [],
        .onLine 14 "integer" true (some "right") 25 26 []]],
    .onLine 15 "end" false none 27 30 []]

def setup : Setup where
  language := Language.ruby
  tokens := .ofTree Language.ruby "if c then x = 1 else x = 2 end".toUTF8 root.node

theorem straight_of_mem_children : ∀ q ∈ root.children, Language.ruby.Straight q := by
  have hthen : Language.ruby.Straight root.children[2] := by
    refine .plain rfl (List.forall_mem_cons.mpr ⟨.token rfl, ?_⟩)
    exact List.forall_mem_singleton.mpr (.defines trivial)
  have helse : Language.ruby.Straight root.children[3] := by
    refine .plain rfl (List.forall_mem_cons.mpr ⟨.token rfl, ?_⟩)
    exact List.forall_mem_singleton.mpr (.defines trivial)
  refine List.forall_mem_cons.mpr ⟨.token rfl, List.forall_mem_cons.mpr ⟨.token rfl, ?_⟩⟩
  refine List.forall_mem_cons.mpr ⟨hthen, List.forall_mem_cons.mpr ⟨helse, ?_⟩⟩
  exact List.forall_mem_singleton.mpr (.token rfl)

end ConditionalValue

namespace Setup

/-- A loop that is used as a value binds what its body binds.  A conditional is read child by
child. -/
theorem live_resolve_loopValue :
    Language.ruby.Straight LoopValue.root ∧
    (LoopValue.setup.resolve 9 LoopValue.root .empty).value.1 =
      (LoopValue.setup.visit 9 LoopValue.root .empty).value ∧
    (LoopValue.setup.visit 9 LoopValue.root .empty).value.get? "x" = some [3] ∧
    (ConditionalValue.setup.resolve 9 ConditionalValue.root .empty).value.1 =
      ((ConditionalValue.setup.walkers 8).visitAll ConditionalValue.root.children .empty).value := by
  have hloop := live_resolve_eq_live_visit LoopValue.setup (by decide) 9 LoopValue.root .empty
    LiveDefs.ascending_empty
  have hconditional := live_resolve_eq_live_visit ConditionalValue.setup (by decide) 8
    ConditionalValue.root .empty LiveDefs.ascending_empty
  refine ⟨LoopValue.straight_root, hloop.1 LoopValue.straight_root, by decide +kernel, ?_⟩
  exact hconditional.2 ConditionalValue.straight_of_mem_children rfl rfl (.inl ⟨_, rfl⟩)

/-- Of a conditional that is used as a value, the definition in the last arm alone stays
live.  As a statement it leaves those of both arms. -/
theorem resolve_conditional_ne_visit :
    (ConditionalValue.setup.resolve 9 ConditionalValue.root .empty).degradations = [] ∧
    (ConditionalValue.setup.visit 9 ConditionalValue.root .empty).degradations = [] ∧
    (ConditionalValue.setup.resolve 9 ConditionalValue.root .empty).value.1.get? "x" =
      some [7] ∧
    (ConditionalValue.setup.visit 9 ConditionalValue.root .empty).value.get? "x" =
      some [3, 7] := by
  decide +kernel

end Setup

end TokenFlow
