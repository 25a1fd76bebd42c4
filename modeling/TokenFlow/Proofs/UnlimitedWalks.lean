import TokenFlow.Proofs.DepthLimit
import TokenFlow.Proofs.NestingLevels
import TokenFlow.Proofs.TableDescent

/-!
# Walks end where the tree ends

What the program makes of a place, it makes of what it makes of the places that the place
leads to: its children and the parts of its pattern (`Setup.step`).  All of these lie below it
(`Setup.Leads.hasBelow`), so the recursion ends without any limit, and there is one reading of
all places that follows the rule (`Setup.free`, `Setup.eq_free_of_step`).

The program counts the levels that it enters and stops at a limit.  A level counts one while
the tree may go down by more, so the count at a place is never more than its nesting
(`Setup.Enters.exists_nested`).  What the program reads at a count depends only on what it
enters from there, and what it cuts it has entered at a count beyond the limit
(`Setup.treat_of_enters`).  So only places that are nested deeper than the limit are cut.
-/
namespace TokenFlow

/-! ## Cuts among some -/

namespace Traced

variable {α β : Type}

/-- All that was left out because it is nested too deep is among some degradations. -/
def CutsAmong (allowed : Degradation → Prop) (x : Traced α) : Prop :=
  ∀ d ∈ x.degradations, d.isCut = true → allowed d

/-- The computations are the same, and their cuts are among some. -/
def Agree (allowed : Degradation → Prop) (x y : Traced α) : Prop :=
  x = y ∧ x.CutsAmong allowed

end Traced

/-- A walk compared with one that does the same at certain places, with cuts among some. -/
def WalkRelation.agreeing (place : Place → Prop) (allowed : Degradation → Prop) : WalkRelation :=
  .same (fun V x y => V x.value y.value ∧ x.edges = y.edges ∧ x.degradations = y.degradations ∧
      x.CutsAmong allowed)
    (fun p q => p = q ∧ place p) (fun _ => False)
    (fun h => ⟨h, rfl, rfl, List.forall_mem_nil _⟩)
    (fun hx hf => by
      obtain ⟨hvalue, hedges, hdegradations, hcuts⟩ := hx
      obtain ⟨hvalue', hedges', hdegradations', hcuts'⟩ := hf _ _ hvalue
      exact ⟨hvalue', congr (congrArg _ hedges) hedges',
        congr (congrArg _ hdegradations) hdegradations',
        List.forall_mem_append.mpr ⟨hcuts, hcuts'⟩⟩)
    (fun hx => ⟨hx.1, congrArg Edge.fold hx.2.1, hx.2.2⟩)
    fun _ => ⟨trivial, rfl, rfl, List.forall_mem_nil _⟩

namespace WalkRelation

variable {place : Place → Prop} {allowed : Degradation → Prop} {α : Type}

theorem seesItself_agreeing : (agreeing place allowed).SeesItself :=
  .of_eq (fun _ _ h => h) fun _ _ h => h

theorem agreeing_of_agree {V : α → α → Prop} {x y : Traced α} (h : x.Agree allowed y)
    (hV : ∀ a, V a a) : (agreeing place allowed).traced V x y := by
  obtain ⟨rfl, hcuts⟩ := h
  exact ⟨hV _, rfl, rfl, hcuts⟩

theorem agree_of_agreeing {V : α → α → Prop} {x y : Traced α}
    (h : (agreeing place allowed).traced V x y) (hV : ∀ a b, V a b → a = b) :
    x.Agree allowed y := by
  obtain ⟨hvalue, hedges, hdegradations, hcuts⟩ := h
  obtain ⟨a, es, ds⟩ := x
  obtain ⟨b, es', ds'⟩ := y
  exact ⟨congr (congrArg₂ Traced.mk (hV a b hvalue) hedges) hdegradations, hcuts⟩

end WalkRelation

/-! ## The rule -/

/-- How one place is treated: as a statement, as a value, and as something assigned to; and
whether it is a copy, or a chain of names at least. -/
@[ext] structure Treatment where
  visit : LiveDefs → Traced LiveDefs
  resolve : LiveDefs → Traced (LiveDefs × List Source)
  targets : Traced (List Token)
  isReference : Bool
  isChain : Bool

/-- What is left out of a place because it is nested too deep is among some degradations. -/
structure Treatment.CutsAmong (allowed : Degradation → Prop) (t : Treatment) : Prop where
  visit (live : LiveDefs) : (t.visit live).CutsAmong allowed
  resolve (live : LiveDefs) : (t.resolve live).CutsAmong allowed
  targets : t.targets.CutsAmong allowed

/-- Walkers that treat each place in its way. -/
def Walkers.ofTreatment (treat : Place → Treatment) : Walkers where
  visit p := (treat p).visit
  resolve p := (treat p).resolve
  targets p := (treat p).targets
  isReference p := (treat p).isReference

theorem Walkers.related_ofTreatment {treat treat' : Place → Treatment} {place : Place → Prop}
    {allowed : Degradation → Prop}
    (h : ∀ q, place q → treat q = treat' q ∧ (treat q).CutsAmong allowed) :
    (Walkers.ofTreatment treat).Related (.agreeing place allowed) (.ofTreatment treat') where
  visit := by
    rintro p _ live _ ⟨rfl, hp⟩ rfl
    obtain ⟨hsame, hcuts⟩ := h p hp
    have hvisit : (treat p).visit live = (treat' p).visit live := by rw [hsame]
    exact WalkRelation.agreeing_of_agree ⟨hvisit, hcuts.visit live⟩ fun _ => rfl
  resolve := by
    rintro p _ live _ ⟨rfl, hp⟩ rfl
    obtain ⟨hsame, hcuts⟩ := h p hp
    have hresolve : (treat p).resolve live = (treat' p).resolve live := by rw [hsame]
    have hreference : (treat p).isReference = (treat' p).isReference := by rw [hsame]
    exact WalkRelation.agreeing_of_agree ⟨hresolve, hcuts.resolve live⟩
      fun _ => ⟨rfl, rfl, hreference⟩
  targets := by
    rintro p _ ⟨rfl, hp⟩
    obtain ⟨hsame, hcuts⟩ := h p hp
    have htargets : (treat p).targets = (treat' p).targets := by rw [hsame]
    exact WalkRelation.agreeing_of_agree ⟨htargets, hcuts.targets⟩
      fun _ => List.forall₂_same.mpr fun _ _ => rfl
  visit_extra h := h.elim
  resolve_extra h := h.elim
  targets_extra h := h.elim

namespace Setup

variable (s : Setup)

/-- What a place leads to: its children and the parts of its pattern. -/
structure Leads (p q : Place) : Prop where
  comment : s.language.isComment p.kind = false
  token : s.language.isToken p.node = false
  next : q ∈ p.children ∨ q ∈ (s.language.pattern p).parts

/-- How a place is treated, given how the places are treated that it leads to. -/
def step (deeper : Place → Treatment) (p : Place) : Treatment :=
  let isChain := if s.language.isToken p.node then
      s.language.isIdentifier p.kind || !p.named || selfWords.contains p.kind
    else s.language.memberAccess.contains p.kind && p.children.all fun q => (deeper q).isChain
  { visit := s.visitStep (.ofTreatment deeper) p
    resolve := s.resolveStep (.ofTreatment deeper) p
    targets :=
      if s.language.isComment p.kind then return []
      else if s.language.isToken p.node then do
        match ← s.leaf p with
        | .name token => return [token]
        | _ => return []
      else (Walkers.ofTreatment deeper).allTargets p.children
    isReference :=
      if s.language.isToken p.node then s.language.isIdentifier p.kind else isChain
    isChain }

/-- How a place is left out. -/
def skip (p : Place) : Treatment where
  visit live := do
    s.cut p
    return live
  resolve live := do
    s.cut p
    return (live, [])
  targets := do
    s.cut p
    return []
  isReference := if s.language.isToken p.node then s.language.isIdentifier p.kind else false
  isChain := false

/-- How the program treats a place with a budget. -/
def treat (budget : Nat) (p : Place) : Treatment where
  visit := s.visit budget p
  resolve := s.resolve budget p
  targets := s.targets budget p
  isReference := s.isReference budget p
  isChain := s.isChain budget p

/-- **The program follows the rule as long as its budget lasts.** -/
theorem treat_succ (budget : Nat) : s.treat (budget + 1) = s.step (s.treat budget) := rfl

theorem treat_zero : s.treat 0 = s.skip := rfl

variable {s} {p q : Place} {deeper deeper' : Place → Treatment} {allowed : Degradation → Prop}

theorem leaf_cutsAmong (p : Place) : (s.leaf p).CutsAmong allowed := by
  unfold leaf
  cases s.tokens.find? p.node.span with
  | none =>
    dsimp only
    split
    · exact List.forall_mem_nil _
    · exact List.forall_mem_singleton.mpr fun h => absurd h Bool.false_ne_true
  | some t =>
    dsimp only
    split
    · exact List.forall_mem_nil _
    · split
      · split <;> exact List.forall_mem_nil _
      · exact List.forall_mem_nil _

theorem reads_agreeing (place : Place → Prop) (allowed : Degradation → Prop) (p : Place) :
    (WalkRelation.agreeing place allowed).Reads s s p p where
  comment := rfl
  token _ := rfl
  leaf _ _ := ⟨.refl (fun _ _ => rfl) fun _ _ => rfl, rfl, rfl, leaf_cutsAmong p⟩

theorem patterns_agreeing {place : Place → Prop} {pattern : Pattern}
    (h : ∀ q ∈ pattern.parts, place q) :
    (WalkRelation.agreeing place allowed).Patterns pattern pattern :=
  .refl (fun q hq => ⟨rfl, h q (Pattern.mem_parts.mpr (Or.inl hq))⟩)
    fun q hq => ⟨rfl, h q (Pattern.mem_parts.mpr (Or.inr hq))⟩

section Agreement

variable (h : ∀ q, s.Leads p q → deeper q = deeper' q ∧ (deeper q).CutsAmong allowed)
include h

theorem visit_step_agree (live : LiveDefs) :
    ((s.step deeper p).visit live).Agree allowed ((s.step deeper' p).visit live) := by
  have hsame := (reads_agreeing (s.Leads p) allowed p).visitStep
    WalkRelation.seesItself_agreeing (rfl : live = live) fun hcomment htoken =>
      (Walkers.related_ofTreatment h).visitPattern
        (patterns_agreeing fun q hq => ⟨hcomment, htoken, Or.inr hq⟩)
        (.refl fun q hq => ⟨rfl, hcomment, htoken, Or.inl hq⟩) rfl
  exact WalkRelation.agree_of_agreeing hsame fun _ _ h => h

theorem resolve_step_agree (live : LiveDefs) :
    ((s.step deeper p).resolve live).Agree allowed ((s.step deeper' p).resolve live) := by
  have hsame := (reads_agreeing (s.Leads p) allowed p).resolveStep
    (rfl : live = live) fun hcomment htoken =>
      (Walkers.related_ofTreatment h).resolvePattern
        (patterns_agreeing fun q hq => ⟨hcomment, htoken, Or.inr hq⟩)
        (.refl fun q hq => ⟨rfl, hcomment, htoken, Or.inl hq⟩) rfl
  exact WalkRelation.agree_of_agreeing hsame fun _ _ h => Prod.ext h.1 h.2

theorem targets_step_agree :
    (s.step deeper p).targets.Agree allowed (s.step deeper' p).targets := by
  unfold step
  cases s.language.reads p with
  | comment hcomment =>
    simp only [hcomment, if_true]
    exact ⟨rfl, List.forall_mem_nil _⟩
  | token hcomment htoken =>
    simp only [hcomment, htoken, Bool.false_eq_true, if_false, if_true]
    refine ⟨rfl, List.forall_mem_append.mpr ⟨leaf_cutsAmong p, ?_⟩⟩
    cases (s.leaf p).value <;> exact List.forall_mem_nil _
  | construct hcomment htoken =>
    simp only [hcomment, htoken, Bool.false_eq_true, if_false]
    have hchildren : (WalkRelation.agreeing (s.Leads p) allowed).Assigned p.children p.children :=
      .refl fun q hq => ⟨rfl, hcomment, htoken, Or.inl hq⟩
    have hsame := (Walkers.related_ofTreatment h).allTargets hchildren
    exact WalkRelation.agree_of_agreeing hsame fun _ _ h => List.forall₂_eq_eq_eq ▸ h

theorem isChain_step (hs : s.language.ReadsThroughChains) :
    (s.step deeper p).isChain = (s.step deeper' p).isChain := by
  unfold step
  cases htoken : s.language.isToken p.node with
  | true => rfl
  | false =>
    cases haccess : s.language.memberAccess.contains p.kind with
    | false => rfl
    | true =>
      have hchildren : ∀ q ∈ p.children, deeper q = deeper' q := fun q hq =>
        (h q ⟨(hs p haccess).1, htoken, Or.inl hq⟩).1
      simp only [Bool.false_eq_true, if_false, Bool.true_and]
      rw [Bool.eq_iff_iff, List.all_eq_true, List.all_eq_true]
      exact forall₂_congr fun q hq => by rw [hchildren q hq]

/-- **How a place is treated depends on the places that it leads to**, and so do its cuts. -/
theorem step_agree (hs : s.language.ReadsThroughChains) :
    s.step deeper p = s.step deeper' p ∧ (s.step deeper p).CutsAmong allowed := by
  refine ⟨?_, fun live => (visit_step_agree h live).2, fun live => (resolve_step_agree h live).2,
    (targets_step_agree h).2⟩
  have hchain := isChain_step h hs
  ext1
  · exact funext fun live => (visit_step_agree h live).1
  · exact funext fun live => (resolve_step_agree h live).1
  · exact (targets_step_agree h).1
  · show (if _ then _ else (s.step deeper p).isChain) = if _ then _ else (s.step deeper' p).isChain
    rw [hchain]
  · exact hchain

end Agreement

theorem step_congr (hs : s.language.ReadsThroughChains)
    (h : ∀ q, s.Leads p q → deeper q = deeper' q) : s.step deeper p = s.step deeper' p := by
  have hany : ∀ q, (deeper q).CutsAmong fun _ => True := fun q =>
    ⟨fun _ _ _ _ => trivial, fun _ _ _ _ => trivial, fun _ _ _ => trivial⟩
  exact (step_agree (fun q hq => ⟨h q hq, hany q⟩) hs).1

/-! ## Without a limit -/

variable (s) in
/-- How a place is treated with a budget for all levels below it. -/
def free (p : Place) : Treatment :=
  s.treat (p.node.height + 1) p

section Descent

variable (hbelow : ∀ p : Place, (s.language.pattern p).StaysBelow p)
  (hchains : s.language.ReadsThroughChains)
include hbelow

/-- **What a place leads to lies properly below it.** -/
theorem Leads.hasBelow (h : s.Leads p q) : p.HasBelow q :=
  h.next.elim .child (hbelow p q)

theorem wellFounded_leads : WellFounded fun q p => s.Leads p q :=
  Subrelation.wf (fun h => (h.hasBelow hbelow).height_lt)
    (InvImage.wf (fun p : Place => p.node.height) Nat.lt_wfRel.wf)

include hchains

/-- Of a budget, only as much is spent as there are levels. -/
theorem treat_congr {budget budget' : Nat} (h : p.node.height < budget)
    (h' : p.node.height < budget') : s.treat budget p = s.treat budget' p := by
  induction budget generalizing budget' p with
  | zero => exact absurd h (Nat.not_lt_zero _)
  | succ budget ih =>
    obtain ⟨budget', rfl⟩ := Nat.exists_eq_add_of_le' (Nat.one_le_of_lt h')
    rw [treat_succ, treat_succ]
    refine step_congr hchains fun q hq => ?_
    have hlt := (hq.hasBelow hbelow).height_lt
    exact ih (by omega) (by omega)

theorem treat_eq_free {budget : Nat} (h : p.node.height < budget) :
    s.treat budget p = s.free p :=
  treat_congr hbelow hchains h (Nat.lt_succ_self _)

/-- A walk that is not cut is the one without a limit. -/
theorem visit_eq_free_of_intact {budget : Nat} {live : LiveDefs}
    (h : (s.visit budget p live).Intact) : s.visit budget p live = (s.free p).visit live := by
  have hlarge : s.treat (max budget (p.node.height + 1)) p = s.free p :=
    treat_eq_free hbelow hchains (Nat.le_max_right _ _)
  obtain ⟨hvalue, hedges, hdegradations⟩ :=
    (related_withLimit hchains s.limit s.limit (Nat.le_max_left budget (p.node.height + 1))).visit
      (p := p) rfl (rfl : live = live) h
  rw [← hlarge]
  show Traced.mk _ _ _ = Traced.mk _ _ _
  exact congr (congrArg₂ Traced.mk hvalue hedges) hdegradations

/-- **The rule holds without any limit.** -/
theorem free_eq_step : s.free = s.step s.free := by
  funext p
  rw [free, treat_succ]
  exact step_congr hchains fun q hq =>
    treat_eq_free hbelow hchains (hq.hasBelow hbelow).height_lt

/-- **The recursion has one result.** -/
theorem eq_free_of_step {read : Place → Treatment} (h : read = s.step read) : read = s.free := by
  funext p
  induction p using (wellFounded_leads hbelow).induction with
  | h p ih =>
    rw [h, free_eq_step hbelow hchains]
    exact step_congr hchains fun q hq => h ▸ ih q hq

end Descent

/-! ## The count of levels -/

variable (s) in
/-- How a place is treated at a count of levels: beyond the limit it is left out. -/
def treatAt (depth : Nat) (deeper : Place → Treatment) (p : Place) : Treatment :=
  if s.limit < depth then s.skip p else s.step deeper p

variable (s) in
/-- Going down from a root, a place is entered at a count of levels. -/
inductive Enters (root : Place) : Nat → Place → Prop
  | root : Enters root 0 root
  | lead {depth p q} (h : Enters root depth p) (hdepth : depth ≤ s.limit) (hq : s.Leads p q) :
      Enters root (depth + 1) q

variable (s) in
/-- A degradation says that a place is left out which was entered beyond the limit. -/
def CutFrom (root : Place) (d : Degradation) : Prop :=
  ∃ q, s.Enters root (s.limit + 1) q ∧ d = .tooDeep s.limit q.kind q.node.span

variable {root : Place} {depth : Nat}

/-- **A place is nested at least as deep as its count says.** -/
theorem Enters.exists_nested (hbelow : ∀ p : Place, (s.language.pattern p).StaysBelow p)
    (h : s.Enters root depth p) : ∃ level, depth ≤ level ∧ root.Nested level p := by
  induction h with
  | root => exact ⟨0, Nat.le_refl 0, .root⟩
  | lead _ _ hq ih =>
    obtain ⟨level, hle, hp⟩ := ih
    obtain ⟨level', hlt, hq⟩ := hp.exists_of_hasBelow (hq.hasBelow hbelow)
    exact ⟨level', Nat.lt_of_le_of_lt hle hlt, hq⟩

theorem skip_cutsAmong (h : s.Enters root (s.limit + 1) p) :
    (s.skip p).CutsAmong (s.CutFrom root) := by
  have hcut : s.CutFrom root (.tooDeep s.limit p.kind p.node.span) := ⟨p, h, rfl⟩
  exact ⟨fun _ => List.forall_mem_singleton.mpr fun _ => hcut,
    fun _ => List.forall_mem_singleton.mpr fun _ => hcut,
    List.forall_mem_singleton.mpr fun _ => hcut⟩

/-- **Only what is entered is asked for, and only what is entered beyond the limit is cut.**
Whatever follows the rule at the places that are entered treats these as the program does with
the budget that is left. -/
theorem treat_of_enters (hchains : s.language.ReadsThroughChains) (read : Nat → Place → Treatment)
    (hread : ∀ depth q, s.Enters root depth q → read depth q = s.treatAt depth (read (depth + 1)) q)
    {budget : Nat} (hbudget : depth + budget = s.budget) (h : s.Enters root depth p) :
    s.treat budget p = read depth p ∧ (s.treat budget p).CutsAmong (s.CutFrom root) := by
  induction budget generalizing depth p with
  | zero =>
    obtain rfl : depth = s.limit + 1 := hbudget
    rw [hread _ _ h, treatAt, if_pos (Nat.lt_succ_self _), treat_zero]
    exact ⟨rfl, skip_cutsAmong h⟩
  | succ budget ih =>
    have hdepth : depth ≤ s.limit := by
      rw [Setup.budget] at hbudget
      omega
    rw [hread _ _ h, treatAt, if_neg (Nat.not_lt.mpr hdepth), treat_succ]
    exact step_agree (fun q hq => ih (by omega) (h.lead hdepth hq)) hchains

/-- The program itself follows the rule, with a budget that falls as the count rises. -/
theorem treat_eq_treatAt (depth : Nat) (p : Place) :
    s.treat (s.budget - depth) p = s.treatAt depth (s.treat (s.budget - (depth + 1))) p := by
  rw [treatAt, budget]
  split
  · rw [Nat.sub_eq_zero_of_le (by omega), treat_zero]
  · rw [show s.limit + 1 - depth = s.limit + 1 - (depth + 1) + 1 by omega, treat_succ]

theorem cutsAmong_of_enters (hchains : s.language.ReadsThroughChains) (root : Place) :
    (s.treat s.budget root).CutsAmong (s.CutFrom root) :=
  (treat_of_enters hchains (fun depth => s.treat (s.budget - depth))
    (fun depth q _ => treat_eq_treatAt depth q) (Nat.zero_add _) .root).2

/-- **A cut place is nested deeper than the limit.** -/
theorem CutFrom.exists_nested (hbelow : ∀ p : Place, (s.language.pattern p).StaysBelow p)
    {d : Degradation} (h : s.CutFrom root d) : ∃ q level, s.limit < level ∧
      root.Nested level q ∧ d = .tooDeep s.limit q.kind q.node.span := by
  obtain ⟨q, hq, rfl⟩ := h
  obtain ⟨level, hle, hnested⟩ := hq.exists_nested hbelow
  exact ⟨q, level, hle, hnested, rfl⟩

/-! ## Strict descent -/

variable (s) in
/-- The recursion goes strictly down the tree. -/
structure Descends : Prop where
  /-- Every part of a construct lies properly below it. -/
  parts_below (p : Place) : p.AllBelow (s.language.pattern p).parts
  /-- There is no endless way down. -/
  wellFounded : WellFounded fun q p => s.Leads p q
  /-- Without any limit, the recursion has a result, -/
  free_step : s.free = s.step s.free
  /-- and no other. -/
  free_unique (read : Place → Treatment) : read = s.step read → read = s.free
  /-- A budget that is larger than a place is high gives this result. -/
  treat_free (budget : Nat) (p : Place) : p.node.height < budget → s.treat budget p = s.free p
  /-- The count at a place is at most a level of the place, -/
  count_nested (root : Place) (depth : Nat) (q : Place) : s.Enters root depth q →
    ∃ level, depth ≤ level ∧ root.Nested level q
  /-- and so at most its one level where nodes have numbers of their own. -/
  count_le (root : Place) (depth level : Nat) (q : Place) : root.Numbered →
    s.Enters root depth q → root.Nested level q → depth ≤ level
  /-- The program asks for no place at another count: whatever follows the rule where it enters
  treats the root as it does. -/
  asks_entered (root : Place) (read : Nat → Place → Treatment) :
    (∀ depth q, s.Enters root depth q → read depth q = s.treatAt depth (read (depth + 1)) q) →
    s.treat s.budget root = read 0 root
  /-- A place that is cut is nested deeper than the limit. -/
  cut_nested (root : Place) (live : LiveDefs) (d : Degradation) :
    d ∈ (s.graph root live).degradations → d.isCut = true →
    ∃ q level, s.limit < level ∧ root.Nested level q ∧ d = .tooDeep s.limit q.kind q.node.span
  /-- A tree that is no higher than the limit is read as without one, and nothing of it is cut. -/
  whole (root : Place) (live : LiveDefs) : root.node.height ≤ s.limit →
    s.visit s.budget root live = (s.free root).visit live ∧
    ∀ d ∈ (s.graph root live).degradations, d.isCut = false

/-- **Recursion goes strictly down the tree**, for each of the seven tables, on every tree,
whatever the limit is. -/
theorem descends (s : Setup) (hs : ∃ tag : Tag, s.language = tag.language) : s.Descends := by
  obtain ⟨tag, htag⟩ := hs
  have hbelow : ∀ p : Place, (s.language.pattern p).StaysBelow p :=
    fun p => htag ▸ tag.staysBelow_pattern p
  have hchains : s.language.ReadsThroughChains := htag ▸ tag.readsThroughChains
  have hcut : ∀ (root : Place) (live : LiveDefs) (d : Degradation),
      d ∈ (s.graph root live).degradations → d.isCut = true → s.CutFrom root d :=
    fun root live d hd => (cutsAmong_of_enters hchains root).visit live d (List.mem_eraseDups.mp hd)
  refine
    { parts_below := hbelow
      wellFounded := wellFounded_leads hbelow
      free_step := free_eq_step hbelow hchains
      free_unique := fun _ => eq_free_of_step hbelow hchains
      treat_free := fun _ _ => treat_eq_free hbelow hchains
      count_nested := fun _ _ _ => Enters.exists_nested hbelow
      count_le := ?_
      asks_entered := fun _ read hread =>
        (treat_of_enters hchains read hread (Nat.zero_add _) .root).1
      cut_nested := fun root live d hd h => (hcut root live d hd h).exists_nested hbelow
      whole := ?_ }
  · intro root depth level q hroot hq hnested
    obtain ⟨level', hle, hnested'⟩ := hq.exists_nested hbelow
    exact hnested'.level_eq hroot hnested ▸ hle
  · intro root live hheight
    have hfree := treat_eq_free hbelow hchains (Nat.lt_succ_of_le hheight)
    refine ⟨congrFun (congrArg Treatment.visit hfree) live, fun d hd => ?_⟩
    cases hcase : d.isCut with
    | false => rfl
    | true =>
      obtain ⟨q, level, hlt, hnested, -⟩ := (hcut root live d hd hcase).exists_nested hbelow
      have := hnested.add_height_le
      omega

end Setup

/-! ## A broken branch -/

namespace BrokenBranch

/-- What stands in the other branch: an error with a name in it. -/
def block : Node :=
  .onLine 4 "block" true (some "body") 11 12 [
    .onLine 5 "ERROR" true none 11 12 [
      .onLine 6 "identifier" true none 11 12 []]]

/-- `if a: else: x`, without anything to do if `a` holds.  The clause of the other branch counts
for nothing: its block is entered from the statement. -/
def root : Place :=
  .root <| .onLine 0 "if_statement" true none 0 12 [
    .onLine 1 "identifier" true (some "condition") 3 4 [],
    .onLine 2 "else_clause" true (some "alternative") 6 12 [
      .onLine 3 "else" false none 6 10 [],
      block]]

def setup : Setup where
  language := Language.python
  tokens := .ofList [(⟨⟨0, 3⟩, ⟨0, 4⟩⟩, "a"), (⟨⟨0, 11⟩, ⟨0, 12⟩⟩, "x")]
  limit := 2

end BrokenBranch

namespace Setup

/-- Of the broken branch, which is four levels high, nothing is cut if the limit is four.  If it
is two, the name in the error is cut, which is nested deeper. -/
theorem descends_brokenBranch :
    (∃ tag : Tag, BrokenBranch.setup.language = tag.language) ∧
    BrokenBranch.root.node.height = 4 ∧
    (∀ d ∈ ((BrokenBranch.setup.withLimit 4).graph BrokenBranch.root .empty).degradations,
      d.isCut = false) ∧
    ∃ q level, 2 < level ∧ BrokenBranch.root.Nested level q ∧
      (BrokenBranch.setup.graph BrokenBranch.root .empty).degradations =
        [.tooDeep 2 q.kind q.node.span] := by
  have htag : ∃ tag : Tag, BrokenBranch.setup.language = tag.language := ⟨.python, rfl⟩
  have hheight : BrokenBranch.root.node.height = 4 := by decide
  have hcut : (BrokenBranch.setup.graph BrokenBranch.root .empty).degradations =
      [.tooDeep 2 "identifier" ⟨⟨0, 11⟩, ⟨0, 12⟩⟩] := by decide
  refine ⟨htag, hheight, ?_, ?_⟩
  · have hwhole := (descends (BrokenBranch.setup.withLimit 4) htag).whole
    exact (hwhole BrokenBranch.root .empty (Nat.le_of_eq hheight)).2
  · have hnested := (descends BrokenBranch.setup htag).cut_nested BrokenBranch.root .empty
    rw [hcut] at hnested ⊢
    obtain ⟨q, level, hlt, hq, heq⟩ := hnested _ List.mem_cons_self rfl
    exact ⟨q, level, hlt, hq, congrArg (fun d => [d]) heq⟩

-- the clause costs no count, so a limit of three is enough
example : ((BrokenBranch.setup.withLimit 3).graph BrokenBranch.root .empty).degradations = [] := by
  decide

end Setup

end TokenFlow
