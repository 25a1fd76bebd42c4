import TokenFlow.Analysis.Graph
import TokenFlow.Proofs.EdgeSlots
import TokenFlow.Proofs.WalkEffects
import TokenFlow.Proofs.WalkRelation

/-!
# The edges that are not those of reads

A name that is read as a statement brings up an edge of its own.  `visitBy` is the walk in
which such edges are rewritten before anything else is done with them, and
`edgesBesideReads` are the edges left when they are dropped.

Nothing else of the walk changes: the live definitions are everywhere the same, and what
is left over is drawn in the graph as well (`Setup.partOf_walkersBy`).
-/
namespace TokenFlow

/-! ## Parts of a walk -/

/-- For each source of the edge some edge of the same slot has it. -/
def Edge.DrawnIn (e : Edge) (es : List Edge) : Prop :=
  ∀ x ∈ e.sources, ∃ f ∈ es, f.slot = e.slot ∧ x ∈ f.sources

theorem Edge.DrawnIn.mono {e : Edge} {es es' : List Edge} (h : e.DrawnIn es) (hsub : es ⊆ es') :
    e.DrawnIn es' := by
  intro x hx
  obtain ⟨f, hf, hslot, hmem⟩ := h x hx
  exact ⟨f, hsub hf, hslot, hmem⟩

theorem Edge.drawnIn_of_mem {e : Edge} {es : List Edge} (h : e ∈ es) : e.DrawnIn es :=
  fun _ hx => ⟨e, h, rfl, hx⟩

/-- Walks with the same values, of which the first draws from nothing that the second does
not draw from. -/
def WalkRelation.partOf : WalkRelation :=
  .same (fun V x y => V x.value y.value ∧ ∀ e ∈ x.edges, e.DrawnIn y.edges) Eq (fun _ => False)
    (fun h => ⟨h, List.forall_mem_nil _⟩)
    (fun hx hf => by
      obtain ⟨hvalue, hedges⟩ := hx
      obtain ⟨hvalue', hedges'⟩ := hf _ _ hvalue
      refine ⟨hvalue', List.forall_mem_append.mpr ⟨fun e he => ?_, fun e he => ?_⟩⟩
      · exact (hedges e he).mono (List.subset_append_left _ _)
      · exact (hedges' e he).mono (List.subset_append_right _ _))
    (fun hx => by
      refine ⟨hx.1, fun e he z hz => ?_⟩
      obtain ⟨e', he', hslot, hz⟩ := Edge.exists_mem_of_fold he hz
      obtain ⟨f, hf, hslot', hz⟩ := hx.2 e' he' z hz
      obtain ⟨f', hf', hslot'', hsub⟩ := Edge.covered_fold hf
      exact ⟨f', hf', hslot''.trans (hslot'.trans hslot), hsub hz⟩)
    fun _ => ⟨trivial, fun _ => Edge.drawnIn_of_mem⟩

/-! ## The walk without some of its reads -/

namespace Setup

variable (s : Setup) (reads : List Edge → List Edge)

/-- Reads a place as a statement, and rewrites what it brings up if it is a token. -/
def visitStepBy (w : Walkers) (p : Place) (live : LiveDefs) : Traced LiveDefs :=
  if s.language.isToken p.node then (s.visitStep w p live).mapEdges reads
  else s.visitStep w p live

mutual
/-- `Setup.visit`, where the edges of a name that is read as a statement are rewritten
before anything else is done with them. -/
def visitBy : Nat → Place → LiveDefs → Traced LiveDefs
  | 0, p, live => s.visit 0 p live
  | budget + 1, p, live =>
    s.visitStepBy reads
      ⟨visitBy budget, resolveBy budget, s.targets budget, s.isReference budget⟩ p live

/-- `Setup.resolve`, with `visitBy` for whatever is read as a statement. -/
def resolveBy : Nat → Place → LiveDefs → Traced (LiveDefs × List Source)
  | 0, p, live => s.resolve 0 p live
  | budget + 1, p, live =>
    s.resolveStep
      ⟨visitBy budget, resolveBy budget, s.targets budget, s.isReference budget⟩ p live
end

/-- How to read places with a budget, reads being rewritten. -/
def walkersBy (budget : Nat) : Walkers :=
  ⟨s.visitBy reads budget, s.resolveBy reads budget, s.targets budget, s.isReference budget⟩

/-- The edges of the graph of a tree that are not those of names read as statements. -/
def edgesBesideReads (root : Place) (live : LiveDefs) : List Edge :=
  (s.visitBy (fun _ => []) s.budget root live).edges

/-- Where reads are left as they are, this is the walk. -/
theorem walkersBy_id (budget : Nat) : s.walkersBy id budget = s.walkers budget := by
  induction budget with
  | zero => rfl
  | succ budget ih =>
    have hvisit : s.visitBy id (budget + 1) = s.visitStep (s.walkers budget) := by
      funext p live
      show s.visitStepBy id (s.walkersBy id budget) p live = _
      rw [visitStepBy, ih]
      split <;> rfl
    have hresolve : s.resolveBy id (budget + 1) = s.resolveStep (s.walkers budget) := by
      funext p live
      show s.resolveStep (s.walkersBy id budget) p live = _
      rw [ih]
    show Walkers.mk _ _ _ _ = Walkers.mk _ _ _ _
    rw [hvisit, hresolve]
    rfl

theorem value_visitStepBy (w : Walkers) (p : Place) (live : LiveDefs) :
    (s.visitStepBy reads w p live).value = (s.visitStep w p live).value := by
  unfold visitStepBy
  split <;> rfl

theorem effective_walkersBy (budget : Nat) : (s.walkersBy reads budget).Effective := by
  induction budget with
  | zero => exact ⟨fun _ => Transfers.id, fun _ => Transfers.id⟩
  | succ budget ih =>
    refine ⟨fun p => ?_, s.transfers_resolveStep ih⟩
    show Transfers fun live => (s.visitStepBy reads (s.walkersBy reads budget) p live).value
    simp only [value_visitStepBy]
    exact s.transfers_visitStep ih p

/-! ## Dropped reads -/

variable {s reads}

/-- Whatever is not read otherwise is a part of itself. -/
theorem partOf_self {α : Type} {V : α → α → Prop} {x : Traced α} (h : V x.value x.value) :
    WalkRelation.partOf.traced V x x :=
  ⟨h, fun _ => Edge.drawnIn_of_mem⟩

theorem reads_partOf (p : Place) : WalkRelation.partOf.Reads s s p p where
  comment := rfl
  token _ := rfl
  leaf _ _ := partOf_self (.refl (fun _ _ => rfl) fun _ _ => rfl)

/-- **The walk in which some edges of reads are dropped is a part of the walk**: it leaves
the same live definitions, and draws from nothing that the walk does not draw from. -/
theorem partOf_walkersBy (hreads : ∀ es, reads es ⊆ es) (budget : Nat) :
    (s.walkersBy reads budget).Related .partOf (s.walkers budget) := by
  have htargets : ∀ (budget : Nat) {p q : Place}, p = q →
      WalkRelation.partOf.traced (List.Forall₂ Eq) (s.targets budget p) (s.targets budget q) := by
    rintro budget p _ rfl
    exact partOf_self (List.forall₂_same.mpr fun _ _ => rfl)
  induction budget with
  | zero =>
    refine ⟨?_, ?_, htargets _, fun h => h.elim, fun h => h.elim, fun h => h.elim⟩
    · rintro p _ l _ rfl rfl
      exact partOf_self rfl
    · rintro p _ l _ rfl rfl
      exact partOf_self ⟨rfl, rfl, rfl⟩
  | succ budget ih =>
    have hpattern : ∀ p : Place, WalkRelation.partOf.Patterns (s.language.pattern p)
        (s.language.pattern p) := fun _ => .refl (fun _ _ => rfl) fun _ _ => rfl
    have hchildren : ∀ p : Place, WalkRelation.partOf.Evaluated p.children p.children :=
      fun _ => .refl fun _ _ => rfl
    refine ⟨?_, ?_, htargets _, fun h => h.elim, fun h => h.elim, fun h => h.elim⟩
    · rintro p _ l _ rfl rfl
      have hstep : WalkRelation.partOf.traced Eq (s.visitStep (s.walkersBy reads budget) p l)
          (s.visitStep (s.walkers budget) p l) :=
        (reads_partOf p).visitStep (.of_eq (fun _ _ h => h) fun _ _ h => h) rfl fun _ _ =>
          ih.visitPattern (hpattern p) (hchildren p) rfl
      show WalkRelation.partOf.traced Eq (s.visitStepBy reads (s.walkersBy reads budget) p l) _
      unfold visitStepBy
      split
      · exact ⟨hstep.1, fun e he => hstep.2 e (hreads _ he)⟩
      · exact hstep
    · rintro p _ l _ rfl rfl
      exact WalkRelation.imp ((reads_partOf p).resolveStep rfl fun _ _ =>
        ih.resolvePattern (hpattern p) (hchildren p) rfl) fun _ _ hr => ⟨hr.1, hr.2, rfl⟩

/-- The edges beside reads draw from nothing that the graph does not draw from. -/
theorem drawnIn_of_mem_edgesBesideReads {root : Place} {live : LiveDefs} {e : Edge}
    (he : e ∈ s.edgesBesideReads root live) : e.DrawnIn (s.graph root live).edges :=
  ((partOf_walkersBy (fun _ => List.nil_subset _) s.budget).visit (p := root) rfl rfl).2 e he

end Setup

end TokenFlow
