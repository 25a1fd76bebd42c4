import TokenFlow.Proofs.Vocabulary
import TokenFlow.Proofs.WalkRelation

/-!
# Walks stay within their vocabulary

To follow one walk, it is compared with itself: it reads and assigns to certain places,
speaks of what is in a vocabulary, and brings up edges with some property
(`Vocabulary.diagonal`).  Both walks stay within every vocabulary in this way, by induction
on the budget (`Setup.keeps_walkers`).  The largest vocabulary admits everything, and
staying within it still says one thing: **every edge that a walk brings up is canonical**
(`Setup.canonical_of_visit`).
-/
namespace TokenFlow

variable {s : Setup} {v : Vocabulary s}

namespace Vocabulary

variable (v) in
/-- A walk compared with itself, which reads and assigns to certain places.  What it speaks
of is in the vocabulary, and its edges have a property that folding keeps. -/
def diagonal (place target : Place → Prop) (edge : Edge → Prop)
    (hemit : ∀ {t : Token}, v.token t → ∀ (relation : Relation) {xs : List Source},
      (∀ x ∈ xs, v.source x) → edge (.ofSources t.text t.index relation xs))
    (hunite : ∀ f e : Edge, edge f → edge e → f.slot = e.slot → edge (f.unite e)) :
    WalkRelation where
  traced V x y := V x.value y.value ∧ ∀ e ∈ x.edges, edge e
  place p q := p = q ∧ place p
  target p q := p = q ∧ target p
  extra _ := False
  live l l' := l = l' ∧ v.Knows l
  token t t' := t = t' ∧ v.token t
  sources xs xs' := xs = xs' ∧ ∀ x ∈ xs, v.source x
  pure h := ⟨h, List.forall_mem_nil _⟩
  bind hx hf := by
    obtain ⟨hvalue, hedges⟩ := hx
    obtain ⟨hvalue', hedges'⟩ := hf _ _ hvalue
    exact ⟨hvalue', List.forall_mem_append.mpr ⟨hedges, hedges'⟩⟩
  fold hx := ⟨hx.1, Edge.forall_fold hunite hx.2⟩
  emit relation ht hxs :=
    ⟨trivial, List.forall_mem_singleton.mpr (hemit ht.2 relation hxs.2)⟩
  live_empty := ⟨rfl, v.knows_empty⟩
  live_bind := by
    rintro l _ t _ ⟨rfl, h⟩ ⟨rfl, ht⟩
    exact ⟨rfl, h.bind ht⟩
  live_merge {ls ls'} h := by
    obtain rfl : ls = ls' := by
      rw [← List.forall₂_eq_eq_eq]
      exact h.imp fun _ _ hl => hl.1
    exact ⟨rfl, .merge fun l hl => (List.forall₂_same.mp h l hl).2⟩
  live_restore := by
    rintro l _ k _ t _ ⟨rfl, h⟩ ⟨rfl, hk⟩ ⟨rfl, -⟩
    exact ⟨rfl, h.restore (hk t.text)⟩
  sources_nil := ⟨rfl, List.forall_mem_nil _⟩
  sources_append := by
    rintro xs _ ys _ ⟨rfl, hx⟩ ⟨rfl, hy⟩
    exact ⟨rfl, List.forall_mem_append.mpr ⟨hx, hy⟩⟩
  sources_token := by
    rintro t _ ⟨rfl, ht⟩
    exact ⟨rfl, List.forall_mem_singleton.mpr (v.source_of_live (v.live_of_token ht))⟩
  sources_live := by
    rintro l _ t _ ⟨rfl, h⟩ ⟨rfl, -⟩
    cases hdefs : l.get? t.text with
    | none => exact .none
    | some defs => exact .some ⟨rfl, source_ofDefs h hdefs⟩

variable (v) in
/-- A walk over the places of the vocabulary. -/
def own : WalkRelation :=
  v.diagonal v.place v.place v.Drawn drawn_ofSources drawn_unite

/-- Parameters of which all parts are places of the vocabulary. -/
theorem parameters_own {qs : List Parameter} (h : ∀ p ∈ qs.flatMap Parameter.parts, v.place p) :
    List.Forall₂ v.own.Parameters qs qs := by
  rw [List.forall_mem_flatMap] at h
  refine List.forall₂_same.mpr fun q hq => ?_
  obtain ⟨hname, hfallback⟩ := List.forall_mem_cons.mp (h q hq)
  exact ⟨⟨rfl, hname⟩, List.forall₂_same.mpr fun p hp => ⟨rfl, hfallback p hp⟩⟩

end Vocabulary

/-- Reading what is nested deeper stays within the vocabulary. -/
abbrev Walkers.Keeps (w : Walkers) (v : Vocabulary s) : Prop :=
  w.Related v.own w

namespace Setup

theorem seesItself_own : v.own.SeesItself :=
  .of_eq (fun _ _ h => h.1) fun _ _ h => h.1

theorem reads_own {p : Place} (hp : v.place p) : v.own.Reads s s p p where
  comment := rfl
  token _ := rfl
  leaf hcomment htoken := by
    refine ⟨.refl (fun t ht => ⟨rfl, v.name hp hcomment htoken ht⟩) fun t ht => ⟨rfl, ?_⟩, ?_⟩
    · exact List.forall_mem_singleton.mpr (v.literal hp hcomment htoken ht)
    · exact fun e he => absurd (s.edges_leaf p ▸ he) List.not_mem_nil

/-- **Both walks stay within every vocabulary**, whatever the budget. -/
theorem keeps_walkers (budget : Nat) : (s.walkers budget).Keeps v := by
  induction budget with
  | zero =>
    refine ⟨?_, ?_, ?_, fun h => h.elim, fun h => h.elim, fun h => h.elim⟩
    · exact fun _ hl => ⟨hl, List.forall_mem_nil _⟩
    · rintro p _ l l' ⟨rfl, -⟩ hl
      exact ⟨⟨hl, ⟨rfl, List.forall_mem_nil _⟩, rfl⟩, List.forall_mem_nil _⟩
    · exact fun _ => ⟨.nil, List.forall_mem_nil _⟩
  | succ budget ih =>
    have hpattern : ∀ {p : Place}, v.place p →
        v.own.Patterns (s.language.pattern p) (s.language.pattern p) := fun hp =>
      .refl (fun q hq => ⟨rfl, v.part hp (Pattern.mem_parts.mpr (Or.inl hq))⟩)
        fun q hq => ⟨rfl, v.part hp (Pattern.mem_parts.mpr (Or.inr hq))⟩
    have hchildren : ∀ {p : Place}, v.place p → v.own.Evaluated p.children p.children :=
      fun hp => .refl fun q hq => ⟨rfl, v.child hp hq⟩
    refine ⟨?_, ?_, ?_, fun h => h.elim, fun h => h.elim, fun h => h.elim⟩
    · rintro p _ l l' ⟨rfl, hp⟩ hl
      exact (reads_own hp).visitStep seesItself_own hl fun _ _ =>
        ih.visitPattern (hpattern hp) (hchildren hp) hl
    · rintro p _ l l' ⟨rfl, hp⟩ hl
      refine WalkRelation.imp ((reads_own hp).resolveStep hl fun _ _ =>
        ih.resolvePattern (hpattern hp) (hchildren hp) hl) fun _ _ hr => ⟨hr.1, hr.2, rfl⟩
    · rintro p _ ⟨rfl, hp⟩
      exact (reads_own hp).targets fun _ _ => ih.allTargets (hchildren hp)

/-! ## Canonical edges -/

variable (s) in
/-- The vocabulary that admits everything. -/
def anything : Vocabulary s where
  place _ := True
  token _ := True
  live _ := True
  source _ := True
  child _ _ := trivial
  part _ _ := trivial
  name _ _ _ _ := trivial
  literal _ _ _ _ := trivial
  live_of_token _ := trivial
  source_of_live _ := trivial

theorem live_anything (live : LiveDefs) : s.anything.own.live live live :=
  ⟨rfl, fun _ _ _ _ _ => trivial⟩

theorem evaluated_anything (ps : List Place) : s.anything.own.Evaluated ps ps :=
  .refl fun _ _ => ⟨rfl, trivial⟩

/-- What stays within some vocabulary brings up canonical edges. -/
theorem canonical_of_traced {α : Type} {V : α → α → Prop} {x : Traced α}
    (h : s.anything.own.traced V x x) : ∀ e ∈ x.edges, e.Canonical :=
  fun e he => (h.2 e he).1

/-- **Every edge of a walk is canonical.** -/
theorem canonical_of_visit (budget : Nat) (p : Place) (live : LiveDefs) :
    ∀ e ∈ (s.visit budget p live).edges, e.Canonical :=
  canonical_of_traced ((keeps_walkers budget).visit (p := p) ⟨rfl, trivial⟩ (live_anything live))

end Setup

end TokenFlow
