import Mathlib.Data.List.Perm.Basic
import Mathlib.Data.String.Basic
import TokenFlow.Edge.Fold
import TokenFlow.Proofs.AscendingSets

/-!
# What folding does to edges

An edge is a *slot* (the token that is defined, and how) with a set of sources.
`Canonical` says that the set is written down in the one way `ofSources` writes it.

Folding unites the edges of each slot.  Nothing is lost (`covered_fold`),
nothing is made up (`exists_mem_of_fold`), whatever holds of the edges and survives
the union of two holds of what is folded (`forall_fold`), and canonical edges that are
repeated leave no trace (`fold_append_of_subset`).
-/
namespace TokenFlow

namespace Source

instance : IsStrictTotalOrder Source (· < ·) where
  trichotomous a b hab hba := by
    obtain ⟨m, i⟩ := a
    obtain ⟨n, j⟩ := b
    have hi : i = j := by
      have h₁ : ¬ i < j := fun h => hab (Or.inl h)
      have h₂ : ¬ j < i := fun h => hba (Or.inl h)
      omega
    subst hi
    have hm : m = n := Std.Trichotomous.trichotomous (r := (· < ·)) m n
      (fun h => hab (Or.inr ⟨rfl, h⟩)) (fun h => hba (Or.inr ⟨rfl, h⟩))
    rw [hm]
  irrefl a h := by
    rcases h with h | h
    · exact Nat.lt_irrefl _ h
    · exact String.lt_irrefl _ h.2
  trans a b c hab hbc := by
    rcases hab with hab | ⟨hab, hab'⟩ <;> rcases hbc with hbc | ⟨hbc, hbc'⟩
    · exact Or.inl (Nat.lt_trans hab hbc)
    · exact Or.inl (hbc ▸ hab)
    · exact Or.inl (hab ▸ hbc)
    · exact Or.inr ⟨hab.trans hbc, String.lt_trans hab' hbc'⟩

end Source

namespace Edge

/-- The token that an edge defines, and how. -/
def slot (e : Edge) : String × Nat × Relation :=
  (e.name, e.index, e.relation)

theorem sameSlot_iff {e f : Edge} : e.sameSlot f = true ↔ e.slot = f.slot := by
  simp only [sameSlot, slot, Bool.and_eq_true, beq_iff_eq, Prod.mk.injEq, and_assoc]

@[simp] theorem slot_ofSources (name : String) (index : Nat) (relation : Relation)
    (sources : List Source) :
    (ofSources name index relation sources).slot = (name, index, relation) := rfl

theorem sources_ofSources (name : String) (index : Nat) (relation : Relation)
    (sources : List Source) :
    (ofSources name index relation sources).sources = Ascending.ofList sources := by
  simp only [Edge.sources, ofSources, List.zipWith_map, List.zipWith_self]
  exact List.map_id _

@[simp] theorem mem_sources_ofSources {name : String} {index : Nat} {relation : Relation}
    {sources : List Source} {x : Source} :
    x ∈ (ofSources name index relation sources).sources ↔ x ∈ sources := by
  rw [sources_ofSources, Ascending.mem_ofList]

/-! ## Canonical edges -/

/-- The sources are listed in ascending order and without repetitions. -/
def Canonical (e : Edge) : Prop :=
  e = ofSources e.name e.index e.relation e.sources

theorem canonical_ofSources (name : String) (index : Nat) (relation : Relation)
    (sources : List Source) : (ofSources name index relation sources).Canonical := by
  rw [Canonical, sources_ofSources]
  show _ = ofSources name index relation (Ascending.ofList sources)
  rw [ofSources, ofSources, Ascending.ofList_eq_self (Ascending.pairwise_ofList sources)]

/-- The two lists of a canonical edge are those of its sources. -/
theorem Canonical.lists {e : Edge} (h : e.Canonical) :
    e.sourceNames = e.sources.map (·.name) ∧ e.sourceIndices = e.sources.map (·.index) := by
  have hsources : e.sources = Ascending.ofList e.sources := by
    conv => lhs; rw [h, sources_ofSources]
  constructor
  · conv => lhs; rw [h]
    rw [ofSources, ← hsources]
  · conv => lhs; rw [h]
    rw [ofSources, ← hsources]

theorem ofSources_congr {name : String} {index : Nat} {relation : Relation}
    {xs ys : List Source} (h : ∀ x, x ∈ xs ↔ x ∈ ys) :
    ofSources name index relation xs = ofSources name index relation ys := by
  rw [ofSources, ofSources, Ascending.ofList_congr h]

/-- The edge that has the sources of both. -/
def unite (f e : Edge) : Edge :=
  ofSources f.name f.index f.relation (f.sources ++ e.sources)

@[simp] theorem slot_unite (f e : Edge) : (f.unite e).slot = f.slot := rfl

@[simp] theorem mem_sources_unite {f e : Edge} {x : Source} :
    x ∈ (f.unite e).sources ↔ x ∈ f.sources ∨ x ∈ e.sources := by
  rw [unite, mem_sources_ofSources, List.mem_append]

theorem canonical_unite (f e : Edge) : (f.unite e).Canonical :=
  canonical_ofSources _ _ _ _

/-- A canonical edge takes nothing from sources that it has. -/
theorem unite_eq_self {f e : Edge} (hf : f.Canonical) (h : e.sources ⊆ f.sources) :
    f.unite e = f := by
  have hsame : ∀ x, x ∈ f.sources ++ e.sources ↔ x ∈ f.sources := fun x =>
    List.mem_append.trans ⟨fun hx => hx.elim id (h ·), Or.inl⟩
  rw [unite, ofSources_congr hsame]
  exact hf.symm

/-! ## Folding -/

theorem absorb_cons_pos {f e : Edge} {fs : List Edge} (h : f.slot = e.slot) :
    absorb (f :: fs) e = f.unite e :: fs :=
  if_pos (sameSlot_iff.mpr h)

theorem absorb_cons_neg {f e : Edge} {fs : List Edge} (h : f.slot ≠ e.slot) :
    absorb (f :: fs) e = f :: absorb fs e :=
  if_neg fun hs => h (sameSlot_iff.mp hs)

/-- What holds of some edges and of the union of two that it holds of still holds
after one more edge is absorbed. -/
theorem forall_absorb {P : Edge → Prop}
    (hunite : ∀ f e, P f → P e → f.slot = e.slot → P (f.unite e))
    {acc : List Edge} {e : Edge} (hacc : ∀ f ∈ acc, P f) (he : P e) :
    ∀ f ∈ absorb acc e, P f := by
  induction acc with
  | nil =>
    intro f hf
    rw [List.mem_singleton.mp hf]
    exact he
  | cons g gs ih =>
    obtain ⟨hg, hgs⟩ := List.forall_mem_cons.mp hacc
    by_cases hslot : g.slot = e.slot
    · rw [absorb_cons_pos hslot]
      exact List.forall_mem_cons.mpr ⟨hunite g e hg he hslot, hgs⟩
    · rw [absorb_cons_neg hslot]
      exact List.forall_mem_cons.mpr ⟨hg, ih hgs⟩

/-- **Folding keeps every property of edges that the union of two keeps.** -/
theorem forall_fold {P : Edge → Prop}
    (hunite : ∀ f e, P f → P e → f.slot = e.slot → P (f.unite e))
    {es : List Edge} (hes : ∀ e ∈ es, P e) : ∀ f ∈ fold es, P f := by
  suffices key : ∀ acc : List Edge, (∀ f ∈ acc, P f) → ∀ f ∈ es.foldl absorb acc, P f from
    key [] (List.forall_mem_nil _)
  -- for every accumulator, as the induction changes it
  induction es with
  | nil => exact fun acc hacc => hacc
  | cons e es ih =>
    obtain ⟨he, hes⟩ := List.forall_mem_cons.mp hes
    exact fun acc hacc => ih hes _ (forall_absorb hunite hacc he)

/-- Folding makes up no source. -/
theorem exists_mem_of_fold {es : List Edge} {f : Edge} (hf : f ∈ fold es) {x : Source}
    (hx : x ∈ f.sources) : ∃ e ∈ es, e.slot = f.slot ∧ x ∈ e.sources := by
  refine forall_fold (P := fun f => ∀ x ∈ f.sources, ∃ e ∈ es, e.slot = f.slot ∧ x ∈ e.sources)
    ?_ (fun e he x hx => ⟨e, he, rfl, hx⟩) f hf x hx
  intro g e hg he hslot x hx
  rcases mem_sources_unite.mp hx with hx | hx
  · exact hg x hx
  · obtain ⟨e', he', hs, hx'⟩ := he x hx
    exact ⟨e', he', hs.trans hslot.symm, hx'⟩

/-- The slot of an edge is taken, with at least its sources. -/
def Covered (acc : List Edge) (e : Edge) : Prop :=
  ∃ f ∈ acc, f.slot = e.slot ∧ e.sources ⊆ f.sources

theorem covered_of_mem {acc : List Edge} {e : Edge} (h : e ∈ acc) : Covered acc e :=
  ⟨e, h, rfl, List.Subset.refl _⟩

/-- What is covered by edges that are covered is covered. -/
theorem Covered.trans {acc ds : List Edge} {e : Edge} (h : Covered ds e)
    (hds : ∀ d ∈ ds, Covered acc d) : Covered acc e := by
  obtain ⟨d, hd, hslot, hsub⟩ := h
  obtain ⟨f, hf, hslot', hsub'⟩ := hds d hd
  exact ⟨f, hf, hslot'.trans hslot, List.Subset.trans hsub hsub'⟩

theorem covered_absorb_self (acc : List Edge) (e : Edge) : Covered (absorb acc e) e := by
  induction acc with
  | nil => exact covered_of_mem (List.mem_singleton.mpr rfl)
  | cons g gs ih =>
    by_cases hslot : g.slot = e.slot
    · rw [absorb_cons_pos hslot]
      exact ⟨g.unite e, List.mem_cons_self, hslot, fun x hx => mem_sources_unite.mpr (Or.inr hx)⟩
    · rw [absorb_cons_neg hslot]
      obtain ⟨f, hf, hs, hsub⟩ := ih
      exact ⟨f, List.mem_cons_of_mem _ hf, hs, hsub⟩

theorem Covered.absorb {acc : List Edge} {d : Edge} (h : Covered acc d) (e : Edge) :
    Covered (absorb acc e) d := by
  induction acc with
  | nil => exact absurd h.choose_spec.1 List.not_mem_nil
  | cons g gs ih =>
    obtain ⟨f, hf, hs, hsub⟩ := h
    by_cases hslot : g.slot = e.slot
    · rw [absorb_cons_pos hslot]
      rcases List.mem_cons.mp hf with rfl | hf
      · exact ⟨f.unite e, List.mem_cons_self, hs,
          fun x hx => mem_sources_unite.mpr (Or.inl (hsub hx))⟩
      · exact ⟨f, List.mem_cons_of_mem _ hf, hs, hsub⟩
    · rw [absorb_cons_neg hslot]
      rcases List.mem_cons.mp hf with rfl | hf
      · exact ⟨f, List.mem_cons_self, hs, hsub⟩
      · obtain ⟨f', hf', hs', hsub'⟩ := ih ⟨f, hf, hs, hsub⟩
        exact ⟨f', List.mem_cons_of_mem _ hf', hs', hsub'⟩

/-- **Folding loses no source.** -/
theorem covered_fold {es : List Edge} {e : Edge} (he : e ∈ es) : Covered (fold es) e := by
  suffices key : ∀ acc : List Edge, Covered acc e ∨ e ∈ es → Covered (es.foldl absorb acc) e from
    key [] (Or.inr he)
  -- an edge is in the list until it is absorbed, and covered from then on
  clear he
  induction es with
  | nil => exact fun acc h => h.elim id fun h => absurd h List.not_mem_nil
  | cons d es ih =>
    intro acc h
    refine ih _ ?_
    rcases h with h | h
    · exact Or.inl (h.absorb d)
    · rcases List.mem_cons.mp h with rfl | h
      · exact Or.inl (covered_absorb_self acc e)
      · exact Or.inr h

/-- An edge that is absorbed takes its slot unless that is taken. -/
theorem map_slot_absorb (acc : List Edge) (e : Edge) :
    (absorb acc e).map slot =
      if e.slot ∈ acc.map slot then acc.map slot else acc.map slot ++ [e.slot] := by
  induction acc with
  | nil => rfl
  | cons g gs ih =>
    by_cases hslot : g.slot = e.slot
    · rw [absorb_cons_pos hslot, List.map_cons, List.map_cons, slot_unite,
        if_pos (List.mem_cons.mpr (Or.inl hslot.symm))]
    · have hmem : e.slot ∈ (g :: gs).map slot ↔ e.slot ∈ gs.map slot := by
        rw [List.map_cons, List.mem_cons]
        exact or_iff_right fun h => hslot h.symm
      rw [absorb_cons_neg hslot, List.map_cons, ih]
      by_cases htaken : e.slot ∈ gs.map slot
      · rw [if_pos htaken, if_pos (hmem.mpr htaken), List.map_cons]
      · rw [if_neg htaken, if_neg (htaken ∘ hmem.mp), List.map_cons, List.cons_append]

/-- **Folded edges have different slots.** -/
theorem nodup_slots_fold (es : List Edge) : ((fold es).map slot).Nodup := by
  suffices key : ∀ acc : List Edge, (acc.map slot).Nodup → ((es.foldl absorb acc).map slot).Nodup
    from key [] List.nodup_nil
  induction es with
  | nil => exact fun acc hacc => hacc
  | cons e es ih =>
    intro acc hacc
    apply ih
    rw [map_slot_absorb]
    split
    · exact hacc
    · rename_i hfree
      refine List.nodup_append.mpr ⟨hacc, List.pairwise_singleton _ _, ?_⟩
      rintro slot hslot _ hlast rfl
      exact hfree (List.mem_singleton.mp hlast ▸ hslot)

/-! ## Repeated edges -/

theorem sources_subset_of_unite_eq {f e : Edge} (h : f.unite e = f) : e.sources ⊆ f.sources :=
  fun _ hx => h ▸ mem_sources_unite.mpr (Or.inr hx)

theorem absorb_absorb_self {acc : List Edge} {e : Edge} (he : e.Canonical) :
    absorb (absorb acc e) e = absorb acc e := by
  induction acc with
  | nil =>
    show absorb [e] e = [e]
    rw [absorb_cons_pos rfl, unite_eq_self he (List.Subset.refl _)]
  | cons g gs ih =>
    by_cases hslot : g.slot = e.slot
    · rw [absorb_cons_pos hslot, absorb_cons_pos ((slot_unite g e).trans hslot),
        unite_eq_self (canonical_unite g e) fun x hx => mem_sources_unite.mpr (Or.inr hx)]
    · rw [absorb_cons_neg hslot, absorb_cons_neg hslot, ih]

/-- What leaves no trace leaves none later either. -/
theorem absorb_eq_absorb {acc : List Edge} {d : Edge} (h : absorb acc d = acc) (e : Edge) :
    absorb (absorb acc e) d = absorb acc e := by
  induction acc with
  | nil => exact absurd h (List.cons_ne_nil d [])
  | cons g gs ih =>
    by_cases hd : g.slot = d.slot
    · rw [absorb_cons_pos hd] at h
      have hsub := sources_subset_of_unite_eq (List.cons.inj h).1
      by_cases he : g.slot = e.slot
      · rw [absorb_cons_pos he, absorb_cons_pos ((slot_unite g e).trans hd),
          unite_eq_self (canonical_unite g e) fun x hx => mem_sources_unite.mpr (Or.inl (hsub hx))]
      · rw [absorb_cons_neg he, absorb_cons_pos hd, (List.cons.inj h).1]
    · rw [absorb_cons_neg hd] at h
      by_cases he : g.slot = e.slot
      · rw [absorb_cons_pos he, absorb_cons_neg (f := g.unite e) hd, (List.cons.inj h).2]
      · rw [absorb_cons_neg he, absorb_cons_neg hd, ih (List.cons.inj h).2]

theorem absorb_fold_of_mem {es : List Edge} (hes : ∀ e ∈ es, e.Canonical) {d : Edge}
    (hd : d ∈ es) : absorb (fold es) d = fold es := by
  suffices key : ∀ acc : List Edge, absorb acc d = acc ∨ d ∈ es →
      absorb (es.foldl absorb acc) d = es.foldl absorb acc from key [] (Or.inr hd)
  -- as for `covered_fold`, but of leaving no trace
  clear hd
  induction es with
  | nil => exact fun acc h => h.elim id fun h => absurd h List.not_mem_nil
  | cons e es ih =>
    obtain ⟨he, hes⟩ := List.forall_mem_cons.mp hes
    intro acc h
    refine ih hes _ ?_
    rcases h with h | h
    · exact Or.inl (absorb_eq_absorb h e)
    · rcases List.mem_cons.mp h with rfl | h
      · exact Or.inl (absorb_absorb_self he)
      · exact Or.inr h

/-- **Repeated edges leave no trace.** -/
theorem fold_append_of_subset {es ds : List Edge} (hes : ∀ e ∈ es, e.Canonical)
    (hds : ds ⊆ es) : fold (es ++ ds) = fold es := by
  rw [fold, List.foldl_append]
  show ds.foldl absorb (fold es) = fold es
  induction ds with
  | nil => rfl
  | cons d ds ih =>
    obtain ⟨hd, hds⟩ := List.cons_subset.mp hds
    rw [List.foldl_cons, absorb_fold_of_mem hes hd, ih hds]

end Edge

end TokenFlow
