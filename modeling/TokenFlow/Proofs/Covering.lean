import TokenFlow.Proofs.EdgeSlots
import TokenFlow.Proofs.Effects
import TokenFlow.Proofs.PathRuns

/-!
# Walks that cover paths

A walk covers a path if it draws whatever the path draws from firm sources
(`PathEdge.CoveredBy`), and if the live definitions it leaves hold the firm definitions
of the trail (`Trail.Follows`).  `Traced.Covers` says both of a computation and all its
outcomes at once.  The relation is kept by putting computations one after the other, by
choices of the path, and by folding; trails and live definitions stay related through
bindings, sightings, restores and merges.
-/
namespace TokenFlow

/-- The live definitions are ascending, and the firm ones that a path holds are among
them. -/
structure Trail.Follows (t : Trail) (live : LiveDefs) : Prop where
  ascending : live.Ascending
  firm : ∀ name held, t name = some held → held.firm = true →
    held.defs.Pairwise (· < ·) ∧ ∃ defs, live.get? name = some defs ∧ held.defs ⊆ defs

/-- The firm sources are among some others. -/
def FirmWithin (found : List PathSource) (sources : List Source) : Prop :=
  ∀ x ∈ found, x.firm = true → x.source ∈ sources

/-- For each firm source some edge of the slot has it. -/
def PathEdge.CoveredBy (f : PathEdge) (es : List Edge) : Prop :=
  ∀ x ∈ f.sources, x.firm = true → ∃ e ∈ es, e.slot = f.slot ∧ x.source ∈ e.sources

namespace PathEdge.CoveredBy

variable {f : PathEdge} {es : List Edge}

theorem mono (h : f.CoveredBy es) {es' : List Edge} (hsub : es ⊆ es') : f.CoveredBy es' := by
  intro x hx hfirm
  obtain ⟨e, he, hslot, hmem⟩ := h x hx hfirm
  exact ⟨e, hsub he, hslot, hmem⟩

/-- Folding keeps what is covered covered. -/
theorem fold (h : f.CoveredBy es) : f.CoveredBy (Edge.fold es) := by
  intro x hx hfirm
  obtain ⟨e, he, hslot, hmem⟩ := h x hx hfirm
  obtain ⟨e', he', hslot', hsub⟩ := Edge.covered_fold he
  exact ⟨e', he', hslot'.trans hslot, hsub hmem⟩

theorem of_firmWithin {sources : List Source} (h : FirmWithin f.sources sources)
    (hmem : .ofSources f.name f.index f.relation sources ∈ es) : f.CoveredBy es :=
  fun x hx hfirm => ⟨_, hmem, rfl, Edge.mem_sources_ofSources.mpr (h x hx hfirm)⟩

end PathEdge.CoveredBy

/-! ## Covering -/

/-- Every outcome of a path is related to the value of the walk, and the edges of the walk
cover its edges. -/
structure Traced.Covers {α β : Type} (x : Traced α) (paths : Paths β) (related : β → α → Prop) :
    Prop where
  value : ∀ r ∈ paths, related r.value x.value
  edges : ∀ r ∈ paths, ∀ f ∈ r.edges, f.CoveredBy x.edges

namespace Traced.Covers

variable {α β γ δ : Type} {R : β → α → Prop} {S : δ → γ → Prop}

/-- A path that stops at once brings up nothing. -/
theorem pure {x : Traced α} {b : β} (h : R b x.value) : x.Covers (pure b) R where
  value r hr := by
    rw [Paths.mem_pure.mp hr]
    exact h
  edges r hr f hf := by
    rw [Paths.mem_pure.mp hr] at hf
    exact absurd hf List.not_mem_nil

theorem bind_value {x : Traced α} {paths : Paths β} {f : α → Traced γ} {g : β → Paths δ}
    (hx : x.Covers paths R) (hf : ∀ b, R b x.value → (f x.value).Covers (g b) S) :
    (x >>= f).Covers (paths >>= g) S where
  value r hr := by
    obtain ⟨before, hbefore, after, hafter, rfl⟩ := Paths.mem_bind.mp hr
    exact (hf _ (hx.value before hbefore)).value after hafter
  edges r hr e he := by
    obtain ⟨before, hbefore, after, hafter, rfl⟩ := Paths.mem_bind.mp hr
    rcases List.mem_append.mp he with he | he
    · exact (hx.edges before hbefore e he).mono (List.subset_append_left _ _)
    · exact ((hf _ (hx.value before hbefore)).edges after hafter e he).mono
        (List.subset_append_right _ _)

theorem bind {x : Traced α} {paths : Paths β} {f : α → Traced γ} {g : β → Paths δ}
    (hx : x.Covers paths R) (hf : ∀ a b, R b a → (f a).Covers (g b) S) :
    (x >>= f).Covers (paths >>= g) S :=
  hx.bind_value fun b h => hf _ b h

/-- The path brings up some edges and goes on. -/
theorem emit {x : Traced γ} {fs : List PathEdge} {paths : Paths δ}
    (hfs : ∀ f ∈ fs, f.CoveredBy x.edges) (hx : x.Covers paths S) :
    x.Covers (Paths.emit fs >>= fun _ => paths) S where
  value r hr := by
    obtain ⟨after, hafter, rfl⟩ := Paths.mem_emit_bind.mp hr
    exact hx.value after hafter
  edges r hr f hf := by
    obtain ⟨after, hafter, rfl⟩ := Paths.mem_emit_bind.mp hr
    exact (List.mem_append.mp hf).elim (hfs f) (hx.edges after hafter f)

/-- What the walk does before it goes on only adds edges. -/
theorem after {x : Traced α} {f : α → Traced γ} {paths : Paths δ}
    (hf : (f x.value).Covers paths S) : (x >>= f).Covers paths S where
  value := hf.value
  edges r hr e he := (hf.edges r hr e he).mono (List.subset_append_right _ _)

/-- A choice is covered if each of its outcomes is. -/
theorem choose {x : Traced γ} {P : β → Prop} {g : β → Paths δ} (h : ∀ b, P b → x.Covers (g b) S) :
    x.Covers (Paths.choose P >>= g) S where
  value r hr := by
    obtain ⟨b, hb, hr⟩ := Paths.mem_choose_bind.mp hr
    exact (h b hb).value r hr
  edges r hr f hf := by
    obtain ⟨b, hb, hr⟩ := Paths.mem_choose_bind.mp hr
    exact (h b hb).edges r hr f hf

theorem fold {x : Traced α} {paths : Paths β} (hx : x.Covers paths R) :
    (x.mapEdges Edge.fold).Covers paths R :=
  ⟨hx.value, fun r hr f hf => (hx.edges r hr f hf).fold⟩

end Traced.Covers

/-! ## Trails and live definitions -/

theorem eq_nil_or_eq_singleton {defs : List Nat} (hasc : defs.Pairwise (· < ·)) {index : Nat}
    (hsub : defs ⊆ [index]) : defs = [] ∨ defs = [index] := by
  match defs, hasc, hsub with
  | [], _, _ => exact Or.inl rfl
  | [d], _, hsub => exact Or.inr (by rw [List.mem_singleton.mp (hsub List.mem_cons_self)])
  | d :: d' :: _, hasc, hsub =>
    have hd := List.mem_singleton.mp (hsub List.mem_cons_self)
    have hd' := List.mem_singleton.mp (hsub (List.mem_cons_of_mem _ List.mem_cons_self))
    have hlt := (List.pairwise_cons.mp hasc).1 d' List.mem_cons_self
    omega

namespace Trail.Follows

variable {t : Trail} {live : LiveDefs}

theorem empty : Trail.empty.Follows .empty :=
  ⟨LiveDefs.ascending_empty, fun _ _ h => nomatch h⟩

theorem ofLive (h : live.Ascending) : (Trail.ofLive live).Follows live := by
  refine ⟨h, fun name held hheld _ => ?_⟩
  obtain ⟨defs, hdefs, rfl⟩ := Option.map_eq_some_iff.mp hheld
  exact ⟨h name defs hdefs, defs, hdefs, List.Subset.refl _⟩

/-- The firm sources of what is held are live definitions. -/
theorem mem_ofDefs (h : t.Follows live) {name : String} {held : Held} (hheld : t name = some held)
    {x : PathSource} (hx : x ∈ held.sources name) (hfirm : x.firm = true) :
    ∃ defs, live.get? name = some defs ∧ x.source ∈ Source.ofDefs name defs := by
  obtain ⟨y, hy, rfl⟩ := List.mem_map.mp hx
  obtain ⟨d, hd, rfl⟩ := List.mem_map.mp hy
  obtain ⟨-, defs, hdefs, hsub⟩ := h.firm name held hheld hfirm
  exact ⟨defs, hdefs, List.mem_map_of_mem (hsub hd)⟩

/-- Names are put back on both sides to what they were before. -/
theorem restoreAll (h : t.Follows live) {before : Trail} {outer : LiveDefs}
    (hbefore : before.Follows outer) (ks : List Token) :
    (t.restoreAll (ks.map fun k => (k.text, before k.text))).Follows
      (live.restoreAll (ks.map fun k => (k.text, outer.get? k.text))) := by
  constructor
  · intro name defs hdefs
    rw [LiveDefs.get?_restoreAll] at hdefs
    split at hdefs
    · exact hbefore.ascending name defs hdefs
    · exact h.ascending name defs hdefs
  · intro name held hheld hfirm
    rw [Trail.restoreAll_apply] at hheld
    rw [LiveDefs.get?_restoreAll]
    split at hheld
    · rename_i hmem
      rw [if_pos hmem]
      exact hbefore.firm name held hheld hfirm
    · rename_i hmem
      rw [if_neg hmem]
      exact h.firm name held hheld hfirm

theorem bind (h : t.Follows live) (k : Token) : (t.bind k).Follows (live.bind k.text k.index) := by
  refine ⟨(Transfers.bind k).ascending h.ascending, fun name held hheld hfirm => ?_⟩
  rw [LiveDefs.get?_bind]
  unfold Trail.bind Trail.restore at hheld
  split at hheld
  · rename_i heq
    cases hheld
    rw [if_pos heq]
    exact ⟨List.pairwise_singleton _ _, _, rfl, List.Subset.refl _⟩
  · rename_i hne
    rw [if_neg hne]
    exact h.firm name held hheld hfirm

theorem bindAll (h : t.Follows live) (tokens : List Token) :
    (t.bindAll tokens).Follows (live.bindAll tokens) := by
  induction tokens generalizing t live with
  | nil => exact h
  | cons k ks ih => exact ih (h.bind k)

/-- A sighting makes nothing firm, and only adds to what is live. -/
theorem sight (h : t.Follows live) (k : Token) : (t.sight k).Follows (live.sight k) := by
  refine ⟨(Transfers.sight k).ascending h.ascending, fun name held hheld hfirm => ?_⟩
  by_cases heq : k.text = name
  · subst heq
    cases hown : t k.text with
    | none =>
      -- what a sighting binds is not firm
      rw [Trail.sight_of_eq_none hown] at hheld
      cases (if_pos rfl).symm.trans hheld
      exact absurd hfirm Bool.false_ne_true
    | some own =>
      rw [Trail.sight_of_eq_some hown] at hheld
      obtain ⟨hasc, defs, hdefs, hsub⟩ := h.firm k.text held hheld hfirm
      rw [LiveDefs.sight_of_eq_some hdefs]
      exact ⟨hasc, defs, hdefs, hsub⟩
  · rw [Trail.sight_of_ne t heq] at hheld
    rw [LiveDefs.get?_sight_of_ne live heq]
    exact h.firm name held hheld hfirm

theorem sources (h : t.Follows live) (k : Token) : FirmWithin (t.sources k) (live.sources k) := by
  intro x hx hfirm
  unfold Trail.sources at hx
  cases hheld : t k.text with
  | none =>
    rw [hheld] at hx
    rw [List.mem_singleton.mp hx] at hfirm
    exact absurd hfirm Bool.false_ne_true
  | some held =>
    rw [hheld] at hx
    obtain ⟨defs, hdefs, hmem⟩ := h.mem_ofDefs hheld hx hfirm
    rw [LiveDefs.sources, hdefs]
    exact hmem

/-- Where the walk says nothing because the token is its own only definition, the path has
nothing firm to say. -/
theorem reads (h : t.Follows live) (k : Token) : ∀ f ∈ t.reads k, f.CoveredBy (live.reads k) := by
  intro f hf x hx hfirm
  unfold Trail.reads at hf
  cases hheld : t k.text with
  | none =>
    rw [hheld] at hf
    exact absurd hf List.not_mem_nil
  | some held =>
    simp only [hheld] at hf
    split at hf
    · exact absurd hf List.not_mem_nil
    rename_i hown
    cases List.mem_singleton.mp hf
    obtain ⟨defs, hdefs, hmem⟩ := h.mem_ofDefs hheld hx hfirm
    -- otherwise the firm definitions, which are among these, would be that token as well
    have hself : defs ≠ [k.index] := by
      rintro rfl
      obtain ⟨y, hy, rfl⟩ := List.mem_map.mp hx
      obtain ⟨d, hd, rfl⟩ := List.mem_map.mp hy
      obtain ⟨hasc, found, hfound, hsub⟩ := h.firm k.text held hheld hfirm
      cases hdefs.symm.trans hfound
      rcases eq_nil_or_eq_singleton hasc hsub with hnil | hsingle
      · rw [hnil] at hd
        exact absurd hd List.not_mem_nil
      · exact hown hsingle
    rw [LiveDefs.reads, hdefs]
    simp only [if_neg hself]
    exact ⟨_, List.mem_cons_self, rfl, Edge.mem_sources_ofSources.mpr hmem⟩

/-- What follows one alternative follows all of them together. -/
theorem merge {alternatives : List LiveDefs} (hmem : live ∈ alternatives) (h : t.Follows live) :
    t.Follows (.merge alternatives) := by
  refine ⟨LiveDefs.ascending_merge _, fun name held hheld hfirm => ?_⟩
  obtain ⟨hasc, defs, hdefs, hsub⟩ := h.firm name held hheld hfirm
  have hat : some defs ∈ alternatives.map (·.get? name) := List.mem_map.mpr ⟨live, hmem, hdefs⟩
  rw [LiveDefs.get?_merge]
  cases hunion : LiveDefs.unionOf (alternatives.map (·.get? name)) with
  | none => exact absurd (LiveDefs.unionOf_eq_none_iff.mp hunion _ hat) (Option.some_ne_none defs)
  | some found =>
    exact ⟨hasc, found, rfl, fun d hd => (LiveDefs.mem_of_unionOf hunion).mpr ⟨defs, hat, hsub hd⟩⟩

end Trail.Follows

end TokenFlow
