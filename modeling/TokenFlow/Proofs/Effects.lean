import Mathlib.Data.List.Basic
import TokenFlow.Analysis.Walk
import TokenFlow.Proofs.Alternatives
import TokenFlow.Proofs.WalkSpecs

/-!
# Every name is treated by itself

What a walk does to the definitions of a name does not depend on the other names, and
it has one form.  An `Effect` adds some definitions and keeps or drops those that came
in; a name that came in unbound ends up with some fixed definitions or stays unbound.

Effects run one after the other (`Effect.andThen`) and meet (`Effect.join`), and both are
effects again.  So is everything a walk can do (`Setup.effective_walkers`); the one
thing to watch is that a first sighting binds only what is unbound, and the three laws
of an `Effect` are what keeps the form closed in spite of it.  They also make an effect
**idempotent** (`Effect.apply_apply`): to read a construct again from what it leaves
changes nothing.
-/
namespace TokenFlow

open LiveDefs (unionOf)

/-- What is done to the definitions of one name. -/
structure Effect where
  /-- The definitions added to those of a bound name. -/
  gen : List Nat
  /-- Whether the definitions of a bound name stay. -/
  keep : Bool
  /-- What an unbound name is bound to. -/
  fresh : Option (List Nat)
  /-- What leaves an unbound name unbound does nothing to a bound one. -/
  idle : fresh = none → gen = [] ∧ keep = true
  ascending : ∀ defs, fresh = some defs → defs.Pairwise (· < ·)
  /-- A bound name is given nothing that an unbound one is not. -/
  gen_subset : ∀ defs, fresh = some defs → gen ⊆ defs
  /-- What drops the definitions of a bound name binds an unbound one alike. -/
  subset_gen : ∀ defs, fresh = some defs → keep = false → defs ⊆ gen

namespace Effect

/-- What a name is bound to afterwards. -/
def apply (e : Effect) : Option (List Nat) → Option (List Nat)
  | none => e.fresh
  | some defs => some (Ascending.ofList (e.gen ++ if e.keep then defs else []))

theorem mem_kept {e : Effect} {defs : List Nat} {d : Nat} :
    d ∈ Ascending.ofList (e.gen ++ if e.keep then defs else []) ↔
      d ∈ e.gen ∨ (e.keep = true ∧ d ∈ defs) := by
  rw [Ascending.mem_ofList, List.mem_append]
  cases e.keep <;> simp

theorem apply_some {e : Effect} {defs found : List Nat} (hfound : found.Pairwise (· < ·))
    (h : ∀ d, d ∈ found ↔ d ∈ e.gen ∨ (e.keep = true ∧ d ∈ defs)) :
    e.apply (some defs) = some found :=
  congrArg some (Ascending.eq_of_mem_iff (Ascending.pairwise_ofList _) hfound fun d =>
    mem_kept.trans (h d).symm)

theorem pairwise_apply {e : Effect} {own : Option (List Nat)} {defs : List Nat}
    (h : e.apply own = some defs) : defs.Pairwise (· < ·) := by
  cases own with
  | none => exact e.ascending defs h
  | some own =>
    cases h
    exact Ascending.pairwise_ofList _

/-- A bound name stays bound. -/
theorem apply_ne_none (e : Effect) {own : Option (List Nat)} (h : own ≠ none) :
    e.apply own ≠ none := by
  cases own with
  | none => exact absurd rfl h
  | some own => exact fun h => nomatch h

/-- **An effect is idempotent.** -/
theorem apply_apply (e : Effect) (own : Option (List Nat)) :
    e.apply (e.apply own) = e.apply own := by
  cases own with
  | none =>
    show e.apply e.fresh = e.fresh
    cases hf : e.fresh with
    | none => exact hf
    | some defs =>
      refine apply_some (e.ascending defs hf) fun d => ⟨fun hd => ?_, fun hd => ?_⟩
      · cases hk : e.keep with
        | true => exact Or.inr ⟨rfl, hd⟩
        | false => exact Or.inl (e.subset_gen defs hf hk hd)
      · exact hd.elim (e.gen_subset defs hf ·) (·.2)
  | some defs =>
    refine apply_some (Ascending.pairwise_ofList _) fun d => ?_
    rw [mem_kept]
    tauto

/-- Nothing is done. -/
def skip : Effect where
  gen := []
  keep := true
  fresh := none
  idle _ := ⟨rfl, rfl⟩
  ascending _ h := nomatch h
  gen_subset _ h := nomatch h
  subset_gen _ h := nomatch h

theorem apply_skip {own : Option (List Nat)}
    (h : ∀ defs, own = some defs → defs.Pairwise (· < ·)) : skip.apply own = own := by
  cases own with
  | none => rfl
  | some defs => exact apply_some (h defs rfl) fun d => by simp [skip]

/-- The name is bound to one definition. -/
def define (index : Nat) : Effect where
  gen := [index]
  keep := false
  fresh := some [index]
  idle h := nomatch h
  ascending _ h := by cases h; exact List.pairwise_singleton _ _
  gen_subset _ h := by cases h; exact List.Subset.refl _
  subset_gen _ h _ := by cases h; exact List.Subset.refl _

@[simp] theorem apply_define (index : Nat) (own : Option (List Nat)) :
    (define index).apply own = some [index] := by
  cases own <;> rfl

/-- The name is bound unless it is bound already. -/
def sight (index : Nat) : Effect where
  gen := []
  keep := true
  fresh := some [index]
  idle h := nomatch h
  ascending _ h := by cases h; exact List.pairwise_singleton _ _
  gen_subset _ _ := List.nil_subset _
  subset_gen _ _ h := nomatch h

theorem apply_sight_some (index : Nat) {defs : List Nat} (h : defs.Pairwise (· < ·)) :
    (sight index).apply (some defs) = some defs :=
  apply_some h fun d => by simp [sight]

/-- One effect after another. -/
def andThen (e f : Effect) : Effect where
  gen := f.gen ++ if f.keep then e.gen else []
  keep := e.keep && f.keep
  fresh := f.apply e.fresh
  idle h := by
    cases he : e.fresh with
    | none =>
      rw [he] at h
      obtain ⟨hgen, hkeep⟩ := e.idle he
      obtain ⟨hgen', hkeep'⟩ := f.idle h
      simp [hgen, hkeep, hgen', hkeep']
    | some defs =>
      rw [he] at h
      exact absurd h (f.apply_ne_none (fun h => nomatch h))
  ascending _ h := pairwise_apply h
  gen_subset defs h d hd := by
    cases he : e.fresh with
    | none =>
      rw [he] at h
      rw [(e.idle he).1] at hd
      exact f.gen_subset defs h (by simpa using hd)
    | some own =>
      rw [he] at h
      cases h
      refine mem_kept.mpr ?_
      rcases List.mem_append.mp hd with hd | hd
      · exact Or.inl hd
      · split at hd
        · exact Or.inr ⟨‹_›, e.gen_subset own he hd⟩
        · exact absurd hd List.not_mem_nil
  subset_gen defs h hk d hd := by
    cases he : e.fresh with
    | none =>
      rw [he] at h
      rw [(e.idle he).2, Bool.true_and] at hk
      exact List.mem_append_left _ (f.subset_gen defs h hk hd)
    | some own =>
      rw [he] at h
      cases h
      rcases mem_kept.mp hd with hd | ⟨hf, hd⟩
      · exact List.mem_append_left _ hd
      · rw [hf, Bool.and_true] at hk
        rw [if_pos hf]
        exact List.mem_append_right _ (e.subset_gen own he hk hd)

theorem apply_andThen (e f : Effect) (own : Option (List Nat)) :
    (e.andThen f).apply own = f.apply (e.apply own) := by
  cases own with
  | none => rfl
  | some defs =>
    refine apply_some (Ascending.pairwise_ofList _) fun d => ?_
    rw [mem_kept, mem_kept]
    show _ ↔ d ∈ (f.gen ++ if f.keep then e.gen else []) ∨ ((e.keep && f.keep) = true ∧ _)
    rw [List.mem_append, Bool.and_eq_true]
    cases f.keep <;> simp only [Bool.false_eq_true, if_true, if_false, List.not_mem_nil] <;> tauto

/-- Several effects that meet. -/
def join (es : List Effect) (hne : es ≠ []) : Effect where
  gen := es.flatMap (·.gen)
  keep := es.any (·.keep)
  fresh := unionOf (es.map (·.fresh))
  idle h := by
    have hnone : ∀ e ∈ es, e.fresh = none := fun e he =>
      LiveDefs.unionOf_eq_none_iff.mp h _ (List.mem_map_of_mem he)
    refine ⟨List.flatMap_eq_nil_iff.mpr fun e he => (e.idle (hnone e he)).1, ?_⟩
    obtain ⟨e, he⟩ := List.exists_mem_of_ne_nil es hne
    exact List.any_eq_true.mpr ⟨e, he, (e.idle (hnone e he)).2⟩
  ascending _ h := LiveDefs.pairwise_of_unionOf h
  gen_subset defs h d hd := by
    obtain ⟨e, he, hde⟩ := List.mem_flatMap.mp hd
    cases hf : e.fresh with
    | none => exact absurd hde ((e.idle hf).1 ▸ List.not_mem_nil)
    | some found =>
      exact (LiveDefs.mem_of_unionOf h).mpr
        ⟨found, List.mem_map.mpr ⟨e, he, hf⟩, e.gen_subset found hf hde⟩
  subset_gen defs h hk d hd := by
    obtain ⟨found, hfound, hdf⟩ := (LiveDefs.mem_of_unionOf h).mp hd
    obtain ⟨e, he, hf⟩ := List.mem_map.mp hfound
    have hke : e.keep = false := Bool.eq_false_iff.mpr (List.any_eq_false.mp hk e he)
    exact List.mem_flatMap.mpr ⟨e, he, e.subset_gen found hf hke hdf⟩

theorem apply_join (es : List Effect) (hne : es ≠ []) (own : Option (List Nat)) :
    (join es hne).apply own = unionOf (es.map (·.apply own)) := by
  cases own with
  | none => rfl
  | some defs =>
    cases h : unionOf (es.map (·.apply (some defs))) with
    | none =>
      obtain ⟨e, he⟩ := List.exists_mem_of_ne_nil es hne
      exact nomatch LiveDefs.unionOf_eq_none_iff.mp h _ (List.mem_map_of_mem he)
    | some found =>
      refine apply_some (LiveDefs.pairwise_of_unionOf h) fun d => ?_
      rw [LiveDefs.mem_of_unionOf h]
      constructor
      · rintro ⟨one, hone, hd⟩
        obtain ⟨e, he, heq⟩ := List.mem_map.mp hone
        cases heq
        rcases mem_kept.mp hd with hd | ⟨hk, hd⟩
        · exact Or.inl (List.mem_flatMap.mpr ⟨e, he, hd⟩)
        · exact Or.inr ⟨List.any_eq_true.mpr ⟨e, he, hk⟩, hd⟩
      · rintro (hd | ⟨hk, hd⟩)
        · obtain ⟨e, he, hd⟩ := List.mem_flatMap.mp hd
          exact ⟨_, List.mem_map_of_mem he, mem_kept.mpr (Or.inl hd)⟩
        · obtain ⟨e, he, hk⟩ := List.any_eq_true.mp hk
          exact ⟨_, List.mem_map_of_mem he, mem_kept.mpr (Or.inr ⟨hk, hd⟩)⟩

end Effect

/-! ## Transfers of live definitions -/

/-- On every name the function has an effect, whatever the live definitions are. -/
def Transfers (f : LiveDefs → LiveDefs) : Prop :=
  ∀ name, ∃ e : Effect, ∀ live : LiveDefs, live.Ascending →
    (f live).get? name = e.apply (live.get? name)

namespace Transfers

variable {f g : LiveDefs → LiveDefs} {live : LiveDefs}

theorem ascending (hf : Transfers f) (h : live.Ascending) : (f live).Ascending := by
  intro name defs hdefs
  obtain ⟨e, he⟩ := hf name
  rw [he live h] at hdefs
  exact Effect.pairwise_apply hdefs

/-- A bound name stays bound. -/
theorem get?_ne_none (hf : Transfers f) (h : live.Ascending) {name : String}
    (hbound : live.get? name ≠ none) : (f live).get? name ≠ none := by
  obtain ⟨e, he⟩ := hf name
  rw [he live h]
  exact e.apply_ne_none hbound

/-- **To do the same again changes nothing.** -/
theorem apply_apply (hf : Transfers f) (h : live.Ascending) : f (f live) = f live := by
  refine LiveDefs.ext_get? fun name => ?_
  obtain ⟨e, he⟩ := hf name
  rw [he _ (hf.ascending h), he live h, e.apply_apply]

protected theorem id : Transfers id :=
  fun name => ⟨.skip, fun _ h => (Effect.apply_skip fun defs => h name defs).symm⟩

theorem comp (hg : Transfers g) (hf : Transfers f) : Transfers (g ∘ f) := by
  intro name
  obtain ⟨e, he⟩ := hf name
  obtain ⟨e', he'⟩ := hg name
  refine ⟨e.andThen e', fun live h => ?_⟩
  rw [Effect.apply_andThen, ← he live h]
  exact he' _ (hf.ascending h)

theorem iterate (hf : Transfers f) (n : Nat) : Transfers f^[n] := by
  induction n with
  | zero => exact Transfers.id
  | succ n ih => exact ih.comp hf

theorem bind (t : Token) : Transfers (·.bind t.text t.index) := by
  intro name
  by_cases h : t.text = name
  · refine ⟨.define t.index, fun live _ => ?_⟩
    rw [LiveDefs.get?_bind, if_pos h, Effect.apply_define]
  · refine ⟨.skip, fun live hlive => ?_⟩
    rw [LiveDefs.get?_bind, if_neg h, Effect.apply_skip fun defs => hlive name defs]

theorem bindAll (tokens : List Token) : Transfers (·.bindAll tokens) := by
  induction tokens with
  | nil => exact Transfers.id
  | cons t ts ih => exact ih.comp (bind t)

theorem sight (t : Token) : Transfers (·.sight t) := by
  intro name
  by_cases h : t.text = name
  · subst h
    refine ⟨.sight t.index, fun live hlive => ?_⟩
    show (live.sight t).get? t.text = _
    cases hget : live.get? t.text with
    | none =>
      rw [LiveDefs.sight_of_eq_none hget, LiveDefs.get?_bind, if_pos rfl]
      rfl
    | some defs =>
      rw [LiveDefs.sight_of_eq_some hget, hget, Effect.apply_sight_some _ (hlive _ _ hget)]
  · refine ⟨.skip, fun live hlive => ?_⟩
    show (live.sight t).get? name = _
    rw [Effect.apply_skip fun defs => hlive name defs, LiveDefs.get?_sight_of_ne live h]

theorem merge {α : Type} {xs : List α} {f : α → LiveDefs → LiveDefs} (hne : xs ≠ [])
    (hf : ∀ x ∈ xs, Transfers (f x)) : Transfers fun live => .merge (xs.map (f · live)) := by
  intro name
  -- one effect for each alternative, the same whatever comes in
  have heffects : ∃ es : List Effect, es.length = xs.length ∧ ∀ live : LiveDefs, live.Ascending →
      xs.map (fun x => (f x live).get? name) = es.map (·.apply (live.get? name)) := by
    clear hne
    induction xs with
    | nil => exact ⟨[], rfl, fun _ _ => rfl⟩
    | cons x xs ih =>
      obtain ⟨hx, hxs⟩ := List.forall_mem_cons.mp hf
      obtain ⟨e, he⟩ := hx name
      obtain ⟨es, hlen, hes⟩ := ih hxs
      refine ⟨e :: es, congrArg (· + 1) hlen, fun live h => ?_⟩
      rw [List.map_cons, List.map_cons, he live h, hes live h]
  obtain ⟨es, hlen, hes⟩ := heffects
  have hes_ne : es ≠ [] := fun h => hne (List.length_eq_zero_iff.mp (by rw [← hlen, h]; rfl))
  refine ⟨.join es hes_ne, fun live h => ?_⟩
  rw [LiveDefs.get?_merge, Effect.apply_join, ← hes live h, List.map_map]
  rfl

end Transfers

end TokenFlow
