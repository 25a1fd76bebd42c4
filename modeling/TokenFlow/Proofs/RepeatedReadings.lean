import TokenFlow.Proofs.DisjointParts
import TokenFlow.Proofs.EdgeSlots
import TokenFlow.Proofs.ScopeIsolation

/-!
# Readings that define once

A loop reads its body several times, each time from other live definitions.  What is followed
here is therefore not one reading of a part but all its readings together, as a family of lists
of edges.  A family *defines once* (`Setup.DefinesOnce`) if, whatever is live, the edges define
names of the part, none of them twice in one reading, and each of them in one way only.

Parts that lie apart hold different names, so families of such parts can be put one after the
other (`Setup.DefinesOnce.append`).  Several readings of one part do define the same names
again, but in the same way, and so folding makes one definition of them
(`Setup.DefinesAlike.fold`).
-/
namespace TokenFlow

open Place

/-! ## Places of a tree that lie apart -/

/-- The places are places of the tree and lie apart. -/
structure Place.Scattered (root : Place) (ps : List Place) : Prop where
  within : ∀ p ∈ ps, p.Within root
  apart : ps.Pairwise Apart

namespace Place.Scattered

variable {root p : Place} {ps qs : List Place}

theorem left (h : root.Scattered (ps ++ qs)) : root.Scattered ps :=
  ⟨fun p hp => h.within p (List.mem_append_left _ hp), (List.pairwise_append.mp h.apart).1⟩

theorem right (h : root.Scattered (ps ++ qs)) : root.Scattered qs :=
  ⟨fun p hp => h.within p (List.mem_append_right _ hp), (List.pairwise_append.mp h.apart).2.1⟩

theorem tail (h : root.Scattered (p :: ps)) : root.Scattered ps :=
  ⟨fun q hq => h.within q (List.mem_cons_of_mem _ hq), (List.pairwise_cons.mp h.apart).2⟩

theorem perm (h : root.Scattered ps) (hperm : ps.Perm qs) : root.Scattered qs :=
  ⟨fun p hp => h.within p (hperm.mem_iff.mpr hp), (hperm.pairwise_iff Apart.symm).mp h.apart⟩

end Place.Scattered

/-! ## Names under places -/

namespace Setup

variable (s : Setup)

/-- No two names of the tree are the same token. -/
def NamesApart (root : Place) : Prop :=
  ∀ p q : Place, p.Within root → q.Within root → s.language.isToken p.node = true →
    s.language.isToken q.node = true → s.language.isIdentifier p.kind = true →
    s.language.isIdentifier q.kind = true → ∀ t u, s.tokens.find? p.node.span = some t →
      s.tokens.find? q.node.span = some u → t.index = u.index → p = q

/-- The number is that of a name at or below one of the places. -/
def NamedUnder (ps : List Place) (i : Nat) : Prop :=
  s.NamesAt (fun p => ∃ q ∈ ps, p.Within q) i

/-- The numbers are those of different names at or below the places. -/
structure DifferentNames (ps : List Place) (numbers : List Nat) : Prop where
  named : ∀ i ∈ numbers, s.NamedUnder ps i
  nodup : numbers.Nodup

/-- The edges of some readings define names under the places, and a name that several readings
define they define in the same way. -/
structure DefinesAlike (ps : List Place) {ι : Type} (edges : ι → List Edge) : Prop where
  named : ∀ x, ∀ e ∈ edges x, s.NamedUnder ps e.index
  slots : ∀ x y, ∀ e ∈ edges x, ∀ f ∈ edges y, e.index = f.index → e.slot = f.slot

/-- Moreover, no reading defines a name twice. -/
structure DefinesOnce (ps : List Place) {ι : Type} (edges : ι → List Edge) : Prop
    extends s.DefinesAlike ps edges where
  nodup : ∀ x, ((edges x).map (·.index)).Nodup

variable {s} {root p : Place} {ps qs : List Place}

theorem NamedUnder.mono {i : Nat} (h : s.NamedUnder ps i)
    (hps : ∀ p ∈ ps, ∃ q ∈ qs, p.Within q) : s.NamedUnder qs i := by
  obtain ⟨r, t, ⟨p, hp, hr⟩, hname⟩ := h
  obtain ⟨q, hq, hpq⟩ := hps p hp
  exact ⟨r, t, ⟨q, hq, hr.trans hpq⟩, hname⟩

theorem NamedUnder.left {i : Nat} (h : s.NamedUnder ps i) : s.NamedUnder (ps ++ qs) i :=
  h.mono fun p hp => ⟨p, List.mem_append_left _ hp, Or.inl rfl⟩

theorem NamedUnder.right {i : Nat} (h : s.NamedUnder qs i) : s.NamedUnder (ps ++ qs) i :=
  h.mono fun p hp => ⟨p, List.mem_append_right _ hp, Or.inl rfl⟩

/-- **Under places that lie apart stand different names.** -/
theorem NamesApart.not_namedUnder (hnames : s.NamesApart root)
    (h : root.Scattered (ps ++ qs)) {i : Nat} (hps : s.NamedUnder ps i) :
    ¬ s.NamedUnder qs i := by
  rintro ⟨r', u, ⟨q, hq, hr'⟩, htoken', hkind', hu, hi'⟩
  obtain ⟨r, t, ⟨p, hp, hr⟩, htoken, hkind, ht, hi⟩ := hps
  have hpq : p.Apart q := (List.pairwise_append.mp h.apart).2.2 p hp q hq
  have hroot : r.Within root := hr.trans (h.left.within p hp)
  have hroot' : r'.Within root := hr'.trans (h.right.within q hq)
  have heq : r = r' := hnames r r' hroot hroot' htoken htoken' hkind hkind' t u ht hu
    (hi.trans hi'.symm)
  exact hpq r hr (heq ▸ hr')

namespace DifferentNames

theorem nil (s : Setup) (ps : List Place) : s.DifferentNames ps [] :=
  ⟨List.forall_mem_nil _, List.nodup_nil⟩

theorem mono {numbers : List Nat} (h : s.DifferentNames ps numbers)
    (hps : ∀ p ∈ ps, ∃ q ∈ qs, p.Within q) : s.DifferentNames qs numbers :=
  ⟨fun i hi => (h.named i hi).mono hps, h.nodup⟩

theorem append (hnames : s.NamesApart root) (h : root.Scattered (ps ++ qs))
    {numbers others : List Nat} (hps : s.DifferentNames ps numbers)
    (hqs : s.DifferentNames qs others) : s.DifferentNames (ps ++ qs) (numbers ++ others) := by
  constructor
  · intro i hi
    rcases List.mem_append.mp hi with hi | hi
    · exact (hps.named i hi).left
    · exact (hqs.named i hi).right
  · refine List.nodup_append'.mpr ⟨hps.nodup, hqs.nodup, fun i hi hi' => ?_⟩
    exact hnames.not_namedUnder h (hps.named i hi) (hqs.named i hi')

end DifferentNames

/-! ## Readings that define once -/

variable {ι κ : Type} {F G : ι → List Edge}

namespace DefinesAlike

/-- Edges that are found in some other reading. -/
theorem of_mem (h : s.DefinesAlike ps F) {G : κ → List Edge}
    (hG : ∀ y, ∀ e ∈ G y, ∃ x, e ∈ F x) : s.DefinesAlike ps G := by
  constructor
  · intro y e he
    obtain ⟨x, hx⟩ := hG y e he
    exact h.named x e hx
  · intro y z e he f hf
    obtain ⟨x, hx⟩ := hG y e he
    obtain ⟨x', hx'⟩ := hG z f hf
    exact h.slots x x' e hx f hx'

/-- **Folding makes one definition of several of a kind.** -/
theorem fold (h : s.DefinesAlike ps F) : s.DefinesOnce ps fun x => Edge.fold (F x) := by
  -- a folded edge has the slot of an edge that was there, and no other folded edge has it
  have hslot : ∀ x, ∀ f ∈ Edge.fold (F x), ∃ e ∈ F x, e.slot = f.slot := by
    intro x
    refine Edge.forall_fold (fun f e hf _ _ => ?_) fun e he => ⟨e, he, rfl⟩
    obtain ⟨e', he', hslot⟩ := hf
    exact ⟨e', he', hslot⟩
  have hindex : ∀ {e f : Edge}, e.slot = f.slot → e.index = f.index := fun h => congrArg (·.2.1) h
  have hslots : ∀ x y, ∀ e ∈ Edge.fold (F x), ∀ f ∈ Edge.fold (F y),
      e.index = f.index → e.slot = f.slot := by
    intro x y e he f hf heq
    obtain ⟨e', he', hee⟩ := hslot x e he
    obtain ⟨f', hf', hff⟩ := hslot y f hf
    rw [← hee, ← hff]
    exact h.slots x y e' he' f' hf' ((hindex hee).trans (heq.trans (hindex hff).symm))
  refine ⟨⟨fun x e he => ?_, hslots⟩, fun x => ?_⟩
  · obtain ⟨e', he', hee⟩ := hslot x e he
    exact hindex hee ▸ h.named x e' he'
  · have hnodup := List.pairwise_map.mp (Edge.nodup_slots_fold (F x))
    refine List.pairwise_map.mpr (hnodup.imp_of_mem fun {e f} he hf hne heq => ?_)
    exact hne (hslots x x e he f hf heq)

end DefinesAlike

namespace DefinesOnce

theorem of_eq (h : s.DefinesOnce ps F) (heq : ∀ x, G x = F x) : s.DefinesOnce ps G :=
  (funext heq : G = F) ▸ h

theorem nil (s : Setup) (ps : List Place) : s.DefinesOnce ps fun _ : ι => [] where
  named _ := List.forall_mem_nil _
  slots _ _ := List.forall_mem_nil _
  nodup _ := List.nodup_nil

theorem mono (h : s.DefinesOnce ps F) (hps : ∀ p ∈ ps, ∃ q ∈ qs, p.Within q) :
    s.DefinesOnce qs F :=
  ⟨⟨fun x e he => (h.named x e he).mono hps, h.slots⟩, h.nodup⟩

theorem under (h : s.DefinesOnce ps F) (hps : ∀ q ∈ ps, q.Within p) : s.DefinesOnce [p] F :=
  h.mono fun q hq => ⟨p, List.mem_singleton.mpr rfl, hps q hq⟩

theorem append_nil (h : s.DefinesOnce ps F) : s.DefinesOnce ps fun x => F x ++ [] :=
  h.of_eq fun _ => List.append_nil _

/-- Some of the readings. -/
theorem comp (h : s.DefinesOnce ps F) (g : κ → ι) : s.DefinesOnce ps fun y => F (g y) :=
  ⟨⟨fun y => h.named (g y), fun y z => h.slots (g y) (g z)⟩, fun y => h.nodup (g y)⟩

/-- **Readings of parts that lie apart can be put one after the other.** -/
theorem append (hnames : s.NamesApart root) (h : root.Scattered (ps ++ qs))
    (hF : s.DefinesOnce ps F) (hG : s.DefinesOnce qs G) :
    s.DefinesOnce (ps ++ qs) fun x => F x ++ G x := by
  have hnever : ∀ {x y : ι} {e f : Edge}, e ∈ F x → f ∈ G y → e.index ≠ f.index := by
    intro x y e f he hf heq
    exact hnames.not_namedUnder h (hF.named x e he) (heq ▸ hG.named y f hf)
  refine ⟨⟨fun x e he => ?_, fun x y e he f hf heq => ?_⟩, fun x => ?_⟩
  · rcases List.mem_append.mp he with he | he
    · exact (hF.named x e he).left
    · exact (hG.named x e he).right
  · rcases List.mem_append.mp he with he | he <;> rcases List.mem_append.mp hf with hf | hf
    · exact hF.slots x y e he f hf heq
    · exact absurd heq (hnever he hf)
    · exact absurd heq.symm (hnever hf he)
    · exact hG.slots x y e he f hf heq
  · rw [List.map_append]
    refine List.nodup_append.mpr ⟨hF.nodup x, hG.nodup x, fun i hi j hj hij => ?_⟩
    obtain ⟨e, he, rfl⟩ := List.mem_map.mp hi
    obtain ⟨f, hf, rfl⟩ := List.mem_map.mp hj
    exact hnever he hf hij

/-- Readings whose edges fill the same slots, perhaps not all of them. -/
theorem of_slots (slots : List (String × Nat × Relation))
    (hslots : ∀ x, ((F x).map Edge.slot).Sublist slots)
    (h : s.DifferentNames ps (slots.map (·.2.1))) : s.DefinesOnce ps F := by
  have hmem : ∀ {x e}, e ∈ F x → e.slot ∈ slots := fun {x _} he =>
    (hslots x).subset (List.mem_map_of_mem he)
  refine ⟨⟨fun x e he => ?_, fun x y e he f hf heq => ?_⟩, fun x => ?_⟩
  · exact h.named e.index (List.mem_map_of_mem (f := fun slot => slot.2.1) (hmem he))
  · exact List.inj_on_of_nodup_map h.nodup (hmem he) (hmem hf) heq
  · have hsub := (hslots x).map fun slot => slot.2.1
    rw [List.map_map] at hsub
    exact hsub.nodup h.nodup

/-- Readings that define some tokens, or some of them, all in the same way. -/
theorem of_tokens (tokens : List Token) (relation : Relation)
    (h : s.DifferentNames ps (tokens.map (·.index)))
    (htokens : ∀ x, ((F x).map Edge.slot).Sublist
      (tokens.map fun t => (t.text, t.index, relation))) : s.DefinesOnce ps F := by
  refine .of_slots _ htokens ?_
  rw [List.map_map]
  exact h

end DefinesOnce

end Setup

end TokenFlow
