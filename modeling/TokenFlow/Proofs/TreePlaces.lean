import Mathlib.Data.List.Nodup
import TokenFlow.Proofs.Provenance

/-!
# The places of a tree

`Place.places` lists a place and everything below it (`Place.mem_places`).  Where no two of
them have the same number, a place has one parent (`Place.Numbered.eq_of_mem_children`), and
of two places above a third one lies within the other (`Place.Numbered.within_or_within`).
-/
namespace TokenFlow

namespace Node

mutual
/-- The place of a node under a parent, and those below it, each before those below it. -/
def placesUnder (parent : Option Node) : Node → List Place
  | ⟨number, kind, named, field, first, beyond, span, children⟩ =>
    ⟨parent, ⟨number, kind, named, field, first, beyond, span, children⟩⟩ ::
      placesOfAll ⟨number, kind, named, field, first, beyond, span, children⟩ children

/-- The places of several nodes under one parent, and those below them. -/
def placesOfAll (parent : Node) : List Node → List Place
  | [] => []
  | n :: ns => n.placesUnder (some parent) ++ placesOfAll parent ns
end

end Node

namespace Place

/-- The places below a place. -/
def below (p : Place) : List Place :=
  Node.placesOfAll p.node p.node.children

/-- A place and the places below it. -/
def places (p : Place) : List Place :=
  p.node.placesUnder p.parent

theorem places_eq (p : Place) : p.places = p :: p.below := by
  obtain ⟨parent, n⟩ := p
  cases n
  rw [places, Node.placesUnder]
  rfl

end Place

namespace Node

theorem mem_placesOfAll_of_mem (parent : Node) {n : Node} {ns : List Node} (h : n ∈ ns) :
    ⟨some parent, n⟩ ∈ placesOfAll parent ns := by
  induction ns with
  | nil => exact absurd h List.not_mem_nil
  | cons m ms ih =>
    rw [placesOfAll]
    rcases List.mem_cons.mp h with rfl | h
    · have hself := Place.places_eq ⟨some parent, n⟩
      exact List.mem_append_left _ (hself ▸ List.mem_cons_self : _ ∈ Place.places _)
    · exact List.mem_append_right _ (ih h)

mutual
theorem mem_placesUnder_of_child (parent : Option Node) : ∀ (n : Node) {q r : Place},
    q ∈ n.placesUnder parent → r ∈ q.children → r ∈ n.placesUnder parent
  | ⟨number, kind, named, field, first, beyond, span, children⟩, q, r, hq, hr => by
    rw [placesUnder] at hq ⊢
    rcases List.mem_cons.mp hq with rfl | hq
    · obtain ⟨m, hm, rfl⟩ := List.mem_map.mp hr
      exact List.mem_cons_of_mem _ (mem_placesOfAll_of_mem _ hm)
    · exact List.mem_cons_of_mem _ (mem_placesOfAll_of_child _ children hq hr)

theorem mem_placesOfAll_of_child (parent : Node) : ∀ (ns : List Node) {q r : Place},
    q ∈ placesOfAll parent ns → r ∈ q.children → r ∈ placesOfAll parent ns
  | [], _, _, hq, _ => absurd hq List.not_mem_nil
  | n :: ns, q, r, hq, hr => by
    rw [placesOfAll] at hq ⊢
    rcases List.mem_append.mp hq with hq | hq
    · exact List.mem_append_left _ (mem_placesUnder_of_child (some parent) n hq hr)
    · exact List.mem_append_right _ (mem_placesOfAll_of_child parent ns hq hr)
end

mutual
theorem within_of_mem_placesUnder (parent : Option Node) : ∀ (n : Node) {q : Place},
    q ∈ n.placesUnder parent → q.Within ⟨parent, n⟩
  | ⟨number, kind, named, field, first, beyond, span, children⟩, q, hq => by
    rw [placesUnder] at hq
    rcases List.mem_cons.mp hq with rfl | hq
    · exact Or.inl rfl
    · exact Or.inr (hasBelow_of_mem_placesOfAll _ children (fun _ hn => List.mem_map_of_mem hn) hq)

theorem hasBelow_of_mem_placesOfAll (p : Place) : ∀ (ns : List Node) {q : Place},
    (∀ n ∈ ns, ⟨some p.node, n⟩ ∈ p.children) → q ∈ placesOfAll p.node ns → p.HasBelow q
  | [], _, _, hq => absurd hq List.not_mem_nil
  | n :: ns, q, hns, hq => by
    obtain ⟨hn, hns⟩ := List.forall_mem_cons.mp hns
    rw [placesOfAll] at hq
    rcases List.mem_append.mp hq with hq | hq
    · rcases within_of_mem_placesUnder (some p.node) n hq with rfl | hq
      · exact .child hn
      · exact (Place.HasBelow.child hn).trans hq
    · exact hasBelow_of_mem_placesOfAll p ns hns hq
end

end Node

namespace Place

variable {p q r root : Place}

theorem HasBelow.mem_below (h : p.HasBelow q) : q ∈ p.below := by
  induction h with
  | child hq =>
    obtain ⟨n, hn, rfl⟩ := List.mem_map.mp hq
    exact Node.mem_placesOfAll_of_mem _ hn
  | deeper _ hr ih => exact Node.mem_placesOfAll_of_child _ _ ih hr

/-- The list holds a place and what lies below it, and nothing else. -/
theorem mem_places : q ∈ p.places ↔ q.Within p := by
  constructor
  · exact Node.within_of_mem_placesUnder p.parent p.node
  · rw [places_eq]
    rintro (rfl | h)
    · exact List.mem_cons_self
    · exact List.mem_cons_of_mem _ h.mem_below

theorem HasBelow.sizeOf_lt (h : p.HasBelow q) : sizeOf q.node < sizeOf p.node := by
  have hchild : ∀ {p q : Place}, q ∈ p.children → sizeOf q.node < sizeOf p.node := by
    intro p q hq
    obtain ⟨n, hn, rfl⟩ := List.mem_map.mp hq
    have hlt := List.sizeOf_lt_of_mem hn
    obtain ⟨parent, ⟨number, kind, named, field, first, beyond, span, children⟩⟩ := p
    simp only [Node.mk.sizeOf_spec]
    exact Nat.lt_of_lt_of_le hlt (Nat.le_add_left _ _)
  induction h with
  | child hq => exact hchild hq
  | deeper _ hr ih => exact (hchild hr).trans ih

theorem not_hasBelow_self (p : Place) : ¬ p.HasBelow p :=
  fun h => Nat.lt_irrefl _ h.sizeOf_lt

/-- A place has what its child has below it. -/
theorem HasBelow.of_within (h : p.HasBelow q) (hr : r.Within q) : p.HasBelow r := by
  rcases hr with rfl | hr
  · exact h
  · exact h.trans hr

/-! ## Trees with distinct numbers -/

/-- No two nodes of the tree have the same number. -/
def Numbered (root : Place) : Prop :=
  (root.places.map (·.node.number)).Nodup

namespace Numbered

variable (h : root.Numbered)
include h

theorem eq_of_number_eq (hp : p.Within root) (hq : q.Within root)
    (heq : p.node.number = q.node.number) : p = q :=
  List.inj_on_of_nodup_map h (mem_places.mpr hp) (mem_places.mpr hq) heq

/-- A place is the child of one place only. -/
theorem eq_of_mem_children (hp : p.Within root) (hq : q.Within root) (hrp : r ∈ p.children)
    (hrq : r ∈ q.children) : p = q := by
  obtain ⟨n, -, rfl⟩ := List.mem_map.mp hrp
  obtain ⟨n', -, heq⟩ := List.mem_map.mp hrq
  have hnode : q.node = p.node := by
    simpa using congrArg Place.parent heq
  exact h.eq_of_number_eq hp hq (congrArg Node.number hnode.symm)

/-- What lies above a child lies above its parent or is the parent. -/
theorem within_of_child (hp : p.Within root) (hq : q.Within root) (hr : r ∈ p.children)
    (hbelow : q.HasBelow r) : p.Within q := by
  cases hbelow with
  | child hrq => exact Or.inl (h.eq_of_mem_children hp hq hr hrq)
  | deeper hq' hrq => exact Or.inr (h.eq_of_mem_children hp (hq.below hq') hr hrq ▸ hq')

/-- **Of two places above a third, one lies within the other.** -/
theorem within_or_within (hp : p.Within root) (hq : q.Within root) (hrp : r.Within p)
    (hrq : r.Within q) : p.Within q ∨ q.Within p := by
  rcases hrp with rfl | hrp
  · exact Or.inl hrq
  · induction hrp with
    | child hr =>
      rcases hrq with rfl | hrq
      · exact Or.inr (Or.inr (.child hr))
      · exact Or.inl (h.within_of_child hp hq hr hrq)
    | deeper hp' hr ih =>
      rcases hrq with rfl | hrq
      · exact Or.inr (Or.inr (hp'.deeper hr))
      · exact ih (h.within_of_child (hp.below hp') hq hr hrq)

end Numbered

end Place

end TokenFlow
