import Mathlib.Data.List.Induction
import TokenFlow.Proofs.EdgeSlots

/-!
# Folding with two tables

The edges of a loop can be folded in one pass over them without searching what is folded: an array
has the folded edges in the order in which their slots come up, and a hash map has for each slot the
place of its edge in the array (`FoldTables`).  An edge whose slot has a place is united with the
edge that stands there, without asking whether the array reaches that far; any other edge gets the
next place.

That every place in the map is one in the array is the invariant (`FoldTables.Holds`), which each
edge keeps (`FoldTables.Holds.absorb?`).  So folding in this way never fails and answers what
`Edge.fold` answers (`FoldTables.folded_ofEdges?`).
-/
namespace TokenFlow

namespace Edge

/-! ## Absorbing at a place -/

/-- An edge is united with the first edge of its slot, at the place where that stands. -/
theorem absorb_eq_of_findIdx? {acc : List Edge} {e : Edge} {place : Nat}
    (h : (acc.map slot).findIdx? (· == e.slot) = some place) :
    absorb acc e = acc.modify place (·.unite e) := by
  induction acc generalizing place with
  | nil => exact nomatch h
  | cons f fs ih =>
    rw [List.map_cons, List.findIdx?_cons] at h
    by_cases hslot : f.slot = e.slot
    · rw [beq_iff_eq.mpr hslot] at h
      obtain rfl := Option.some.inj h
      exact absorb_cons_pos hslot
    · rw [beq_eq_false_iff_ne.mpr hslot] at h
      obtain ⟨place, hplace, rfl⟩ := Option.map_eq_some_iff.mp h
      rw [absorb_cons_neg hslot, ih hplace]
      rfl

/-- Where no edge has its slot, an edge is appended as it is. -/
theorem absorb_of_notMem {acc : List Edge} {e : Edge} (h : e.slot ∉ acc.map slot) :
    absorb acc e = acc ++ [e] := by
  induction acc with
  | nil => rfl
  | cons f fs ih =>
    obtain ⟨hslot, hfree⟩ := not_or.mp (mt List.mem_cons.mpr h)
    rw [absorb_cons_neg (Ne.symm hslot), ih hfree, List.cons_append]

/-- Edges with one slot are united under the name of either. -/
theorem ofSources_eq_unite {f e : Edge} (h : f.slot = e.slot) :
    ofSources e.name e.index e.relation (f.sources ++ e.sources) = f.unite e := by
  simp only [slot, Prod.mk.injEq] at h
  rw [unite, h.1, h.2.1, h.2.2]

end Edge

/-! ## The two tables -/

deriving instance Hashable for Relation

/-- Folded edges in order, and for each slot the place of the edge that has it. -/
structure FoldTables where
  folded : Array Edge
  places : Std.HashMap (String × Nat × Relation) Nat

namespace FoldTables

/-- Nothing is folded. -/
def empty : FoldTables := ⟨#[], ∅⟩

/-- Unites an edge with the one at the place of its slot, or gives it the next place.  It fails
where the place of the slot lies outside the array. -/
def absorb? (t : FoldTables) (e : Edge) : Option FoldTables :=
  match t.places[e.slot]? with
  | some place => do
    let f ← t.folded[place]?
    let united := Edge.ofSources e.name e.index e.relation (f.sources ++ e.sources)
    return { t with folded := t.folded.setIfInBounds place united }
  | none =>
    some { folded := t.folded.push e, places := t.places.insert e.slot t.folded.size }

/-- The tables after some edges. -/
def ofEdges? (edges : List Edge) : Option FoldTables :=
  edges.foldlM absorb? empty

/-- The tables hold these edges, and the place of a slot is that of the edge with it. -/
structure Holds (t : FoldTables) (acc : List Edge) : Prop where
  folded : t.folded.toList = acc
  places : ∀ slot, t.places[slot]? = (acc.map Edge.slot).findIdx? (· == slot)

/-- The place of a slot is one that the array has, with an edge of that slot. -/
theorem Holds.exists_folded {t : FoldTables} {acc : List Edge} (h : t.Holds acc)
    {slot : String × Nat × Relation} {place : Nat}
    (hplace : (acc.map Edge.slot).findIdx? (· == slot) = some place) :
    ∃ f, t.folded[place]? = some f ∧ acc[place]? = some f ∧ f.slot = slot := by
  obtain ⟨hlt, hslot, -⟩ := List.findIdx?_eq_some_iff_getElem.mp hplace
  rw [List.getElem_map, beq_iff_eq] at hslot
  rw [List.length_map] at hlt
  have hfound : acc[place]? = some acc[place] := List.getElem?_eq_getElem hlt
  exact ⟨acc[place], by rw [← Array.getElem?_toList, h.folded, hfound], hfound, hslot⟩

/-- **An edge keeps the tables in step.** -/
theorem Holds.absorb? {t : FoldTables} {acc : List Edge} (h : t.Holds acc) (e : Edge) :
    ∃ after, t.absorb? e = some after ∧ after.Holds (Edge.absorb acc e) := by
  have hsize : t.folded.size = acc.length := by rw [← Array.length_toList, h.folded]
  have hslots := Edge.map_slot_absorb acc e
  cases hplace : (acc.map Edge.slot).findIdx? (· == e.slot) with
  | some place =>
    obtain ⟨f, hfolded, hf, hslot⟩ := h.exists_folded hplace
    have htaken : e.slot ∈ acc.map Edge.slot :=
      hslot ▸ List.mem_map_of_mem (List.mem_of_getElem? hf)
    refine ⟨{ t with folded := t.folded.setIfInBounds place (f.unite e) }, ?_, ?_, ?_⟩
    · rw [FoldTables.absorb?, h.places, hplace]
      show (t.folded[place]?).bind _ = _
      rw [hfolded, Option.bind_some, Edge.ofSources_eq_unite hslot]
      rfl
    · rw [Edge.absorb_eq_of_findIdx? hplace, Array.toList_setIfInBounds, h.folded,
        List.modify_eq_set_getElem?, hf]
      rfl
    · rw [hslots, if_pos htaken]
      exact h.places
  | none =>
    have hfree : e.slot ∉ acc.map Edge.slot := fun hmem =>
      absurd (beq_self_eq_true e.slot)
        (Bool.eq_false_iff.mp (List.findIdx?_eq_none_iff.mp hplace _ hmem))
    refine ⟨{ folded := t.folded.push e, places := t.places.insert e.slot t.folded.size }, ?_, ?_,
      fun slot => ?_⟩
    · rw [FoldTables.absorb?, h.places, hplace]
    · rw [Edge.absorb_of_notMem hfree, Array.toList_push, h.folded]
    · rw [hslots, if_neg hfree, Std.HashMap.getElem?_insert, h.places, hsize,
        List.findIdx?_append]
      by_cases hslot : e.slot = slot
      · subst hslot
        simp [hplace]
      · simp [hslot]

/-- **Folding with two tables never fails, and it answers the folded edges.** -/
theorem folded_ofEdges? (es : List Edge) :
    (ofEdges? es).map (·.folded.toList) = some (Edge.fold es) := by
  suffices key : ∀ (t : FoldTables) (acc : List Edge), t.Holds acc →
      ∃ after, es.foldlM FoldTables.absorb? t = some after ∧
        after.Holds (es.foldl Edge.absorb acc) by
    obtain ⟨after, hafter, hholds⟩ := key empty [] ⟨rfl, fun _ => Std.HashMap.getElem?_empty⟩
    rw [ofEdges?, hafter, Option.map_some, hholds.folded]
    rfl
  induction es with
  | nil => exact fun t acc h => ⟨t, rfl, h⟩
  | cons e es ih =>
    intro t acc h
    obtain ⟨next, hnext, hholds⟩ := h.absorb? e
    obtain ⟨after, hafter, hfolded⟩ := ih next _ hholds
    exact ⟨after, by rw [List.foldlM_cons, hnext]; exact hafter, hfolded⟩

end FoldTables

end TokenFlow
