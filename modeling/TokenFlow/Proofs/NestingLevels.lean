import TokenFlow.Proofs.TreePlaces

/-!
# Levels of nesting

The height of a node is the number of levels below it.  It falls with every step down
(`Place.HasBelow.height_lt`), and so no place is nested deeper than the tree is high
(`Place.Nested.add_height_le`).  Where no two nodes have the same number, a place has one
level (`Place.Nested.level_eq`).
-/
namespace TokenFlow

/-! ## Heights -/

namespace Node

mutual
/-- How many levels there are below a node. -/
def height : Node → Nat
  | ⟨_, _, _, _, _, _, _, children⟩ => heightOver children

/-- The height of a node with these children. -/
def heightOver : List Node → Nat
  | [] => 0
  | n :: ns => max (n.height + 1) (heightOver ns)
end

theorem height_eq (n : Node) : n.height = heightOver n.children := by
  cases n
  rw [height]

theorem height_lt_heightOver {n : Node} {ns : List Node} (h : n ∈ ns) :
    n.height < heightOver ns := by
  induction ns with
  | nil => exact absurd h List.not_mem_nil
  | cons m ms ih =>
    rw [heightOver]
    rcases List.mem_cons.mp h with rfl | h
    · exact Nat.le_max_left _ _
    · exact Nat.lt_of_lt_of_le (ih h) (Nat.le_max_right _ _)

end Node

namespace Place

variable {root p q : Place}

theorem height_lt_of_mem_children (h : q ∈ p.children) : q.node.height < p.node.height := by
  obtain ⟨n, hn, rfl⟩ := List.mem_map.mp h
  rw [p.node.height_eq]
  exact Node.height_lt_heightOver hn

/-- **What lies below is less high.** -/
theorem HasBelow.height_lt (h : p.HasBelow q) : q.node.height < p.node.height := by
  induction h with
  | child hq => exact height_lt_of_mem_children hq
  | deeper _ hr ih => exact (height_lt_of_mem_children hr).trans ih

/-! ## Levels -/

/-- A place is so many levels below another. -/
inductive Nested (root : Place) : Nat → Place → Prop
  | root : Nested root 0 root
  | child {level p q} (h : Nested root level p) (hq : q ∈ p.children) :
      Nested root (level + 1) q

namespace Nested

variable {level level' : Nat}

theorem within (h : root.Nested level p) : p.Within root := by
  induction h with
  | root => exact Or.inl rfl
  | child _ hq ih =>
    rcases ih with rfl | hbelow
    · exact Or.inr (.child hq)
    · exact Or.inr (hbelow.deeper hq)

/-- What lies below a place is nested deeper. -/
theorem exists_of_hasBelow (h : root.Nested level p) (hq : p.HasBelow q) :
    ∃ level', level < level' ∧ root.Nested level' q := by
  induction hq with
  | child hq => exact ⟨level + 1, Nat.lt_succ_self _, h.child hq⟩
  | deeper _ hr ih =>
    obtain ⟨level', hlt, hq⟩ := ih
    exact ⟨level' + 1, Nat.lt_succ_of_lt hlt, hq.child hr⟩

/-- **The levels above a place and below it fit into the tree.** -/
theorem add_height_le (h : root.Nested level p) : level + p.node.height ≤ root.node.height := by
  induction h with
  | root => rw [Nat.zero_add]
  | child _ hq ih =>
    have := height_lt_of_mem_children hq
    omega

/-- Where the numbers are distinct, a place has one level. -/
theorem level_eq (hroot : root.Numbered) (h : root.Nested level p) (h' : root.Nested level' p) :
    level = level' := by
  induction h generalizing level' with
  | root =>
    cases h' with
    | root => rfl
    | child h' hq =>
      -- the root would lie below a place of its own tree
      have hlt := height_lt_of_mem_children hq
      have := h'.add_height_le
      omega
  | child h hq ih =>
    cases h' with
    | root =>
      have hlt := height_lt_of_mem_children hq
      have := h.add_height_le
      omega
    | child h' hq' =>
      have hsame := hroot.eq_of_mem_children h.within h'.within hq hq'
      rw [ih (hsame ▸ h')]

end Nested

end Place

end TokenFlow
