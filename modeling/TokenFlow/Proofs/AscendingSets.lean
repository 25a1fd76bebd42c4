import Mathlib.Data.List.Destutter
import Mathlib.Data.List.Perm.Basic
import Mathlib.Order.Defs.Unbundled
import Mathlib.Order.RelClasses
import TokenFlow.Ascending

/-!
# Ascending lists are sets

Over a strict total order an ascending list is determined by its elements.  `insert`
and `ofList` therefore do to lists what insertion and collection do to sets: they say
who is a member (`mem_insert`, `mem_ofList`), they answer ascending lists
(`pairwise_insert`, `pairwise_ofList`), and two lists with the same elements are
written down alike (`ofList_congr`, `ofList_eq_self`).  To sort a list and drop repetitions
comes to the same (`ofList_eq_destutter_mergeSort`).
-/
namespace TokenFlow.Ascending

variable {α : Type} [LT α] [DecidableLT α] [IsStrictTotalOrder α (· < ·)]

theorem mem_insert {x z : α} {ys : List α} : z ∈ insert x ys ↔ z = x ∨ z ∈ ys := by
  induction ys with
  | nil => exact List.mem_singleton.trans (by simp)
  | cons y ys ih =>
    rw [insert]
    split
    · exact List.mem_cons
    · rename_i hxy
      split
      · rw [List.mem_cons, ih, List.mem_cons]
        exact or_left_comm
      · rename_i hyx
        have heq : x = y := Std.Trichotomous.trichotomous (r := (· < ·)) x y hxy hyx
        subst heq
        rw [List.mem_cons]
        exact ⟨Or.inr, fun h => h.elim Or.inl id⟩

theorem pairwise_insert (x : α) {ys : List α} (h : ys.Pairwise (· < ·)) :
    (insert x ys).Pairwise (· < ·) := by
  induction ys with
  | nil => exact List.pairwise_singleton _ _
  | cons y ys ih =>
    obtain ⟨hy, hys⟩ := List.pairwise_cons.mp h
    rw [insert]
    split
    · rename_i hxy
      refine List.pairwise_cons.mpr ⟨fun z hz => ?_, h⟩
      rcases List.mem_cons.mp hz with rfl | hz
      · exact hxy
      · exact trans_of (· < ·) hxy (hy z hz)
    · split
      · rename_i hyx
        refine List.pairwise_cons.mpr ⟨fun z hz => ?_, ih hys⟩
        rcases mem_insert.mp hz with rfl | hz
        · exact hyx
        · exact hy z hz
      · exact h

@[simp] theorem mem_ofList {z : α} {xs : List α} : z ∈ ofList xs ↔ z ∈ xs := by
  induction xs with
  | nil => exact Iff.rfl
  | cons x xs ih => rw [ofList_cons, mem_insert, ih, List.mem_cons]

theorem pairwise_ofList (xs : List α) : (ofList xs).Pairwise (· < ·) := by
  induction xs with
  | nil => exact List.Pairwise.nil
  | cons x xs ih => exact pairwise_insert x ih

omit [DecidableLT α] in
/-- **An ascending list is determined by its elements.** -/
theorem eq_of_mem_iff {xs ys : List α} (hx : xs.Pairwise (· < ·)) (hy : ys.Pairwise (· < ·))
    (h : ∀ z, z ∈ xs ↔ z ∈ ys) : xs = ys := by
  have nodup : ∀ {zs : List α}, zs.Pairwise (· < ·) → zs.Nodup := fun hz =>
    hz.imp fun hlt => ne_of_irrefl hlt
  have hperm : xs.Perm ys := (List.perm_ext_iff_of_nodup (nodup hx) (nodup hy)).mpr h
  exact hperm.eq_of_pairwise (fun a b _ _ hab hba => absurd hba (asymm hab)) hx hy

theorem ofList_congr {xs ys : List α} (h : ∀ z, z ∈ xs ↔ z ∈ ys) : ofList xs = ofList ys :=
  eq_of_mem_iff (pairwise_ofList xs) (pairwise_ofList ys) fun z => by
    rw [mem_ofList, mem_ofList, h z]

theorem ofList_eq_self {xs : List α} (h : xs.Pairwise (· < ·)) : ofList xs = xs :=
  eq_of_mem_iff (pairwise_ofList xs) h fun _ => mem_ofList

/-! ## Sorting -/

omit [DecidableLT α] in
theorem not_lt_iff {x y : α} : ¬ y < x ↔ x = y ∨ x < y := by
  constructor
  · intro h
    refine or_iff_not_imp_right.mpr fun hlt => ?_
    exact Std.Trichotomous.trichotomous (r := (· < ·)) x y hlt h
  · rintro (rfl | h)
    · exact irrefl x
    · exact asymm h

theorem pairwise_mergeSort (xs : List α) :
    (xs.mergeSort fun x y => !decide (y < x)).Pairwise fun x y => x = y ∨ x < y := by
  have hle {x y : α} : (!decide (y < x)) = true ↔ x = y ∨ x < y := by
    rw [Bool.not_eq_true', decide_eq_false_iff_not, not_lt_iff]
  refine (List.pairwise_mergeSort (fun x y z hxy hyz => ?_) (fun x y => ?_) xs).imp hle.mp
  · rcases hle.mp hxy with rfl | hxy
    · exact hyz
    · rcases hle.mp hyz with rfl | hyz
      · exact hle.mpr (.inr hxy)
      · exact hle.mpr (.inr (trans_of (· < ·) hxy hyz))
  · rw [Bool.or_eq_true, hle, hle]
    rcases trichotomous_of (· < ·) x y with h | h | h
    · exact .inl (.inr h)
    · exact .inl (.inl h)
    · exact .inr (.inr h)

/-- **To sort a list and drop what repeats its neighbour makes it ascending.** -/
theorem ofList_eq_destutter_mergeSort [DecidableEq α] (xs : List α) :
    ofList xs = (xs.mergeSort fun x y => !decide (y < x)).destutter (· ≠ ·) := by
  have hsorted := pairwise_mergeSort xs
  have : Std.Antisymm fun x y : α => x = y ∨ x < y :=
    ⟨fun x y hxy hyx => hxy.elim id fun hlt => hyx.elim Eq.symm fun hgt => absurd hgt (asymm hlt)⟩
  -- in a sorted list, what is repeated is repeated by its neighbour
  rw [hsorted.destutter_eq_dedup]
  refine eq_of_mem_iff (pairwise_ofList xs) ?_ fun z => ?_
  · exact (hsorted.sublist (List.dedup_sublist _)).imp₂ (fun _ _ hle hne => hle.resolve_left hne)
      (List.nodup_dedup _)
  · rw [mem_ofList, List.mem_dedup, List.mem_mergeSort]

end TokenFlow.Ascending
