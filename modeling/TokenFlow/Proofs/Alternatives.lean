import Mathlib.Data.List.Perm.Basic
import Mathlib.Data.Nat.Basic
import TokenFlow.LiveDefs
import TokenFlow.Proofs.AscendingSets

/-!
# Where alternatives meet

`LiveDefs.merge` acts on every name by itself: the definitions of a name behind the
meeting point are the union of those it has in the alternatives that bind it
(`get?_merge`).  `unionOf` is that union for one name; a name that no alternative
binds stays unbound, and a union is always written down ascending.
-/
namespace TokenFlow.LiveDefs

/-- Every list of definitions is ascending. -/
def Ascending (s : LiveDefs) : Prop :=
  ∀ name defs, s.get? name = some defs → defs.Pairwise (· < ·)

theorem ascending_empty : empty.Ascending :=
  fun _ _ h => nomatch h

/-- What a name is bound to after several lists of definitions are added to its own. -/
def extend (own : Option (List Nat)) : List (List Nat) → Option (List Nat)
  | [] => own
  | found => some (TokenFlow.Ascending.ofList (own.getD [] ++ found.flatten))

theorem extend_extend (own : Option (List Nat)) (xs ys : List (List Nat)) :
    extend (extend own xs) ys = extend own (xs ++ ys) := by
  cases ys with
  | nil => rw [List.append_nil]; rfl
  | cons y ys =>
    cases xs with
    | nil => rfl
    | cons x xs =>
      refine congrArg some (TokenFlow.Ascending.ofList_congr fun d => ?_)
      simp [extend, or_assoc]

/-- What one name is bound to where alternatives meet that bind it as given. -/
def unionOf (alternatives : List (Option (List Nat))) : Option (List Nat) :=
  extend none (alternatives.filterMap id)

theorem unionOf_eq_none_iff {os : List (Option (List Nat))} :
    unionOf os = none ↔ ∀ o ∈ os, o = none := by
  unfold unionOf
  constructor
  · intro h
    cases hf : os.filterMap id with
    | nil => exact List.filterMap_eq_nil_iff.mp hf
    | cons found rest =>
      rw [hf] at h
      exact nomatch h
  · intro h
    rw [(List.filterMap_eq_nil_iff (f := id)).mpr h]
    rfl

theorem unionOf_eq_some {os : List (Option (List Nat))} {defs : List Nat}
    (h : unionOf os = some defs) :
    defs = TokenFlow.Ascending.ofList (os.filterMap id).flatten := by
  unfold unionOf at h
  cases hf : os.filterMap id with
  | nil =>
    rw [hf] at h
    exact nomatch h
  | cons found rest =>
    rw [hf] at h
    exact (Option.some.inj h).symm

theorem mem_of_unionOf {os : List (Option (List Nat))} {defs : List Nat}
    (h : unionOf os = some defs) {d : Nat} :
    d ∈ defs ↔ ∃ found, some found ∈ os ∧ d ∈ found := by
  rw [unionOf_eq_some h, TokenFlow.Ascending.mem_ofList, List.mem_flatten]
  simp only [List.mem_filterMap, id_eq, exists_eq_right]

theorem pairwise_of_unionOf {os : List (Option (List Nat))} {defs : List Nat}
    (h : unionOf os = some defs) : defs.Pairwise (· < ·) :=
  unionOf_eq_some h ▸ TokenFlow.Ascending.pairwise_ofList _

/-- Adds the definitions of one entry, as `merge` does. -/
def addEntry (s : LiveDefs) (e : String × List Nat) : LiveDefs :=
  s.unite e.1 e.2

theorem get?_addEntry (s : LiveDefs) (e : String × List Nat) (name : String) :
    (s.addEntry e).get? name =
      if e.1 = name then some (TokenFlow.Ascending.ofList ((s.get? name).getD [] ++ e.2))
      else s.get? name := by
  rw [addEntry, unite, get?_set]
  split
  · rename_i h
    rw [h]
  · rfl

/-- The entries of one alternative say at most one thing of each name. -/
theorem get?_foldl_addEntry {es : List (String × List Nat)} (hes : es.Pairwise (·.1 < ·.1))
    (s : LiveDefs) (name : String) :
    (es.foldl addEntry s).get? name = extend (s.get? name) (lookup name es).toList := by
  induction es generalizing s with
  | nil => rfl
  | cons e es ih =>
    obtain ⟨key, defs⟩ := e
    obtain ⟨hkey, hes⟩ := List.pairwise_cons.mp hes
    rw [List.foldl_cons, ih hes, get?_addEntry, lookup]
    by_cases h : key = name
    · subst h
      rw [lookup_eq_none_of_lt hkey, if_pos rfl, if_pos rfl]
      simp [extend]
    · rw [if_neg h, if_neg h]

theorem merge_eq_foldl (alternatives : List LiveDefs) :
    merge alternatives =
      alternatives.foldl (fun s alternative => alternative.entries.foldl addEntry s) empty :=
  List.foldl_flatMap ..

/-- **Merging acts on every name by itself**, and unites. -/
theorem get?_merge (alternatives : List LiveDefs) (name : String) :
    (merge alternatives).get? name = unionOf (alternatives.map (·.get? name)) := by
  suffices key : ∀ s : LiveDefs,
      (alternatives.foldl (fun s alternative => alternative.entries.foldl addEntry s) s).get? name =
        extend (s.get? name) ((alternatives.map (·.get? name)).filterMap id) by
    rw [merge_eq_foldl, key empty]
    rfl
  -- for whatever has been merged so far
  induction alternatives with
  | nil => exact fun s => rfl
  | cons a as ih =>
    intro s
    rw [List.foldl_cons, ih, get?_foldl_addEntry a.sorted, extend_extend, List.map_cons]
    show extend _ ((a.get? name).toList ++ _) = _
    cases a.get? name <;> rfl

theorem ascending_merge (alternatives : List LiveDefs) : (merge alternatives).Ascending := by
  intro name defs h
  rw [get?_merge] at h
  exact pairwise_of_unionOf h

end TokenFlow.LiveDefs
