import Mathlib.Order.Bounds.Defs
import TokenFlow.Proofs.ClauseChains

/-!
# Merging is a join

What `LiveDefs.merge` answers is known by three facts: it binds what any of the alternatives binds,
to the definitions that the name has in any of them, and each list is ascending
(`LiveDefs.contains_merge`, `LiveDefs.defines_merge`, `LiveDefs.ascending_merge`).  As live
definitions that are ascending are determined by what they bind and define (`LiveDefs.ext_defines`),
all laws of a join follow from these (`LiveDefs.isJoin_merge`), for any number of alternatives and
also where their own lists are not ascending.

It does not matter when the lists are made ascending, which is one of the laws.  Merging does so
with every list it adds, and doing it once at the end answers the same
(`LiveDefs.merge_eq_ofList_concat`).
-/
namespace TokenFlow.LiveDefs

/-! ## What is bound and defined -/

/-- A token is among the live definitions of a name. -/
def Defines (s : LiveDefs) (name : String) (d : Nat) : Prop :=
  ∃ defs, s.get? name = some defs ∧ d ∈ defs

theorem contains_eq_false_iff {s : LiveDefs} {name : String} :
    s.contains name = false ↔ s.get? name = none :=
  Option.isSome_eq_false_iff.trans Option.isNone_iff_eq_none

/-- **Ascending live definitions are determined by what they bind and define.** -/
theorem ext_defines {s t : LiveDefs} (hs : s.Ascending) (ht : t.Ascending)
    (hcontains : ∀ name, s.contains name = true ↔ t.contains name = true)
    (hdefines : ∀ name d, s.Defines name d ↔ t.Defines name d) : s = t := by
  refine ext_get? fun name => ?_
  have hbound : s.contains name = t.contains name := Bool.eq_iff_iff.mpr (hcontains name)
  cases hdefs : s.get? name with
  | none =>
    rw [contains_eq_false_iff.mpr hdefs] at hbound
    exact (contains_eq_false_iff.mp hbound.symm).symm
  | some defs =>
    have hsome : t.contains name = true := by rw [← hbound, contains, hdefs, Option.isSome_some]
    obtain ⟨defs', hdefs'⟩ := Option.isSome_iff_exists.mp hsome
    have hmem : ∀ d, d ∈ defs ↔ d ∈ defs' := fun d => by
      have h := hdefines name d
      simpa only [Defines, hdefs, hdefs', Option.some.injEq, exists_eq_left'] using h
    rw [hdefs', TokenFlow.Ascending.eq_of_mem_iff (hs _ _ hdefs) (ht _ _ hdefs') hmem]

/-! ## What a merge binds and defines -/

variable {alternatives : List LiveDefs} {name : String} {d : Nat}

theorem contains_merge :
    (merge alternatives).contains name = true ↔ ∃ a ∈ alternatives, a.contains name = true := by
  simp only [contains, Option.isSome_iff_ne_none]
  exact get?_merge_ne_none_iff

theorem defines_merge :
    (merge alternatives).Defines name d ↔ ∃ a ∈ alternatives, a.Defines name d := by
  constructor
  · rintro ⟨defs, hdefs, hd⟩
    rw [get?_merge] at hdefs
    obtain ⟨found, hfound, hd⟩ := (mem_of_unionOf hdefs).mp hd
    obtain ⟨a, ha, hfound⟩ := List.mem_map.mp hfound
    exact ⟨a, ha, found, hfound, hd⟩
  · rintro ⟨a, ha, found, hfound, hd⟩
    have hsome : (merge alternatives).get? name ≠ none :=
      get?_merge_ne_none_iff.mpr ⟨a, ha, hfound ▸ Option.some_ne_none found⟩
    obtain ⟨defs, hdefs⟩ := Option.ne_none_iff_exists'.mp hsome
    refine ⟨defs, hdefs, ?_⟩
    rw [get?_merge] at hdefs
    exact (mem_of_unionOf hdefs).mpr ⟨found, List.mem_map.mpr ⟨a, ha, hfound⟩, hd⟩

/-! ## The order of live definitions -/

/-- Live definitions are above others that bind no more names, to no more definitions. -/
instance : LE LiveDefs :=
  ⟨fun s t => (∀ name, s.contains name = true → t.contains name = true) ∧
    ∀ name d, s.Defines name d → t.Defines name d⟩

theorem le_antisymm {s t : LiveDefs} (hs : s.Ascending) (ht : t.Ascending) (hst : s ≤ t)
    (hts : t ≤ s) : s = t :=
  ext_defines hs ht (fun name => ⟨hst.1 name, hts.1 name⟩)
    fun name d => ⟨hst.2 name d, hts.2 name d⟩

/-- **A merge is the least that is above all alternatives.** -/
theorem isLUB_merge (alternatives : List LiveDefs) :
    IsLUB {a | a ∈ alternatives} (merge alternatives) := by
  constructor
  · exact fun a ha =>
      ⟨fun name h => contains_merge.mpr ⟨a, ha, h⟩, fun name d h => defines_merge.mpr ⟨a, ha, h⟩⟩
  · intro u hu
    refine ⟨fun name h => ?_, fun name d h => ?_⟩
    · obtain ⟨a, ha, h⟩ := contains_merge.mp h
      exact (hu ha).1 name h
    · obtain ⟨a, ha, h⟩ := defines_merge.mp h
      exact (hu ha).2 name d h

/-- Of what is ascending nothing else is least above all alternatives. -/
theorem eq_merge_of_isLUB {u : LiveDefs} (hu : u.Ascending)
    (h : IsLUB {a | a ∈ alternatives} u) : u = merge alternatives := by
  have hmerge := isLUB_merge alternatives
  exact le_antisymm hu (ascending_merge alternatives) (h.2 hmerge.1) (hmerge.2 h.1)

/-! ## Making the lists ascending once -/

/-- Puts definitions behind those of a name. -/
def append (s : LiveDefs) (name : String) (defs : List Nat) : LiveDefs :=
  s.set name ((s.get? name).getD [] ++ defs)

/-- The definitions of each name in several alternatives, one list behind the other. -/
def concat (alternatives : List LiveDefs) : LiveDefs :=
  (alternatives.flatMap (·.entries)).foldl (fun s (name, defs) => s.append name defs) empty

/-- These are the others with each list made ascending. -/
def Sorts (s t : LiveDefs) : Prop :=
  ∀ name, s.get? name = (t.get? name).map TokenFlow.Ascending.ofList

/-- An entry may be made ascending with what it is added to, or behind it. -/
theorem Sorts.addEntry {s t : LiveDefs} (h : s.Sorts t) (e : String × List Nat) :
    (s.addEntry e).Sorts (t.append e.1 e.2) := by
  intro name
  rw [get?_addEntry, append, get?_set]
  by_cases hkey : e.1 = name
  · rw [if_pos hkey, if_pos hkey, hkey, h]
    refine congrArg some (TokenFlow.Ascending.ofList_congr fun d => ?_)
    cases t.get? name with
    | none => rfl
    | some found => simp
  · rw [if_neg hkey, if_neg hkey, h]

theorem Sorts.foldl {s t : LiveDefs} (h : s.Sorts t) (es : List (String × List Nat)) :
    (es.foldl LiveDefs.addEntry s).Sorts
      (es.foldl (fun t (name, defs) => t.append name defs) t) := by
  induction es generalizing s t with
  | nil => exact h
  | cons e es ih => exact ih (h.addEntry e)

theorem get?_foldl_set (f : List Nat → List Nat) {es : List (String × List Nat)}
    (hes : es.Pairwise (·.1 < ·.1)) (s : LiveDefs) (name : String) :
    (es.foldl (fun s (name, defs) => s.set name (f defs)) s).get? name =
      ((lookup name es).map f).or (s.get? name) := by
  induction es generalizing s with
  | nil => rfl
  | cons e es ih =>
    obtain ⟨key, defs⟩ := e
    obtain ⟨hkey, hes⟩ := List.pairwise_cons.mp hes
    rw [List.foldl_cons, ih hes, get?_set, lookup]
    by_cases h : key = name
    · subst h
      rw [lookup_eq_none_of_lt hkey, if_pos rfl, if_pos rfl]
      rfl
    · rw [if_neg h, if_neg h]

theorem sorts_ofList (s : LiveDefs) : (ofList s.entries).Sorts s := by
  intro name
  rw [ofList, get?_foldl_set _ s.sorted, get?_empty, Option.or_none]
  rfl

/-- **The lists may be put one behind the other and be made ascending once at the end.** -/
theorem merge_eq_ofList_concat (alternatives : List LiveDefs) :
    merge alternatives = ofList (concat alternatives).entries := by
  have hempty : empty.Sorts empty := fun _ => rfl
  have hmerge : (merge alternatives).Sorts (concat alternatives) := hempty.foldl _
  exact ext_get? fun name => (hmerge name).trans (sorts_ofList _ name).symm

/-! ## The laws -/

/-- Two merges are the same if each name is bound by some alternative of the one and of the other
alike, and a token defines it in some alternative of the one and of the other alike. -/
theorem merge_congr {others : List LiveDefs}
    (hcontains : ∀ name, (∃ a ∈ alternatives, a.contains name = true) ↔
      ∃ a ∈ others, a.contains name = true)
    (hdefines : ∀ name d, (∃ a ∈ alternatives, a.Defines name d) ↔ ∃ a ∈ others, a.Defines name d) :
    merge alternatives = merge others :=
  ext_defines (ascending_merge _) (ascending_merge _)
    (fun name => contains_merge.trans ((hcontains name).trans contains_merge.symm))
    fun name d => defines_merge.trans ((hdefines name d).trans defines_merge.symm)

/-- What a merge has if an alternative has it, a merge of merges has if an alternative in one of
them has it. -/
theorem exists_mem_map_merge {P : LiveDefs → Prop} (hP : ∀ as, P (merge as) ↔ ∃ a ∈ as, P a)
    (groups : List (List LiveDefs)) :
    (∃ a ∈ groups.map merge, P a) ↔ ∃ a ∈ groups.flatten, P a := by
  constructor
  · rintro ⟨_, hmerged, h⟩
    obtain ⟨group, hgroup, rfl⟩ := List.mem_map.mp hmerged
    obtain ⟨a, ha, h⟩ := (hP group).mp h
    exact ⟨a, List.mem_flatten.mpr ⟨group, hgroup, ha⟩, h⟩
  · rintro ⟨a, ha, h⟩
    obtain ⟨group, hgroup, ha⟩ := List.mem_flatten.mp ha
    exact ⟨merge group, List.mem_map_of_mem hgroup, (hP group).mpr ⟨a, ha, h⟩⟩

/-- Alternatives may be merged in groups. -/
theorem merge_map_merge (groups : List (List LiveDefs)) :
    merge (groups.map merge) = merge groups.flatten :=
  merge_congr (fun _ => exists_mem_map_merge (fun _ => contains_merge) groups)
    fun _ _ => exists_mem_map_merge (fun _ => defines_merge) groups

theorem exists_mem_append_empty {P : LiveDefs → Prop} (hP : ¬ P empty)
    (before behind : List LiveDefs) :
    (∃ a ∈ before ++ empty :: behind, P a) ↔ ∃ a ∈ before ++ behind, P a := by
  simp only [List.mem_append, List.mem_cons, or_and_right, exists_or, exists_eq_left, hP, false_or]

/-- An alternative in which nothing is bound counts for nothing. -/
theorem merge_append_empty (before behind : List LiveDefs) :
    merge (before ++ empty :: behind) = merge (before ++ behind) := by
  have hdefines (name : String) (d : Nat) : ¬ empty.Defines name d := fun ⟨_, h, _⟩ => nomatch h
  exact merge_congr
    (fun name => exists_mem_append_empty (P := (contains · name = true)) Bool.false_ne_true _ _)
    fun name d => exists_mem_append_empty (P := (Defines · name d)) (hdefines name d) _ _

/-- Copies of what is ascending are merged to that. -/
theorem merge_replicate {live : LiveDefs} (hlive : live.Ascending) (n : Nat) :
    merge (List.replicate (n + 1) live) = live := by
  refine ext_defines (ascending_merge _) hlive (fun name => ?_) fun name d => ?_
  · simp [contains_merge]
  · simp [defines_merge]

/-- A function merges any number of alternatives into the least that is above all of them. -/
structure IsJoin (merge : List LiveDefs → LiveDefs) : Prop where
  /-- A name is bound if any of the alternatives binds it, -/
  contains : ∀ alternatives name,
    (merge alternatives).contains name = true ↔ ∃ a ∈ alternatives, a.contains name = true
  /-- to all definitions that it has in any of them, -/
  defines : ∀ alternatives name d,
    (merge alternatives).Defines name d ↔ ∃ a ∈ alternatives, a.Defines name d
  /-- which are listed in ascending order and without repetitions. -/
  ascending : ∀ alternatives, (merge alternatives).Ascending
  /-- The order of the alternatives does not matter, nor does how often there is one. -/
  congr : ∀ alternatives others, (∀ a, a ∈ alternatives ↔ a ∈ others) →
    merge alternatives = merge others
  /-- Alternatives may be merged in groups. -/
  groups : ∀ groups : List (List LiveDefs), merge (groups.map merge) = merge groups.flatten
  /-- An alternative in which nothing is bound counts for nothing. -/
  empty : ∀ before behind, merge (before ++ empty :: behind) = merge (before ++ behind)
  /-- Copies of what is ascending are merged to that. -/
  copies : ∀ live n, live.Ascending → merge (List.replicate (n + 1) live) = live
  /-- The merge is above all alternatives, and below all else that is above them. -/
  isLUB : ∀ alternatives, IsLUB {a | a ∈ alternatives} (merge alternatives)
  /-- Of what is ascending, only the merge is least above all alternatives. -/
  unique : ∀ alternatives u, u.Ascending → IsLUB {a | a ∈ alternatives} u → u = merge alternatives
  /-- The lists may be put one behind the other and be made ascending once at the end. -/
  sorts_once : ∀ alternatives, merge alternatives = ofList (concat alternatives).entries

/-- **Merging is a join.** -/
theorem isJoin_merge : IsJoin merge where
  contains _ _ := contains_merge
  defines _ _ _ := defines_merge
  ascending := ascending_merge
  congr alternatives others h :=
    merge_congr (fun _ => by simp only [h]) fun _ _ => by simp only [h]
  groups := merge_map_merge
  empty := merge_append_empty
  copies _ n hlive := merge_replicate hlive n
  isLUB := isLUB_merge
  unique _ _ := eq_merge_of_isLUB
  sorts_once := merge_eq_ofList_concat

/-- Three alternatives, of which one has a list that is not ascending: the least above them is
theirs in another order too, with one of them twice, and copies of it are merged to it. -/
theorem isJoin_merge_uneven :
    let uneven := empty.set "x" [9, 2, 9]
    let united := ofList [("x", [2, 3, 9]), ("y", [1])]
    united.Ascending ∧ IsLUB {a | a ∈ [uneven, empty.bind "x" 3, empty.bind "y" 1]} united ∧
    merge [empty.bind "y" 1, uneven, empty.bind "x" 3, uneven] = united ∧
    merge (List.replicate 3 united) = united := by
  intro uneven united
  have hunited : merge [uneven, empty.bind "x" 3, empty.bind "y" 1] = united := by decide
  have hascending : united.Ascending := hunited ▸ isJoin_merge.ascending _
  have hsame : merge [empty.bind "y" 1, uneven, empty.bind "x" 3, uneven] =
      merge [uneven, empty.bind "x" 3, empty.bind "y" 1] :=
    isJoin_merge.congr _ _ fun a => by
      simp only [List.mem_cons, List.not_mem_nil, or_false]
      tauto
  exact ⟨hascending, hunited ▸ isJoin_merge.isLUB _, hsame.trans hunited,
    isJoin_merge.copies united 2 hascending⟩

end TokenFlow.LiveDefs
