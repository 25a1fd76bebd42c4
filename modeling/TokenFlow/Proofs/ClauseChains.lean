import TokenFlow.Proofs.ActsByName

/-!
# Clauses side by side, and one within the other

A conditional with further clauses can be read in two ways.  Side by side, every clause starts
from what the first condition leaves; nested, a clause starts from what the condition of the
clause before it leaves, as a conditional in the alternative of that clause would.

Where the conditions of the further clauses leave everything as the first leaves it, the two
readings are the same (`Clause.choose_nested`).  Otherwise they bind the same names
(`Clause.get?_choose_ne_none_iff`), but a name may have other definitions; it has the same
ones if the conditions of the further clauses leave it alone (`Clause.get?_choose_nested`).
-/
namespace TokenFlow

/-! ## Merged merges -/

namespace LiveDefs

/-- A union is known by whether there is anything to unite, and by its elements. -/
theorem unionOf_ext {os os' : List (Option (List Nat))}
    (hnone : (∀ o ∈ os, o = none) ↔ ∀ o ∈ os', o = none)
    (hmem : ∀ d, (∃ found, some found ∈ os ∧ d ∈ found) ↔ ∃ found, some found ∈ os' ∧ d ∈ found) :
    unionOf os = unionOf os' := by
  rw [← unionOf_eq_none_iff, ← unionOf_eq_none_iff] at hnone
  cases h : unionOf os with
  | none => exact (hnone.mp h).symm
  | some defs =>
    cases h' : unionOf os' with
    | none => exact absurd (h.symm.trans (hnone.mpr h')) (Option.some_ne_none defs)
    | some defs' =>
      refine congrArg some (TokenFlow.Ascending.eq_of_mem_iff (pairwise_of_unionOf h)
        (pairwise_of_unionOf h') fun d => ?_)
      rw [mem_of_unionOf h, mem_of_unionOf h', hmem]

theorem unionOf_cons_unionOf (o : Option (List Nat)) (os : List (Option (List Nat))) :
    unionOf [o, unionOf os] = unionOf (o :: os) := by
  refine unionOf_ext ?_ fun d => ?_
  · rw [List.forall_mem_cons, List.forall_mem_singleton, unionOf_eq_none_iff, List.forall_mem_cons]
  · constructor
    · rintro ⟨found, hfound, hd⟩
      rcases List.mem_cons.mp hfound with rfl | hfound
      · exact ⟨found, List.mem_cons_self, hd⟩
      · obtain ⟨found', hfound', hd'⟩ := (mem_of_unionOf (List.mem_singleton.mp hfound).symm).mp hd
        exact ⟨found', List.mem_cons_of_mem _ hfound', hd'⟩
    · rintro ⟨found, hfound, hd⟩
      rcases List.mem_cons.mp hfound with rfl | hfound
      · exact ⟨found, List.mem_cons_self, hd⟩
      · cases h : unionOf os with
        | none => exact absurd (unionOf_eq_none_iff.mp h _ hfound) (Option.some_ne_none found)
        | some united =>
          refine ⟨united, List.mem_cons_of_mem _ List.mem_cons_self, ?_⟩
          exact (mem_of_unionOf h).mpr ⟨found, hfound, hd⟩

/-- Alternatives may be merged in groups. -/
theorem merge_cons_merge (live : LiveDefs) (alternatives : List LiveDefs) :
    merge [live, merge alternatives] = merge (live :: alternatives) := by
  refine ext_get? fun name => ?_
  rw [get?_merge, get?_merge, List.map_cons, List.map_singleton, get?_merge, unionOf_cons_unionOf,
    List.map_cons]

theorem get?_merge_ne_none_iff {alternatives : List LiveDefs} {name : String} :
    (merge alternatives).get? name ≠ none ↔ ∃ live ∈ alternatives, live.get? name ≠ none := by
  rw [get?_merge, Ne, unionOf_eq_none_iff]
  simp only [List.forall_mem_map, not_forall, exists_prop, Ne]

end LiveDefs

/-! ## Clauses -/

/-- A condition, and what is run where it holds. -/
structure Clause where
  condition : LiveDefs → Traced LiveDefs
  body : LiveDefs → Traced LiveDefs

namespace Clause

open LiveDefs (unionOf unionOf_cons_unionOf)

/-- A conditional of which the other alternatives are given by what each leaves. -/
def choose (c : Clause) (others : LiveDefs → Traced (List LiveDefs)) (live : LiveDefs) :
    Traced LiveDefs := do
  let live ← c.condition live
  let outcome ← c.body live
  return .merge (outcome :: (← others live))

/-- What is left where no clause holds: what the last alternative leaves if there is one. -/
def last (otherwise : Option (LiveDefs → Traced LiveDefs)) (live : LiveDefs) :
    Traced (List LiveDefs) :=
  match otherwise with
  | some body => do return [← body live]
  | none => return [live]

variable (otherwise : Option (LiveDefs → Traced LiveDefs))

/-- What is left by further clauses side by side. -/
def beside : List Clause → LiveDefs → Traced (List LiveDefs)
  | [], live => last otherwise live
  | c :: cs, live => do
    let tested ← c.condition live
    let outcome ← c.body tested
    return outcome :: (← beside cs live)

/-- What is left by further clauses of which each is a conditional in the alternative of the one
before it. -/
def nested : List Clause → LiveDefs → Traced (List LiveDefs)
  | [], live => last otherwise live
  | c :: cs, live => do return [← c.choose (nested cs) live]

/-! ## Conditions that leave everything -/

/-- Nested clauses of which the conditions leave everything do what they do side by side. -/
theorem nested_of_idle {clauses : List Clause} {live : LiveDefs}
    (h : ∀ c ∈ clauses, (c.condition live).value = live) :
    (nested otherwise clauses live).edges = (beside otherwise clauses live).edges ∧
    (nested otherwise clauses live).degradations = (beside otherwise clauses live).degradations ∧
    ∀ outcome, LiveDefs.merge (outcome :: (nested otherwise clauses live).value) =
      .merge (outcome :: (beside otherwise clauses live).value) := by
  induction clauses with
  | nil => exact ⟨rfl, rfl, fun _ => rfl⟩
  | cons c cs ih =>
    obtain ⟨hc, hcs⟩ := List.forall_mem_cons.mp h
    obtain ⟨hedges, hdegradations, hvalue⟩ := ih hcs
    refine ⟨?_, ?_, fun outcome => ?_⟩
    · simp only [nested, beside, choose, Traced.edges_bind, Traced.edges_pure, List.append_nil, hc,
        hedges]
    · simp only [nested, beside, choose, Traced.degradations_bind, Traced.degradations_pure,
        List.append_nil, hc, hdegradations]
    · simp only [nested, beside, choose, Traced.value_bind, Traced.value_pure, hc]
      rw [hvalue, LiveDefs.merge_cons_merge]

/-- **Where the conditions of the further clauses leave everything as the first leaves it, the
two readings are the same.** -/
theorem choose_nested (first : Clause) {clauses : List Clause} {live : LiveDefs}
    (h : ∀ c ∈ clauses, (c.condition (first.condition live).value).value =
      (first.condition live).value) :
    first.choose (nested otherwise clauses) live =
      first.choose (beside otherwise clauses) live := by
  obtain ⟨hedges, hdegradations, hvalue⟩ := nested_of_idle otherwise h
  show Traced.mk (LiveDefs.merge (_ :: _)) (_ ++ (_ ++ (_ ++ []))) (_ ++ (_ ++ (_ ++ []))) =
    Traced.mk _ _ _
  rw [hvalue, hedges, hdegradations]
  rfl

/-! ## Clauses that act by name -/

/-- Condition and body have an effect on each name. -/
structure Effective (c : Clause) : Prop where
  condition : Transfers fun live => (c.condition live).value
  body : Transfers fun live => (c.body live).value

section Names

variable {otherwise} {first : Clause} {clauses : List Clause} {live live' : LiveDefs}
  {name : String} (hotherwise : ∀ body ∈ otherwise, Transfers fun live => (body live).value)
  (hclauses : ∀ c ∈ clauses, c.Effective)

/-- What a name is bound to by the last alternative depends on the name alone. -/
theorem get?_last (hotherwise : ∀ body ∈ otherwise, Transfers fun live => (body live).value)
    (h : live.Ascending) (h' : live'.Ascending) (hname : live'.get? name = live.get? name) :
    (last otherwise live').value.map (·.get? name) =
      (last otherwise live).value.map (·.get? name) := by
  cases otherwise with
  | none => exact congrArg (fun defs => [defs]) hname
  | some body =>
    have hbody := (hotherwise body rfl).actsByName.independent name live' live h' h hname
    exact congrArg (fun defs => [defs]) hbody

namespace Effective

variable {c : Clause} (hc : c.Effective) (h : live.Ascending) (h' : live'.Ascending)
  (hname : live'.get? name = live.get? name)
include hc h h' hname

theorem get?_condition : (c.condition live').value.get? name = (c.condition live).value.get? name :=
  hc.condition.actsByName.independent name live' live h' h hname

/-- What a name is bound to by a clause depends on the name alone. -/
theorem get?_body : (c.body (c.condition live').value).value.get? name =
    (c.body (c.condition live).value).value.get? name :=
  hc.body.actsByName.independent name _ _ (hc.condition.ascending h') (hc.condition.ascending h)
    (hc.get?_condition h h' hname)

end Effective

include hotherwise hclauses

/-- A name that the conditions leave alone has the definitions that it has side by side. -/
theorem unionOf_nested (h : live.Ascending) (h' : live'.Ascending)
    (hname : live'.get? name = live.get? name)
    (hkeep : ∀ c ∈ clauses, (c.condition live).value.get? name = live.get? name)
    (own : Option (List Nat)) :
    unionOf (own :: (nested otherwise clauses live').value.map (·.get? name)) =
      unionOf (own :: (beside otherwise clauses live).value.map (·.get? name)) := by
  induction clauses generalizing live' own with
  | nil =>
    show unionOf (own :: (last otherwise live').value.map _) =
      unionOf (own :: (last otherwise live).value.map _)
    rw [get?_last hotherwise h h' hname]
  | cons c cs ih =>
    obtain ⟨hc, hcs⟩ := List.forall_mem_cons.mp hclauses
    obtain ⟨hkeepc, hkeepcs⟩ := List.forall_mem_cons.mp hkeep
    have htested : (c.condition live').value.get? name = live.get? name :=
      (hc.get?_condition h h' hname).trans hkeepc
    show unionOf [own, (LiveDefs.merge (_ :: (nested otherwise cs _).value)).get? name] =
      unionOf (own :: _ :: (beside otherwise cs live).value.map _)
    rw [LiveDefs.get?_merge, List.map_cons, ih hcs (hc.condition.ascending h') htested hkeepcs,
      unionOf_cons_unionOf, hc.get?_body h h' hname]

/-- A name that comes in unbound is bound by nested clauses if it is by clauses side by side. -/
theorem exists_bound_nested_iff (h : live.Ascending) (h' : live'.Ascending)
    (hname : live.get? name = none) (hname' : live'.get? name = none) :
    (∃ outcome ∈ (nested otherwise clauses live').value, outcome.get? name ≠ none) ↔
      ∃ outcome ∈ (beside otherwise clauses live).value, outcome.get? name ≠ none := by
  induction clauses generalizing live' with
  | nil =>
    have hlast := get?_last hotherwise h h' (hname'.trans hname.symm)
    have hmap : ∀ outcomes : List LiveDefs, (∃ outcome ∈ outcomes, outcome.get? name ≠ none) ↔
        ∃ defs ∈ outcomes.map (·.get? name), defs ≠ none := fun outcomes => by
      simp only [List.mem_map, exists_exists_and_eq_and]
    show (∃ outcome ∈ (last otherwise live').value, _) ↔ ∃ outcome ∈ (last otherwise live).value, _
    rw [hmap, hmap, hlast]
  | cons c cs ih =>
    obtain ⟨hc, hcs⟩ := List.forall_mem_cons.mp hclauses
    have hsame := hname'.trans hname.symm
    show (∃ outcome ∈ [LiveDefs.merge (_ :: (nested otherwise cs _).value)], _) ↔
      ∃ outcome ∈ _ :: (beside otherwise cs live).value, _
    simp only [List.mem_singleton, exists_eq_left]
    rw [LiveDefs.get?_merge_ne_none_iff, List.exists_mem_cons_iff, List.exists_mem_cons_iff,
      hc.get?_body h h' hsame]
    -- the condition binds the name, and then so does the clause, or it leaves it unbound
    by_cases htested : (c.condition live').value.get? name = none
    · rw [ih hcs (hc.condition.ascending h') htested]
    · have hbound : (c.body (c.condition live').value).value.get? name ≠ none :=
        hc.body.get?_ne_none (hc.condition.ascending h') htested
      rw [hc.get?_body h h' hsame] at hbound
      exact iff_of_true (Or.inl hbound) (Or.inl hbound)

variable (hfirst : first.Effective) (h : live.Ascending)
include hfirst h

/-- **A name that the conditions of the further clauses leave alone has the same definitions in
the two readings.** -/
theorem get?_choose_nested
    (hkeep : ∀ c ∈ clauses, (c.condition (first.condition live).value).value.get? name =
      (first.condition live).value.get? name) :
    (first.choose (nested otherwise clauses) live).value.get? name =
      (first.choose (beside otherwise clauses) live).value.get? name := by
  have htested := hfirst.condition.ascending h
  show (LiveDefs.merge (_ :: (nested otherwise clauses _).value)).get? name =
    (LiveDefs.merge (_ :: (beside otherwise clauses _).value)).get? name
  rw [LiveDefs.get?_merge, LiveDefs.get?_merge, List.map_cons, List.map_cons,
    unionOf_nested hotherwise hclauses htested htested rfl hkeep]

/-- **The two readings bind the same names.** -/
theorem get?_choose_ne_none_iff :
    (first.choose (nested otherwise clauses) live).value.get? name ≠ none ↔
      (first.choose (beside otherwise clauses) live).value.get? name ≠ none := by
  have htested := hfirst.condition.ascending h
  show (LiveDefs.merge (_ :: (nested otherwise clauses _).value)).get? name ≠ none ↔
    (LiveDefs.merge (_ :: (beside otherwise clauses _).value)).get? name ≠ none
  rw [LiveDefs.get?_merge_ne_none_iff, LiveDefs.get?_merge_ne_none_iff, List.exists_mem_cons_iff,
    List.exists_mem_cons_iff]
  by_cases hname : (first.condition live).value.get? name = none
  · rw [exists_bound_nested_iff hotherwise hclauses htested htested hname hname]
  · have hbound := hfirst.body.get?_ne_none htested hname
    exact iff_of_true (Or.inl hbound) (Or.inl hbound)

omit hotherwise in
/-- A name that is bound by the condition of a further clause is bound behind the clauses. -/
theorem get?_choose_beside_ne_none {c : Clause} (hc : c ∈ clauses)
    (hname : (c.condition (first.condition live).value).value.get? name ≠ none) :
    (first.choose (beside otherwise clauses) live).value.get? name ≠ none := by
  have htested := hfirst.condition.ascending h
  have hclause : (c.body (c.condition (first.condition live).value).value).value ∈
      (beside otherwise clauses (first.condition live).value).value := by
    clear hclauses
    induction clauses with
    | nil => exact absurd hc List.not_mem_nil
    | cons d ds ih =>
      rcases List.mem_cons.mp hc with rfl | hc
      · exact List.mem_cons_self
      · exact List.mem_cons_of_mem _ (ih hc)
  refine LiveDefs.get?_merge_ne_none_iff.mpr ⟨_, List.mem_cons_of_mem _ hclause, ?_⟩
  exact (hclauses c hc).body.get?_ne_none ((hclauses c hc).condition.ascending htested) hname

end Names

end Clause

end TokenFlow
