import TokenFlow.Proofs.Descent

/-!
# The seven tables stay below

For each table, the parts of the pattern at a place lie properly below the place,
whatever the place is: nothing is assumed of its kind, its fields or its children.
-/
namespace TokenFlow

open Place

/-! ## Parameters -/

namespace Parameter.StaysBelow

variable {p q : Place}

theorem of_name (h : p.HasBelow q) : Parameter.StaysBelow { name := q } p :=
  .singleton h

/-- A parameter of which name and fallback stand in fields. -/
theorem of_fields (h : p.HasBelow q) {name : Place} (hname : q.HasBelow name) (field : String) :
    Parameter.StaysBelow ⟨name, q.field? field⟩ p := by
  have hbelow : q.AllBelow (Parameter.parts ⟨name, q.field? field⟩) :=
    (AllBelow.singleton hname).append (.toList fun _ => hasBelow_of_field?)
  exact .trans h hbelow

section Tables

variable {r : Parameter} (h : p.HasBelow q)
include h

/-- The place is the parameter. -/
theorem of_eq_some (hr : some { name := q } = some r) : r.StaysBelow p :=
  Option.some.inj hr ▸ .of_name h

/-- The name of the parameter stands in a field. -/
theorem of_field {field : String} (hr : (q.field? field).map (fun name => { name }) = some r) :
    r.StaysBelow p := by
  obtain ⟨name, hname, rfl⟩ := Option.map_eq_some_iff.mp hr
  exact .of_name (h.trans (hasBelow_of_field? hname))

/-- The name of the parameter stands in a field, and its fallback in another. -/
theorem of_defaulted {field fallback : String}
    (hr : (q.field? field).map (fun name => ⟨name, q.field? fallback⟩) = some r) :
    r.StaysBelow p := by
  obtain ⟨name, hname, rfl⟩ := Option.map_eq_some_iff.mp hr
  exact .of_fields h (hasBelow_of_field? hname) fallback

end Tables

/-- The parameters found in a list of places, one by one. -/
theorem of_filterMap {qs : List Place} (hqs : p.AllBelow qs) {f : Place → Option Parameter}
    (hf : ∀ q, p.HasBelow q → ∀ r, f q = some r → r.StaysBelow p) :
    ∀ r ∈ qs.filterMap f, r.StaysBelow p := by
  intro r hr
  obtain ⟨q, hq, hfq⟩ := List.mem_filterMap.mp hr
  exact hf q (hqs q hq) r hfq

theorem of_map {α : Type} {xs : List α} {f : α → Parameter} (hf : ∀ x ∈ xs, (f x).StaysBelow p) :
    ∀ r ∈ xs.map f, r.StaysBelow p :=
  List.forall_mem_map.mpr hf

end Parameter.StaysBelow

namespace Place.AllBelow

variable {p : Place}

/-- The named children of each of several places, as the arms of a conditional. -/
theorem map_namedChildren {qs : List Place} (hqs : p.AllBelow qs) :
    ∀ arm ∈ qs.map Place.namedChildren, p.AllBelow arm := by
  intro arm harm
  obtain ⟨q, hq, rfl⟩ := List.mem_map.mp harm
  exact .trans (hqs q hq) q.allBelow_namedChildren

theorem hasBelow_head? {qs : List Place} (hqs : p.AllBelow qs) :
    ∀ q, qs.head? = some q → p.HasBelow q :=
  fun q h => hqs q (List.mem_of_head? h)

theorem map {α : Type} {xs : List α} {f : α → Place} (hf : ∀ x ∈ xs, p.HasBelow (f x)) :
    p.AllBelow (xs.map f) :=
  List.forall_mem_map.mpr hf

theorem flatMap {qs : List Place} (hqs : p.AllBelow qs) {f : Place → List Place}
    (hf : ∀ q, p.HasBelow q → p.AllBelow (f q)) : p.AllBelow (qs.flatMap f) := by
  intro r hr
  obtain ⟨q, hq, hr⟩ := List.mem_flatMap.mp hr
  exact hf q (hqs q hq) r hr

end Place.AllBelow

/-- A place found in one way or else in another. -/
theorem Place.hasBelow_of_or {p : Place} {o o' : Option Place}
    (h : ∀ q, o = some q → p.HasBelow q) (h' : ∀ q, o' = some q → p.HasBelow q) :
    ∀ q, o.or o' = some q → p.HasBelow q := by
  intro q hq
  rcases Option.or_eq_some_iff.mp hq with hq | ⟨-, hq⟩
  · exact h q hq
  · exact h' q hq

namespace Language

variable (p : Place)

/-! ## Python -/

namespace Python

theorem staysBelow_assignment : (assignment p).StaysBelow p := by
  unfold assignment
  dsimp only
  split
  · rename_i right hright
    exact .binding (p.allBelow_itemsOf _ _) (allBelow_listItems (hasBelow_of_field? hright) _)
  · exact .binding (p.allBelow_itemsOf _ _) .nil

/-- The arm of an `elif` clause holds its condition and its body, that of `else` the body. -/
theorem allBelow_clauseArm (clause : Place) : clause.AllBelow (clauseArm clause) := by
  unfold clauseArm
  split <;> exact clause.allBelow_parts _

theorem staysBelow_ifStatement : (ifStatement p).StaysBelow p :=
  .clauses _ _ _ allBelow_clauseArm _ p

variable {p} in
theorem staysBelow_parameter? {q : Place} (hq : p.HasBelow q) {r : Parameter}
    (h : parameter? q = some r) : r.StaysBelow p := by
  unfold parameter? at h
  split at h
  -- the kinds in the order of the table, the two with a default first
  · exact .of_defaulted hq h
  · exact .of_defaulted hq h
  · obtain ⟨name, hname, rfl⟩ := Option.map_eq_some_iff.mp h
    exact .of_name (hq.trans (q.allBelow_namedChildren.hasBelow_head? name hname))
  · exact .of_eq_some hq h
  · exact .of_eq_some hq h
  · exact .of_eq_some hq h
  · exact .of_eq_some hq h
  · exact nomatch h

theorem staysBelow_parameters : ∀ q ∈ parameters p, q.StaysBelow p :=
  .of_filterMap (p.allBelow_namedIn _) fun _ hq _ => staysBelow_parameter? hq

theorem allBelow_elseBody : p.AllBelow (elseBody p) := by
  refine .toList fun q h => ?_
  obtain ⟨clause, hclause, hbody⟩ := Option.bind_eq_some_iff.mp h
  exact (hasBelow_of_field? hclause).trans (hasBelow_of_field? hbody)

theorem staysBelow_comprehension : (comprehension p).StaysBelow p :=
  (p.allBelow_namedExcept _).append (p.allBelow_parts _)

/-- The parts of a Python construct lie below it, those of a chain of `elif` clauses too,
which are two levels down. -/
theorem staysBelow_pattern : (pattern p).StaysBelow p := by
  unfold pattern
  split
  · exact staysBelow_assignment p
  · exact .bindFields _ _ _ p
  · exact .bindFields _ _ _ p
  · exact .binding (p.allBelow_parts _)
      ((p.allBelow_namedExcept _).mono (List.take_sublist 1 _).subset)
  · exact staysBelow_ifStatement p
  · exact .branch (p.allBelow_fields _) ((p.allBelow_namedIn _).filter _).map_namedChildren
  · exact .iteration (p.allBelow_itemsOf _ _) (fun _ => hasBelow_of_field?) (p.allBelow_parts _)
      (allBelow_elseBody p)
  · exact .iteration (p.allBelow_itemsOf _ _) (fun _ => hasBelow_of_field?) .nil .nil
  · exact .loop .nil (p.allBelow_parts _) (allBelow_elseBody p)
  · exact .defineNamed (staysBelow_parameters p)
  · exact .defineAnonymous (staysBelow_parameters p)
  · exact staysBelow_comprehension p
  · exact staysBelow_comprehension p
  · exact staysBelow_comprehension p
  · exact staysBelow_comprehension p
  · exact .plain p

end Python

/-! ## Java -/

namespace Java

variable {p} in
/-- The name of a spread parameter is in a declarator, one level deeper than the others. -/
theorem hasBelow_parameterName? {q : Place} (hq : p.HasBelow q) {r : Place}
    (h : parameterName? q = some r) : p.HasBelow r := by
  unfold parameterName? at h
  split at h
  · exact hq.trans (hasBelow_of_field? h)
  · obtain ⟨declarator, hdeclarator, hname⟩ := Option.bind_eq_some_iff.mp h
    exact (hq.trans (hasBelow_of_childOfKind? hdeclarator)).trans (hasBelow_of_field? hname)
  · exact Option.some.inj h ▸ hq
  · exact nomatch h

theorem staysBelow_parameters : ∀ q ∈ parameters p, q.StaysBelow p := by
  unfold parameters
  split
  · exact List.forall_mem_nil _
  · rename_i list hlist
    have hlist := hasBelow_of_field? hlist
    split
    · exact List.forall_mem_singleton.mpr (.of_name hlist)
    · refine .of_map fun name hname => .of_name ?_
      obtain ⟨q, hq, hname⟩ := List.mem_filterMap.mp hname
      exact hasBelow_parameterName? (hlist.trans (list.allBelow_namedChildren q hq)) hname

theorem staysBelow_method : (method p).StaysBelow p :=
  .definition (fun _ => hasBelow_of_field?) (staysBelow_parameters p) (p.allBelow_fields _)

/-- The parts of a Java construct lie below it; the arms of a `switch` are the groups of its
body. -/
theorem staysBelow_pattern : (pattern p).StaysBelow p := by
  unfold pattern
  split
  · exact .bindFields _ _ _ p
  · exact .bindFields _ _ _ p
  · exact .declareField _ p
  · exact .bindFields _ _ _ p
  · exact .updateOf p.allBelow_namedChildren.hasBelow_head?
  · exact .ifElse _ p fun _ => .singleton
  · exact .branch (p.allBelow_parts _) (p.allBelow_namedIn _).map_namedChildren
  · exact .threePartLoop p
  · exact .iterateFields _ _ p
  · exact .loopOver _ p
  · exact .loopOver _ p
  · exact staysBelow_method p
  · exact staysBelow_method p
  · exact .defineAnonymous (staysBelow_parameters p)
  · exact .plain p

end Java

/-! ## C# -/

namespace CSharp

theorem hasBelow_declaredName? : ∀ q, declaredName? p = some q → p.HasBelow q :=
  hasBelow_of_or (fun _ => hasBelow_of_field?) fun _ => hasBelow_of_childOfKind?

theorem allBelow_initializer : p.AllBelow (initializer p) := by
  unfold initializer
  split
  · rename_i clause hclause
    exact .trans (hasBelow_of_childOfKind? hclause) clause.allBelow_namedChildren
  · exact p.allBelow_namedAfter _

variable {p} in
theorem staysBelow_parametersIn {list : Option Place} (h : ∀ q, list = some q → p.HasBelow q) :
    ∀ r ∈ parametersIn list, r.StaysBelow p := by
  unfold parametersIn
  split
  · exact List.forall_mem_nil _
  · rename_i list
    have hlist := h list rfl
    split
    · exact List.forall_mem_singleton.mpr (.of_name hlist)
    · refine .of_filterMap (.trans hlist (list.allBelow_namedChildren.filter _)) fun q hq r hr => ?_
      obtain ⟨name, hname, rfl⟩ := Option.map_eq_some_iff.mp hr
      have hbelow : q.AllBelow (Parameter.parts ⟨name, (initializer q).head?⟩) :=
        (AllBelow.singleton (hasBelow_declaredName? q name hname)).append
          (.toList (allBelow_initializer q).hasBelow_head?)
      exact .trans hq hbelow

theorem staysBelow_parameters : ∀ q ∈ parameters p, q.StaysBelow p :=
  staysBelow_parametersIn fun _ => hasBelow_of_field?

theorem staysBelow_switch : (switch p).StaysBelow p := by
  have hbody : ∀ q, (p.field? "body").or (p.childOfKind? ["switch_body"]) = some q →
      p.HasBelow q :=
    hasBelow_of_or (fun _ => hasBelow_of_field?) fun _ => hasBelow_of_childOfKind?
  unfold switch
  refine .branch ?_ (AllBelow.filter ?_ _).map_namedChildren
  · dsimp only
    split
    · exact p.allBelow_namedExcept _
    · exact p.allBelow_firstFields _
  · cases h : (p.field? "body").or (p.childOfKind? ["switch_body"]) with
    | none => exact .nil
    | some body => exact .trans (hbody body h) body.allBelow_namedChildren

theorem staysBelow_unary : (unary p).StaysBelow p := by
  unfold unary
  split
  · exact .updateOf p.allBelow_namedChildren.hasBelow_head?
  · exact .plain p

/-- With fields or without, target and iterated value are children of the loop. -/
theorem staysBelow_forEach : (forEach p).StaysBelow p := by
  unfold forEach
  split
  rename_i targets iterable heq
  split at heq
  · rename_i left hleft
    cases heq
    exact .iteration (.singleton (hasBelow_of_field? hleft)) (fun _ => hasBelow_of_field?)
      (p.allBelow_parts _) .nil
  · cases heq
    refine .iteration (.toList fun q hq => ?_) (p.allBelow_namedAfter _).hasBelow_head?
      (p.allBelow_parts _) .nil
    exact p.allBelow_namedBefore "in" q (List.mem_reverse.mp (List.mem_of_find?_eq_some hq))

theorem staysBelow_anonymousMethod : (anonymousMethod p).StaysBelow p :=
  .definition (fun _ h => nomatch h)
    (staysBelow_parametersIn
      (hasBelow_of_or (fun _ => hasBelow_of_field?) fun _ => hasBelow_of_childOfKind?))
    (.toList fun _ => hasBelow_of_childOfKind?)

/-- The parts of a C# construct lie below it, whichever of its alternatives a tree has: a field,
a child of some kind, or the children ahead of or behind a sign. -/
theorem staysBelow_pattern : (pattern p).StaysBelow p := by
  unfold pattern
  split
  · exact .binding (.toList (hasBelow_declaredName? p)) (allBelow_initializer p)
  · exact .declareField _ p
  · exact .bindFields _ _ _ p
  · exact staysBelow_unary p
  · exact staysBelow_unary p
  · exact .ifElse _ p fun _ => .singleton
  · exact staysBelow_switch p
  · exact .threePartLoop p
  · exact staysBelow_forEach p
  · exact staysBelow_forEach p
  · exact .loopOver _ p
  · exact .loopOver _ p
  · exact .defineNamed (staysBelow_parameters p)
  · exact .defineNamed (staysBelow_parameters p)
  · exact .defineNamed (staysBelow_parameters p)
  · exact .defineAnonymous (staysBelow_parameters p)
  · exact staysBelow_anonymousMethod p
  · exact .plain p

end CSharp

/-! ## JavaScript -/

namespace JavaScript

variable {p} in
/-- A parameter with a default but without a name is named by its own place. -/
theorem staysBelow_parameter {q : Place} (hq : p.HasBelow q) : (parameter q).StaysBelow p := by
  unfold parameter
  split
  · have hfallback : p.AllBelow (q.field? "right").toList :=
      .trans hq (.toList fun _ => hasBelow_of_field?)
    refine (AllBelow.singleton ?_).append hfallback
    cases hleft : q.field? "left" with
    | none => exact hq
    | some left => exact hq.trans (hasBelow_of_field? hleft)
  · exact .of_name hq

variable {p} in
theorem staysBelow_parametersIn {lists : List Place} (h : p.AllBelow lists) :
    ∀ q ∈ parametersIn lists, q.StaysBelow p := by
  have hitems : p.AllBelow (lists.flatMap fun list =>
      if list.kind == "formal_parameters" then list.namedChildren else [list]) := by
    refine h.flatMap fun list hlist => ?_
    split
    · exact .trans hlist list.allBelow_namedChildren
    · exact .singleton hlist
  exact .of_map fun q hq => staysBelow_parameter (hitems.filter _ q hq)

theorem hasBelow_operand? : ∀ q, operand? p = some q → p.HasBelow q :=
  hasBelow_of_or (fun _ => hasBelow_of_field?) p.allBelow_namedChildren.hasBelow_head?

theorem staysBelow_function :
    (Pattern.defineNamed (parametersIn (p.parts ["parameters"])) p).StaysBelow p :=
  .defineNamed (staysBelow_parametersIn (p.allBelow_parts _))

/-- The parts of a JavaScript construct lie below it.  All kinds of functions share one list of
parameters. -/
theorem staysBelow_pattern : (pattern p).StaysBelow p := by
  unfold pattern
  split
  · exact .bindFields _ _ _ p
  · exact .bindFields _ _ _ p
  · exact .bindFields _ _ _ p
  · exact .updateOf (hasBelow_operand? p)
  · exact .ifElse _ p fun q hq => .trans hq q.allBelow_namedChildren
  · exact .branch (p.allBelow_parts _) ((p.allBelow_namedIn _).filter _).map_namedChildren
  · exact .threePartLoop p
  · exact .iterateFields _ _ p
  · exact .loopOver _ p
  · exact .loopOver _ p
  · exact .defineAnonymous (staysBelow_parametersIn (p.allBelow_firstFields _))
  · exact staysBelow_function p
  · exact staysBelow_function p
  · exact staysBelow_function p
  · exact staysBelow_function p
  · exact staysBelow_function p
  · exact staysBelow_function p
  · exact .plain p

end JavaScript

/-! ## PHP -/

namespace Php

theorem staysBelow_parameters : ∀ q ∈ parameters p, q.StaysBelow p :=
  .of_filterMap ((p.allBelow_namedIn _).filter _) fun _ hq _ => .of_defaulted hq

theorem allBelow_clauseArm (clause : Place) : clause.AllBelow (clauseArm clause) := by
  unfold clauseArm
  split <;> exact clause.allBelow_parts _

theorem staysBelow_ifStatement : (ifStatement p).StaysBelow p :=
  .clauses _ _ _ allBelow_clauseArm _ p

/-- The operands are the children beside the body, which is the last one if it has no field. -/
theorem staysBelow_forEach : (forEach p).StaysBelow p := by
  have hbody : ∀ q, (p.field? "body").or p.namedChildren.getLast? = some q → p.HasBelow q :=
    hasBelow_of_or (fun _ => hasBelow_of_field?) fun q hq =>
      p.allBelow_namedChildren q (List.mem_of_getLast? hq)
  have hoperands := p.allBelow_namedExcept ((p.field? "body").or p.namedChildren.getLast?).toList
  exact .iteration
    (hoperands.mono ((List.take_sublist _ _).trans (List.drop_sublist _ _)).subset)
    hoperands.hasBelow_head? (.toList hbody) .nil

theorem hasBelow_operand? : ∀ q, operand? p = some q → p.HasBelow q :=
  hasBelow_of_or (fun _ => hasBelow_of_field?) p.allBelow_namedChildren.hasBelow_head?

/-- The parts of a PHP construct lie below it, also where a loop has no field for its body. -/
theorem staysBelow_pattern : (pattern p).StaysBelow p := by
  unfold pattern
  split
  · exact .bindFields _ _ _ p
  · exact .bindFields _ _ _ p
  · exact .bindFields _ _ _ p
  · exact .updateOf (hasBelow_operand? p)
  · exact staysBelow_ifStatement p
  · exact .branch (p.allBelow_parts _) ((p.allBelow_namedIn _).filter _).map_namedChildren
  · exact .threePartLoop p
  · exact staysBelow_forEach p
  · exact .loopOver _ p
  · exact .loopOver _ p
  · exact .defineNamed (staysBelow_parameters p)
  · exact .defineNamed (staysBelow_parameters p)
  · exact .defineAnonymous (staysBelow_parameters p)
  · exact .defineAnonymous (staysBelow_parameters p)
  · exact .defineAnonymous (staysBelow_parameters p)
  · exact .plain p

end Php

/-! ## Ruby -/

namespace Ruby

variable {p} in
theorem staysBelow_parameter? {q : Place} (hq : p.HasBelow q) {r : Parameter}
    (h : parameter? q = some r) : r.StaysBelow p := by
  unfold parameter? at h
  split at h
  -- the kinds in the order of the table
  · exact .of_eq_some hq h
  · exact .of_eq_some hq h
  · exact .of_defaulted hq h
  · exact .of_defaulted hq h
  · exact .of_field hq h
  · exact .of_field hq h
  · exact .of_field hq h
  · exact nomatch h

theorem staysBelow_parameters : ∀ q ∈ parameters p, q.StaysBelow p :=
  .of_filterMap (p.allBelow_namedIn _) fun _ hq _ => staysBelow_parameter? hq

/-- The field of the body, or all the children that are not parameters. -/
theorem allBelow_bodyOr (fields : List String) : p.AllBelow (bodyOr p fields) := by
  unfold bodyOr
  split
  · rename_i body hbody
    exact .singleton (hasBelow_of_field? hbody)
  · exact p.allBelow_namedExcept _

theorem staysBelow_method : (method p).StaysBelow p :=
  .definition (fun _ => hasBelow_of_field?) (staysBelow_parameters p) (allBelow_bodyOr p _)

theorem staysBelow_block : (block p).StaysBelow p := by
  refine .iteration (.map fun q hq => ?_) (fun _ h => nomatch h) (allBelow_bodyOr p _) .nil
  exact staysBelow_parameters p q hq q.name List.mem_cons_self

theorem staysBelow_lambda : (lambda p).StaysBelow p := by
  refine .definition (fun _ h => nomatch h) (staysBelow_parameters p) ?_
  dsimp only
  split
  · rename_i body hbody
    have hbody := hasBelow_of_field? hbody
    split
    · exact .trans hbody (allBelow_bodyOr body _)
    · exact .singleton hbody
  · exact .nil

theorem staysBelow_caseOf : (caseOf p).StaysBelow p :=
  .branch (p.allBelow_parts _) (p.allBelow_namedChildren.filter _).map_namedChildren

theorem staysBelow_guarded : (guarded p).StaysBelow p :=
  .branch (p.allBelow_parts _) (List.forall_mem_singleton.mpr (p.allBelow_parts _))

/-- The parts of a Ruby construct lie below it; a block is an iteration over its parameters and
a modifier a branch of one arm. -/
theorem staysBelow_pattern : (pattern p).StaysBelow p := by
  have hif : (Pattern.ifElse ["condition"] (fun other => [other]) p).StaysBelow p :=
    .ifElse _ p fun _ => .singleton
  unfold pattern
  split
  · exact .binding (p.allBelow_itemsOf _ _) (p.allBelow_itemsOf _ _)
  · exact .bindFields _ _ _ p
  · exact hif
  · exact hif
  · exact hif
  · exact staysBelow_guarded p
  · exact staysBelow_guarded p
  · exact .loopOver _ p
  · exact .loopOver _ p
  · exact .loopOver _ p
  · exact .loopOver _ p
  · exact .iterateFields _ _ p
  · exact staysBelow_caseOf p
  · exact staysBelow_method p
  · exact staysBelow_method p
  · exact staysBelow_block p
  · exact staysBelow_block p
  · exact staysBelow_lambda p
  · exact .plain p

end Ruby

/-! ## Go -/

namespace Go

theorem staysBelow_parametersIn (fields : List String) :
    ∀ q ∈ parametersIn fields p, q.StaysBelow p := by
  refine .of_map fun name hname => .of_name ?_
  refine AllBelow.flatMap (AllBelow.filter ?_ _) (fun q hq => ?_) name hname
  · exact (p.allBelow_parts _).flatMap fun q hq => .trans hq q.allBelow_namedChildren
  · exact .trans hq (q.allBelow_fields _)

theorem staysBelow_bindItems (kind : BindingKind) : (bindItems kind p).StaysBelow p :=
  .binding (p.allBelow_itemsOf _ _) (p.allBelow_itemsOf _ _)

/-- The parts of a clause lie below the clause, which is a child of the loop. -/
theorem staysBelow_forStatement : (forStatement p).StaysBelow p := by
  unfold forStatement
  dsimp only
  split
  · rename_i clause hclause
    have hclause := hasBelow_of_childOfKind? hclause
    exact .iteration (.trans hclause (clause.allBelow_itemsOf _ _))
      (fun _ h => hclause.trans (hasBelow_of_field? h)) (p.allBelow_parts _) .nil
  · split
    · rename_i clause hclause
      have hfields := fun name =>
        AllBelow.trans (hasBelow_of_childOfKind? hclause) (clause.allBelow_fields name)
      exact .loop (hfields _) (((hfields _).append (p.allBelow_parts _)).append (hfields _)) .nil
    · exact .loop .nil ((p.allBelow_namedExcept _).append (p.allBelow_parts _)) .nil

theorem staysBelow_switch : (switch p).StaysBelow p :=
  .branch (((p.allBelow_fields _).append (p.allBelow_fields _)).append (p.allBelow_fields _))
    (p.allBelow_namedChildren.filter _).map_namedChildren

/-- The parts of a Go construct lie below it, the names of its parameters three levels down: in
a declaration of a list of the construct. -/
theorem staysBelow_pattern : (pattern p).StaysBelow p := by
  unfold pattern
  split
  · exact .binding (p.allBelow_fields _) (p.allBelow_itemsOf _ _)
  · exact .binding (p.allBelow_fields _) (p.allBelow_itemsOf _ _)
  · exact staysBelow_bindItems p _
  · exact staysBelow_bindItems p _
  · exact .updateOf p.allBelow_namedChildren.hasBelow_head?
  · exact .updateOf p.allBelow_namedChildren.hasBelow_head?
  · exact .ifElse _ p fun _ => .singleton
  · exact staysBelow_switch p
  · exact staysBelow_switch p
  · exact staysBelow_forStatement p
  · exact .defineNamed (staysBelow_parametersIn p _)
  · exact .defineNamed (staysBelow_parametersIn p _)
  · exact .defineAnonymous (staysBelow_parametersIn p _)
  · exact .plain p

end Go

end Language

/-- **Every part of every pattern of every table lies properly below its place.** -/
theorem Tag.staysBelow_pattern (tag : Tag) (p : Place) :
    (tag.language.pattern p).StaysBelow p := by
  cases tag with
  | python => exact Language.Python.staysBelow_pattern p
  | java => exact Language.Java.staysBelow_pattern p
  | cSharp => exact Language.CSharp.staysBelow_pattern p
  | javaScript => exact Language.JavaScript.staysBelow_pattern p
  | php => exact Language.Php.staysBelow_pattern p
  | ruby => exact Language.Ruby.staysBelow_pattern p
  | go => exact Language.Go.staysBelow_pattern p

/-- A table that is one of the seven stays below, as any table may that is given. -/
theorem Language.staysBelow_of {l : Language}
    (h : (∃ tag : Tag, l = tag.language) ∨ ∀ p : Place, (l.pattern p).StaysBelow p) (p : Place) :
    (l.pattern p).StaysBelow p := by
  rcases h with ⟨tag, rfl⟩ | h
  · exact tag.staysBelow_pattern p
  · exact h p

end TokenFlow
