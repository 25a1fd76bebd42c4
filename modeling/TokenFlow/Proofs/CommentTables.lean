import TokenFlow.Proofs.CommentedReads
import TokenFlow.Proofs.Descent

/-!
# The seven tables read past comments

For each table, `countsIn` says in which nodes the children are counted, so that a comment
counts as one of them: operands that are found by position, lists whose items are paired,
signs that are told from groups.  Where no comment stands in such a node and none carries a
field (`Language.CommentsAside`), the pattern at a place is found without the comments too.
-/
namespace TokenFlow

/-- Comments stand only where the table does not count them, and carry no fields. -/
structure Language.CommentsAside (l : Language) (counts : Place → Bool) (p : Place) : Prop where
  fieldless : ∀ q : Place, q.Within p → l.Fieldless q
  uncounted : ∀ q : Place, q.Within p → counts q = true → l.CommentFree q

namespace Language.CommentsAside

variable {l : Language} {counts : Place → Bool} {p q : Place} (h : l.CommentsAside counts p)
include h

theorem here : l.Fieldless p :=
  h.fieldless p (Or.inl rfl)

theorem free (hp : counts p = true) : l.CommentFree p :=
  h.uncounted p (Or.inl rfl) hp

theorem within (hq : q.Within p) : l.CommentsAside counts q where
  fieldless r hr := h.fieldless r (hr.elim (fun h => h ▸ hq) fun hr => hq.below hr)
  uncounted r hr := h.uncounted r (hr.elim (fun h => h ▸ hq) fun hr => hq.below hr)

theorem below (hq : p.HasBelow q) : l.CommentsAside counts q :=
  h.within (Or.inr hq)

end Language.CommentsAside

namespace Language

open Place

variable {p : Place}

/-! ## Python -/

namespace Python

/-- Where the children are counted. -/
def countsIn (p : Place) : Bool :=
  p.isCountedList python listKinds ["assignment"] ||
    ["as_pattern", "typed_parameter"].contains p.kind

section Aside

variable (h : python.CommentsAside countsIn p)
include h

theorem free_of_list {field : String} (q : Place) (hq : p.field? field = some q)
    (hlist : q.isCountedList python listKinds ["assignment"] = true) : python.CommentFree q :=
  (h.below (hasBelow_of_field? hq)).free (by rw [countsIn, hlist]; rfl)

/-- Targets and values are paired by position, and no comment stands in either list. -/
theorem assignment_uncommented (hkind : p.kind = "assignment") :
    assignment (p.uncommented python) = (assignment p).uncommented python := by
  have hparent : ["assignment"].contains p.kind = true := by
    rw [hkind]
    decide
  have htargets : (p.uncommented python).itemsOf "left" listKinds =
      (p.itemsOf "left" listKinds).map (·.uncommented python) := by
    rw [itemsOf_uncommented h.here (free_of_list h),
      uncommentedAll_itemsOf h.here (free_of_list h) hparent]
  unfold assignment
  dsimp only
  rw [htargets, field?_uncommented h.here]
  cases hright : p.field? "right" with
  | none => rfl
  | some right =>
    have hcomment := isComment_of_field? h.here hright
    have hvalues : (right.uncommented python).listItems listKinds =
        (right.listItems listKinds).map (·.uncommented python) := by
      rw [listItems_uncommented (free_of_list h right hright) hcomment,
        uncommentedAll_listItems (free_of_list h right hright) hcomment (parent_of_field? hright)
          hparent]
    exact congrArg (fun values => Pattern.binding ⟨.assignment, _, values⟩) hvalues

theorem asPattern_uncommented (hkind : p.kind = "as_pattern") :
    asPattern (p.uncommented python) = (asPattern p).uncommented python := by
  have hfree : python.CommentFree p := h.free (by rw [countsIn, hkind]; exact Bool.or_true _)
  have hrest : (p.uncommented python).namedExcept ((p.uncommented python).parts ["alias"]) =
      (p.namedExcept (p.parts ["alias"])).map (·.uncommented python) := by
    rw [parts_uncommented h.here, namedExcept_uncommented, uncommentedAll_namedExcept_of_free hfree]
  unfold asPattern
  dsimp only
  rw [hrest, parts_uncommented h.here]
  simp only [Pattern.uncommented, List.map_take]

theorem ifStatement_uncommented :
    ifStatement (p.uncommented python) = (ifStatement p).uncommented python := by
  refine Pattern.clauses_uncommented h.here _ _ _ (fun clause hclause => ?_) fun q => ?_
  · have hbelow := h.below (p.allBelow_fields _ clause hclause)
    unfold clauseArm
    rw [kind_uncommented]
    split <;> rw [parts_uncommented hbelow.here, uncommentedAll_parts hbelow.here]
  · rw [kind_uncommented]

/-- A comment is no `case` clause, and the children of a clause may hold comments. -/
theorem matchStatement_uncommented :
    matchStatement (p.uncommented python) = (matchStatement p).uncommented python := by
  unfold matchStatement
  rw [fields_uncommented h.here, namedIn_uncommented h.here, Pattern.uncommented,
    uncommentedAll_fields h.here, arms_uncommented (fun q => by rw [kind_uncommented])
      fun q _ => isComment_of_kind_eq (by decide)]

theorem parameter?_uncommented :
    parameter? (p.uncommented python) = (parameter? p).map (·.uncommented python) := by
  unfold parameter?
  rw [kind_uncommented]
  split
  · exact Parameter.of_fields_uncommented h.here _ _
  · exact Parameter.of_fields_uncommented h.here _ _
  · rename_i hkind
    have hfree : python.CommentFree p := h.free (by rw [countsIn, hkind]; exact Bool.or_true _)
    rw [namedChildren_uncommented_of_free hfree, List.head?_map]
    cases p.namedChildren.head? <;> rfl
  all_goals rfl

theorem parameters_uncommented :
    parameters (p.uncommented python) = (parameters p).map (·.uncommented python) := by
  rw [parameters, namedIn_uncommented h.here]
  refine filterMap_uncommentedAll (fun q hq => ?_) fun q hq => ?_
  · have hkind : q.kind = "comment" := List.mem_singleton.mp (List.contains_iff_mem.mp hq)
    rw [parameter?, hkind]
    rfl
  · exact parameter?_uncommented (h.below (p.allBelow_namedIn _ q hq))

theorem elseBody_uncommented :
    elseBody (p.uncommented python) = uncommentedAll python (elseBody p) := by
  rw [elseBody, elseBody, field?_uncommented h.here]
  cases hclause : p.field? "alternative" with
  | none => rfl
  | some clause =>
    have hclause := (h.below (hasBelow_of_field? hclause)).here
    show ((clause.uncommented python).field? "body").toList =
      uncommentedAll python (clause.field? "body").toList
    rw [field?_uncommented hclause]
    exact (uncommentedAll_toList fun _ => isComment_of_field? hclause).symm

theorem forStatement_uncommented :
    forStatement (p.uncommented python) = (forStatement p).uncommented python := by
  rw [forStatement, forStatement, Pattern.uncommented, itemsOf_uncommented h.here (free_of_list h),
    field?_uncommented h.here, parts_uncommented h.here, uncommentedAll_parts h.here,
    elseBody_uncommented h]

theorem forClause_uncommented :
    forClause (p.uncommented python) = (forClause p).uncommented python := by
  rw [forClause, forClause, Pattern.uncommented, itemsOf_uncommented h.here (free_of_list h),
    field?_uncommented h.here]
  rfl

theorem whileStatement_uncommented :
    whileStatement (p.uncommented python) = (whileStatement p).uncommented python := by
  rw [whileStatement, whileStatement, Pattern.uncommented, parts_uncommented h.here,
    uncommentedAll_parts h.here, elseBody_uncommented h]
  rfl

theorem comprehension_uncommented :
    comprehension (p.uncommented python) = (comprehension p).uncommented python := by
  unfold comprehension
  dsimp only
  rw [Pattern.uncommented, parts_uncommented h.here, namedExcept_uncommented,
    uncommentedAll_parts h.here]

/-- The Python table reads past every comment that is no item of an assignment and stands in
no `as` pattern and no typed parameter. -/
theorem pattern_uncommented : pattern (p.uncommented python) = (pattern p).uncommented python := by
  unfold pattern
  rw [kind_uncommented]
  split
  · exact assignment_uncommented h ‹_›
  · exact Pattern.bindFields_uncommented h.here _ _ _
  · exact Pattern.bindFields_uncommented h.here _ _ _
  · exact asPattern_uncommented h ‹_›
  · exact ifStatement_uncommented h
  · exact matchStatement_uncommented h
  · exact forStatement_uncommented h
  · exact forClause_uncommented h
  · exact whileStatement_uncommented h
  · exact Pattern.defineNamed_uncommented h.here (parameters_uncommented h)
  · exact Pattern.defineAnonymous_uncommented h.here (parameters_uncommented h)
  · exact comprehension_uncommented h
  · exact comprehension_uncommented h
  · exact comprehension_uncommented h
  · exact comprehension_uncommented h
  · rfl

end Aside

end Python

/-! ## Java -/

namespace Java

/-- Where the children are counted: the operand of an update, the groups of a `switch`, the
body of a loop without fields, and signs. -/
def countsIn (p : Place) : Bool :=
  p.kind == "update_expression" || p.kind == "for_statement" && (p.field? "body").isNone ||
    p.node.field == some "body" && p.parent.any (·.kind == "switch_expression") || p.isOperator

theorem isDefaultGroup_uncommented (group : Place) :
    isDefaultGroup (group.uncommented java) = isDefaultGroup group := by
  unfold isDefaultGroup
  rw [namedChildren_uncommented, filter_uncommentedAll_eq_map (fun q => by rw [kind_uncommented])
    fun q _ => isComment_of_kind_eq (by decide), List.any_map]
  exact congrArg _ (funext fun q => hasChildKind_uncommented q (by decide))

section Aside

variable (h : java.CommentsAside countsIn p)
include h

theorem parameterName?_uncommented :
    parameterName? (p.uncommented java) = (parameterName? p).map (·.uncommented java) := by
  unfold parameterName?
  rw [kind_uncommented]
  split
  · exact field?_uncommented h.here _
  · rw [childOfKind?_uncommented p (by decide)]
    cases hdeclarator : p.childOfKind? ["variable_declarator"] with
    | none => rfl
    | some declarator =>
      exact field?_uncommented (h.below (hasBelow_of_childOfKind? hdeclarator)).here _
  · rfl
  · rfl

theorem parameters_uncommented :
    parameters (p.uncommented java) = (parameters p).map (·.uncommented java) := by
  unfold parameters
  rw [field?_uncommented h.here]
  cases hlist : p.field? "parameters" with
  | none => rfl
  | some list =>
    have hlist := h.below (hasBelow_of_field? hlist)
    have hnames : (list.uncommented java).namedChildren.filterMap parameterName? =
        (list.namedChildren.filterMap parameterName?).map (·.uncommented java) := by
      rw [namedChildren_uncommented]
      refine filterMap_uncommentedAll (fun q hq => ?_) fun q hq => ?_
      · have hkind : q.kind = "line_comment" ∨ q.kind = "block_comment" := by
          simpa [java] using List.contains_iff_mem.mp hq
        unfold parameterName?
        rcases hkind with hkind | hkind <;> rw [hkind] <;> rfl
      · exact parameterName?_uncommented (hlist.below (list.allBelow_namedChildren q hq))
    simp only [Option.map_some]
    rw [kind_uncommented]
    split
    · rfl
    · rw [hnames, List.map_map, List.map_map]
      rfl

/-- Every child of the body is a group with an arm of its own, so none may be a comment. -/
theorem switch_uncommented (hkind : p.kind = "switch_expression") :
    switch (p.uncommented java) = (switch p).uncommented java := by
  have hgroups : (p.uncommented java).namedIn "body" =
      (p.namedIn "body").map (·.uncommented java) := by
    rw [namedIn_uncommented h.here, namedIn]
    cases hbody : p.field? "body" with
    | none => rfl
    | some body =>
      refine uncommentedAll_namedChildren_of_free ((h.below (hasBelow_of_field? hbody)).free ?_)
      have hparent : body.parent.any (·.kind == "switch_expression") = true := by
        rw [parent_of_field? hbody]
        exact beq_iff_eq.mpr hkind
      have hfield : (body.node.field == some "body") = true := field_of_field? hbody
      rw [countsIn, hparent, hfield, Bool.true_and, Bool.or_true, Bool.true_or]
  unfold switch
  dsimp only
  rw [hgroups, map_namedChildren_uncommented, any_uncommented isDefaultGroup_uncommented,
    parts_uncommented h.here, Pattern.uncommented, uncommentedAll_parts h.here]

theorem method_uncommented : method (p.uncommented java) = (method p).uncommented java := by
  rw [method, method, Pattern.uncommented, parameters_uncommented h, field?_uncommented h.here,
    fields_uncommented h.here, uncommentedAll_fields h.here]

theorem operatorKind_uncommented :
    Pattern.operatorKind (p.uncommented java) = Pattern.operatorKind p :=
  Pattern.operatorKind_uncommented h.here (by decide +kernel) fun _ hq hoperator =>
    (h.below (.child hq)).free (by rw [countsIn, hoperator, Bool.or_true])

/-- The Java table reads past every comment that stands in no update, no sign and no body of a
`switch`, and in no `for` without the field of its body. -/
theorem pattern_uncommented : pattern (p.uncommented java) = (pattern p).uncommented java := by
  have hbind : ∀ kind target value, Pattern.bindFields kind target value (p.uncommented java) =
      (Pattern.bindFields kind target value p).uncommented java :=
    Pattern.bindFields_uncommented h.here
  unfold pattern
  rw [kind_uncommented]
  split
  · exact hbind _ _ _
  · exact hbind _ _ _
  · exact Pattern.declareField_uncommented h.here _
  · rw [operatorKind_uncommented h]
    exact hbind _ _ _
  · rename_i hkind
    exact Pattern.updateFirst_uncommented (h.free (by rw [countsIn, hkind]; rfl))
  · exact Pattern.ifElse_uncommented h.here _ fun q hq => (uncommentedAll_cons _ hq []).symm
  · exact switch_uncommented h ‹_›
  · rename_i hkind
    exact Pattern.threePartLoop_uncommented h.here (by decide) fun hbody =>
      h.free (by rw [countsIn, hkind, hbody]; rfl)
  · exact Pattern.iterateFields_uncommented h.here _ _
  · exact Pattern.loopOver_uncommented h.here _
  · exact Pattern.loopOver_uncommented h.here _
  · exact method_uncommented h
  · exact method_uncommented h
  · exact Pattern.defineAnonymous_uncommented h.here (parameters_uncommented h)
  · rfl

end Aside

end Java

/-! ## C# -/

namespace CSharp

/-- Where the children are counted: values without a node of their own or in one, the operand
of `++` and `--`, a `foreach` and a loop without fields, and signs. -/
def countsIn (p : Place) : Bool :=
  p.kind == "equals_value_clause" ||
    ["variable_declarator", "parameter"].contains p.kind &&
      (p.childOfKind? ["equals_value_clause"]).isNone ||
    ["postfix_unary_expression", "prefix_unary_expression"].contains p.kind &&
      p.children.any (fun c => c.kind == "++" || c.kind == "--") ||
    p.kind == "for_statement" && (p.field? "body").isNone ||
    ["foreach_statement", "for_each_statement"].contains p.kind && (p.field? "left").isNone ||
    p.isOperator

section Aside

variable (h : cSharp.CommentsAside countsIn p)
include h

theorem declaredName?_uncommented :
    declaredName? (p.uncommented cSharp) = (declaredName? p).map (·.uncommented cSharp) := by
  rw [declaredName?, declaredName?, field?_uncommented h.here,
    childOfKind?_uncommented p (by decide),
    Option.map_or]

/-- The value is what follows `=`, in a clause of its own or among the children. -/
theorem initializer_uncommented
    (hkind : ["variable_declarator", "parameter"].contains p.kind = true) :
    initializer (p.uncommented cSharp) = (initializer p).map (·.uncommented cSharp) := by
  unfold initializer
  rw [childOfKind?_uncommented p (by decide)]
  cases hclause : p.childOfKind? ["equals_value_clause"] with
  | some clause =>
    have hclausekind : clause.kind = "equals_value_clause" := by
      have hfound := List.find?_some hclause
      exact List.mem_singleton.mp (List.contains_iff_mem.mp hfound)
    have hfree := (h.below (hasBelow_of_childOfKind? hclause)).free (by
      rw [countsIn, hclausekind]
      rfl)
    exact namedChildren_uncommented_of_free hfree
  | none =>
    have hfree := h.free (by rw [countsIn, hkind, hclause]; simp)
    show (p.uncommented cSharp).namedAfter "=" = _
    rw [namedAfter_uncommented (by decide), uncommentedAll_namedAfter_of_free hfree]

omit h in
theorem parametersIn_uncommented {list : Option Place}
    (h : ∀ q, list = some q → cSharp.CommentsAside countsIn q) :
    parametersIn (list.map (·.uncommented cSharp)) =
      (parametersIn list).map (·.uncommented cSharp) := by
  unfold parametersIn
  cases list with
  | none => rfl
  | some list =>
    simp only [Option.map_some]
    rw [kind_uncommented]
    split
    · rfl
    · rw [namedChildren_uncommented,
        filter_uncommentedAll_eq_map (fun q => by rw [kind_uncommented])
        (fun q _ => isComment_of_kind_eq (by decide)), List.filterMap_map, List.map_filterMap]
      refine List.filterMap_congr fun q hq => ?_
      obtain ⟨hmem, hkind⟩ := List.mem_filter.mp hq
      have hq := (h list rfl).below (list.allBelow_namedChildren q hmem)
      have hkind : ["variable_declarator", "parameter"].contains q.kind = true := by
        rw [beq_iff_eq.mp hkind]
        decide
      rw [Function.comp, declaredName?_uncommented hq, initializer_uncommented hq hkind,
        List.head?_map, Option.map_map, Option.map_map]
      rfl

theorem parameters_uncommented :
    parameters (p.uncommented cSharp) = (parameters p).map (·.uncommented cSharp) := by
  rw [parameters, field?_uncommented h.here]
  exact parametersIn_uncommented fun q hq => h.below (hasBelow_of_field? hq)

omit h in
theorem isDefaultSection_uncommented (group : Place) :
    isDefaultSection (group.uncommented cSharp) = isDefaultSection group := by
  rw [isDefaultSection, hasChildKind_uncommented group (by decide),
    childOfKind?_uncommented group (by decide), Option.isSome_map]
  rfl

theorem switch_uncommented : switch (p.uncommented cSharp) = (switch p).uncommented cSharp := by
  have hbody : ((p.uncommented cSharp).field? "body").or
      ((p.uncommented cSharp).childOfKind? ["switch_body"]) =
      ((p.field? "body").or (p.childOfKind? ["switch_body"])).map (·.uncommented cSharp) := by
    rw [field?_uncommented h.here, childOfKind?_uncommented p (by decide), Option.map_or]
  unfold switch
  dsimp only
  rw [hbody, firstFields_uncommented h.here]
  generalize (p.field? "body").or (p.childOfKind? ["switch_body"]) = body
  generalize hsubject : p.firstFields ["value", "expression"] = subject
  have hcondition : (if (subject.map (·.uncommented cSharp)).isEmpty then
        (p.uncommented cSharp).namedExcept (body.map (·.uncommented cSharp)).toList
      else subject.map (·.uncommented cSharp)) =
      uncommentedAll cSharp (if subject.isEmpty then p.namedExcept body.toList else subject) := by
    rw [List.isEmpty_map, Option.toList_map]
    split
    · exact namedExcept_uncommented p body.toList
    · rw [← hsubject, uncommentedAll_firstFields h.here]
  have hsections : (((body.map (·.uncommented cSharp)).map namedChildren).getD []).filter
        (·.kind == "switch_section") =
      (((body.map namedChildren).getD []).filter (·.kind == "switch_section")).map
        (·.uncommented cSharp) := by
    cases body with
    | none => rfl
    | some body =>
      simp only [Option.map_some, Option.getD_some]
      rw [namedChildren_uncommented]
      exact filter_uncommentedAll_eq_map (fun q => by rw [kind_uncommented])
        fun q _ => isComment_of_kind_eq (by decide)
  rw [hcondition, hsections, map_namedChildren_uncommented,
    any_uncommented isDefaultSection_uncommented,
    Pattern.uncommented]

theorem unary_uncommented
    (hkind : ["postfix_unary_expression", "prefix_unary_expression"].contains p.kind = true) :
    unary (p.uncommented cSharp) = (unary p).uncommented cSharp := by
  have hany : (p.uncommented cSharp).children.any (fun c => c.kind == "++" || c.kind == "--") =
      p.children.any fun c => c.kind == "++" || c.kind == "--" := by
    rw [children_uncommented]
    exact any_uncommentedAll (fun q => by rw [kind_uncommented])
      fun q _ => isComment_of_kind_or (by decide) (by decide)
  unfold unary
  rw [hany]
  split
  · rename_i hsigns
    exact Pattern.updateFirst_uncommented (h.free (by rw [countsIn, hkind, hsigns]; simp))
  · rfl

/-- Without fields the target is the last name ahead of `in`, and the iterated value comes first
behind it. -/
theorem forEach_uncommented
    (hkind : ["foreach_statement", "for_each_statement"].contains p.kind = true) :
    forEach (p.uncommented cSharp) = (forEach p).uncommented cSharp := by
  unfold forEach
  rw [field?_uncommented h.here, parts_uncommented h.here]
  cases hleft : p.field? "left" with
  | some left =>
    simp only [Option.map_some, Pattern.uncommented]
    rw [field?_uncommented h.here, uncommentedAll_cons _ (isComment_of_field? h.here hleft),
      uncommentedAll_parts h.here]
    rfl
  | none =>
    have hfree := h.free (by rw [countsIn, hkind, hleft]; simp)
    have hbefore : (p.uncommented cSharp).namedBefore "in" =
        (p.namedBefore "in").map (·.uncommented cSharp) := by
      rw [namedBefore_uncommented (by decide)]
      exact uncommentedAll_of_forall _ fun q hq =>
        hfree q ((List.takeWhile_sublist _).subset (List.mem_filter.mp hq).1)
    have htarget : ∀ q, (p.namedBefore "in").reverse.find?
        (fun c => c.kind == "identifier" || c.kind == "tuple_pattern") = some q →
          cSharp.isComment q.kind = false := by
      intro q hq
      have hmem := List.mem_reverse.mp (List.mem_of_find?_eq_some hq)
      exact hfree q ((List.takeWhile_sublist _).subset (List.mem_filter.mp hmem).1)
    simp only [Option.map_none, Pattern.uncommented]
    rw [hbefore, namedAfter_uncommented (by decide), uncommentedAll_namedAfter_of_free hfree,
      List.head?_map, ← List.map_reverse, List.find?_map, uncommentedAll_toList htarget,
      uncommentedAll_parts h.here]
    simp only [Function.comp_def, kind_uncommented]
    rfl

theorem anonymousMethod_uncommented :
    anonymousMethod (p.uncommented cSharp) = (anonymousMethod p).uncommented cSharp := by
  have hlist : ∀ q, (p.field? "parameters").or (p.childOfKind? ["parameter_list"]) = some q →
      cSharp.CommentsAside countsIn q := by
    intro q hq
    rcases Option.or_eq_some_iff.mp hq with hq | ⟨-, hq⟩
    · exact h.below (hasBelow_of_field? hq)
    · exact h.below (hasBelow_of_childOfKind? hq)
  rw [anonymousMethod, anonymousMethod, Pattern.uncommented, field?_uncommented h.here,
    childOfKind?_uncommented p (by decide), childOfKind?_uncommented p (by decide),
    ← Option.map_or, parametersIn_uncommented hlist,
    uncommentedAll_toList fun _ => isComment_of_childOfKind? (by decide)]
  rfl

theorem operatorKind_uncommented :
    Pattern.operatorKind (p.uncommented cSharp) = Pattern.operatorKind p :=
  Pattern.operatorKind_uncommented h.here (by decide +kernel) fun _ hq hoperator =>
    (h.below (.child hq)).free (by rw [countsIn, hoperator, Bool.or_true])

/-- The C# table reads past every comment where it counts no children, though it counts them in
more constructs than any other table. -/
theorem pattern_uncommented : pattern (p.uncommented cSharp) = (pattern p).uncommented cSharp := by
  unfold pattern
  rw [kind_uncommented]
  split
  · rename_i hkind
    rw [declaredName?_uncommented h, initializer_uncommented h (by rw [hkind]; decide),
      Option.toList_map]
    rfl
  · exact Pattern.declareField_uncommented h.here _
  · rw [operatorKind_uncommented h]
    exact Pattern.bindFields_uncommented h.here _ _ _
  · exact unary_uncommented h (by rw [‹p.kind = _›]; decide)
  · exact unary_uncommented h (by rw [‹p.kind = _›]; decide)
  · exact Pattern.ifElse_uncommented h.here _ fun q hq => (uncommentedAll_cons _ hq []).symm
  · exact switch_uncommented h
  · rename_i hkind
    exact Pattern.threePartLoop_uncommented h.here (by decide) fun hbody =>
      h.free (by rw [countsIn, hkind, hbody]; simp)
  · exact forEach_uncommented h (by rw [‹p.kind = _›]; decide)
  · exact forEach_uncommented h (by rw [‹p.kind = _›]; decide)
  · exact Pattern.loopOver_uncommented h.here _
  · exact Pattern.loopOver_uncommented h.here _
  · exact Pattern.defineNamed_uncommented h.here (parameters_uncommented h)
  · exact Pattern.defineNamed_uncommented h.here (parameters_uncommented h)
  · exact Pattern.defineNamed_uncommented h.here (parameters_uncommented h)
  · exact Pattern.defineAnonymous_uncommented h.here (parameters_uncommented h)
  · exact anonymousMethod_uncommented h
  · rfl

end Aside

end CSharp

/-! ## JavaScript -/

namespace JavaScript

/-- Where the children are counted: the operand of an update and the body of a loop, if they
are in no field. -/
def countsIn (p : Place) : Bool :=
  p.kind == "update_expression" && (p.field? "argument").isNone ||
    p.kind == "for_statement" && (p.field? "body").isNone

theorem parameter_uncommented (h : javaScript.Fieldless p) :
    parameter (p.uncommented javaScript) = (parameter p).uncommented javaScript := by
  unfold parameter
  rw [kind_uncommented, field?_uncommented h, field?_uncommented h, Option.getD_map]
  split <;> rfl

section Aside

variable (h : javaScript.CommentsAside countsIn p)
include h

omit h in
/-- A list of parameters is read by its children; an arrow with one bare name has no list. -/
theorem parametersIn_uncommented {lists : List Place}
    (hcomment : ∀ q ∈ lists, javaScript.isComment q.kind = false)
    (h : ∀ q ∈ lists, javaScript.CommentsAside countsIn q) :
    parametersIn (lists.map (·.uncommented javaScript)) =
      (parametersIn lists).map (·.uncommented javaScript) := by
  have hkept : ∀ q : Place, (q.kind != "comment") = true → javaScript.isComment q.kind = false := by
    intro q hq
    exact Bool.eq_false_iff.mpr fun hcomment =>
      bne_iff_ne.mp hq (List.mem_singleton.mp (List.contains_iff_mem.mp hcomment))
  unfold parametersIn
  dsimp only
  rw [flatMap_uncommented fun q hq => ?items,
    filter_uncommentedAll_eq_map (fun q => by rw [kind_uncommented]) fun q _ => hkept q,
    List.map_map, List.map_map]
  case items =>
    rw [kind_uncommented, namedChildren_uncommented]
    split
    · rfl
    · exact (uncommentedAll_cons _ (hcomment q hq) []).symm
  refine List.map_congr_left fun q hq => parameter_uncommented ?_
  obtain ⟨list, hlist, hq⟩ := List.mem_flatMap.mp (List.mem_filter.mp hq).1
  split at hq
  · exact ((h list hlist).below (list.allBelow_namedChildren q hq)).here
  · exact List.mem_singleton.mp hq ▸ (h list hlist).here

theorem switch_uncommented :
    switch (p.uncommented javaScript) = (switch p).uncommented javaScript := by
  unfold switch
  dsimp only
  rw [namedIn_uncommented h.here, parts_uncommented h.here, Pattern.uncommented,
    uncommentedAll_parts h.here, arms_uncommented (fun q => by rw [kind_uncommented])
      (fun q _ => isComment_of_kind_or (by decide) (by decide)),
    any_uncommentedAll (fun q => by rw [kind_uncommented])
      fun q _ => isComment_of_kind_eq (by decide)]

theorem function_uncommented :
    Pattern.defineNamed (parametersIn ((p.uncommented javaScript).parts ["parameters"]))
        (p.uncommented javaScript) =
      (Pattern.defineNamed (parametersIn (p.parts ["parameters"])) p).uncommented javaScript := by
  refine Pattern.defineNamed_uncommented h.here ?_
  rw [parts_uncommented h.here]
  exact parametersIn_uncommented (fun _ => isComment_of_mem_parts h.here) fun q hq =>
    h.below (p.allBelow_parts _ q hq)

theorem arrow_uncommented :
    Pattern.defineAnonymous
        (parametersIn ((p.uncommented javaScript).firstFields ["parameters", "parameter"]))
        (p.uncommented javaScript) =
      (Pattern.defineAnonymous (parametersIn (p.firstFields ["parameters", "parameter"]))
        p).uncommented javaScript := by
  refine Pattern.defineAnonymous_uncommented h.here ?_
  rw [firstFields_uncommented h.here]
  exact parametersIn_uncommented (fun _ => isComment_of_mem_firstFields h.here) fun q hq =>
    h.below (p.allBelow_firstFields _ q hq)

/-- The JavaScript table reads past comments: it counts children only where the field of an
operand or of a body is missing. -/
theorem pattern_uncommented :
    pattern (p.uncommented javaScript) = (pattern p).uncommented javaScript := by
  have hbind : ∀ kind target value,
      Pattern.bindFields kind target value (p.uncommented javaScript) =
      (Pattern.bindFields kind target value p).uncommented javaScript :=
    Pattern.bindFields_uncommented h.here
  unfold pattern
  rw [kind_uncommented]
  split
  · exact hbind _ _ _
  · exact hbind _ _ _
  · exact hbind _ _ _
  · rename_i hkind
    exact Pattern.updateFieldOr_uncommented h.here fun hnone =>
      h.free (by rw [countsIn, hkind, hnone]; rfl)
  · exact Pattern.ifElse_uncommented h.here _ fun q _ => namedChildren_uncommented _ q
  · exact switch_uncommented h
  · rename_i hkind
    exact Pattern.threePartLoop_uncommented h.here (by decide) fun hnone =>
      h.free (by rw [countsIn, hkind, hnone]; exact Bool.or_true _)
  · exact Pattern.iterateFields_uncommented h.here _ _
  · exact Pattern.loopOver_uncommented h.here _
  · exact Pattern.loopOver_uncommented h.here _
  · exact arrow_uncommented h
  all_goals first | exact function_uncommented h | rfl

end Aside

end JavaScript

/-! ## PHP -/

namespace Php

/-- Where the children are counted: as in JavaScript, and in each `foreach`. -/
def countsIn (p : Place) : Bool :=
  p.kind == "foreach_statement" ||
    p.kind == "update_expression" && (p.field? "argument").isNone ||
    p.kind == "for_statement" && (p.field? "body").isNone

section Aside

variable (h : php.CommentsAside countsIn p)
include h

theorem parameters_uncommented :
    parameters (p.uncommented php) = (parameters p).map (·.uncommented php) := by
  rw [parameters, namedIn_uncommented h.here,
    filter_uncommentedAll_eq_map (f := isParameter)
      (fun q => by rw [isParameter, kind_uncommented]; rfl)
      fun q _ => isComment_of_kind (by decide), List.filterMap_map, parameters, List.map_filterMap]
  refine List.filterMap_congr fun q hq => ?_
  have hq := h.below (p.allBelow_namedIn _ q (List.mem_filter.mp hq).1)
  exact Parameter.of_fields_uncommented hq.here _ _

theorem ifStatement_uncommented :
    ifStatement (p.uncommented php) = (ifStatement p).uncommented php := by
  refine Pattern.clauses_uncommented h.here _ _ _ (fun clause hclause => ?_) fun q => ?_
  · have hbelow := h.below (p.allBelow_fields _ clause hclause)
    unfold clauseArm
    rw [kind_uncommented]
    split <;> rw [parts_uncommented hbelow.here, uncommentedAll_parts hbelow.here]
  · rw [kind_uncommented]

/-- The iterated value and the target are the first two children beside the body, whether the
body is in a field or last. -/
theorem forEach_uncommented (hkind : p.kind = "foreach_statement") :
    forEach (p.uncommented php) = (forEach p).uncommented php := by
  have hfree : php.CommentFree p := h.free (by rw [countsIn, hkind]; rfl)
  have hbody : ((p.uncommented php).field? "body").or (p.uncommented php).namedChildren.getLast? =
      ((p.field? "body").or p.namedChildren.getLast?).map (·.uncommented php) := by
    rw [field?_uncommented h.here, namedChildren_uncommented_of_free hfree, List.getLast?_map,
      Option.map_or]
  unfold forEach
  dsimp only
  rw [hbody]
  have hcomment : ∀ q, (p.field? "body").or p.namedChildren.getLast? = some q →
      php.isComment q.kind = false := by
    intro q hq
    rcases Option.or_eq_some_iff.mp hq with hq | ⟨-, hq⟩
    · exact isComment_of_field? h.here hq
    · exact hfree q (List.mem_filter.mp (List.mem_of_getLast? hq)).1
  generalize (p.field? "body").or p.namedChildren.getLast? = body at hcomment ⊢
  have hoperands : (p.uncommented php).namedExcept (body.map (·.uncommented php)).toList =
      (p.namedExcept body.toList).map (·.uncommented php) := by
    rw [Option.toList_map, namedExcept_uncommented, uncommentedAll_namedExcept_of_free hfree]
  have htargets : uncommentedAll php (((p.namedExcept body.toList).drop 1).take 1) =
      (((p.namedExcept body.toList).drop 1).take 1).map (·.uncommented php) :=
    uncommentedAll_of_forall _ fun q hq => hfree q (List.mem_filter.mp (List.mem_filter.mp
      (List.mem_of_mem_drop (List.mem_of_mem_take hq))).1).1
  rw [hoperands, Pattern.uncommented, uncommentedAll_toList hcomment, htargets, List.map_take,
    List.map_drop, List.head?_map]
  rfl

theorem switch_uncommented : switch (p.uncommented php) = (switch p).uncommented php := by
  unfold switch
  dsimp only
  rw [namedIn_uncommented h.here, parts_uncommented h.here, Pattern.uncommented,
    uncommentedAll_parts h.here, arms_uncommented (fun q => by rw [kind_uncommented])
      (fun q _ => isComment_of_kind_or (by decide) (by decide)),
    any_uncommentedAll (fun q => by rw [kind_uncommented])
      fun q _ => isComment_of_kind_eq (by decide)]

/-- The PHP table reads past every comment outside a `foreach`, but for the operands and the
bodies that are in no field. -/
theorem pattern_uncommented : pattern (p.uncommented php) = (pattern p).uncommented php := by
  have hbind : ∀ kind target value, Pattern.bindFields kind target value (p.uncommented php) =
      (Pattern.bindFields kind target value p).uncommented php :=
    Pattern.bindFields_uncommented h.here
  unfold pattern
  rw [kind_uncommented]
  split
  · exact hbind _ _ _
  · exact hbind _ _ _
  · exact hbind _ _ _
  · rename_i hkind
    exact Pattern.updateFieldOr_uncommented h.here fun hnone =>
      h.free (by rw [countsIn, hkind, hnone]; rfl)
  · exact ifStatement_uncommented h
  · exact switch_uncommented h
  · rename_i hkind
    exact Pattern.threePartLoop_uncommented h.here (by decide) fun hnone =>
      h.free (by rw [countsIn, hkind, hnone]; exact Bool.or_true _)
  · exact forEach_uncommented h ‹_›
  · exact Pattern.loopOver_uncommented h.here _
  · exact Pattern.loopOver_uncommented h.here _
  · exact Pattern.defineNamed_uncommented h.here (parameters_uncommented h)
  · exact Pattern.defineNamed_uncommented h.here (parameters_uncommented h)
  · exact Pattern.defineAnonymous_uncommented h.here (parameters_uncommented h)
  · exact Pattern.defineAnonymous_uncommented h.here (parameters_uncommented h)
  · exact Pattern.defineAnonymous_uncommented h.here (parameters_uncommented h)
  · rfl

end Aside

end Php

/-! ## Ruby -/

namespace Ruby

/-- Where the children are counted: the lists of an assignment. -/
def countsIn (p : Place) : Bool :=
  p.isCountedList ruby listKinds ["assignment"]

section Aside

variable (h : ruby.CommentsAside countsIn p)
include h

theorem assignment_uncommented (hkind : p.kind = "assignment") (field : String) :
    (p.uncommented ruby).itemsOf field listKinds =
      (p.itemsOf field listKinds).map (·.uncommented ruby) := by
  have hparent : ["assignment"].contains p.kind = true := by
    rw [hkind]
    decide
  have hcounted : ∀ q, p.field? field = some q →
      q.isCountedList ruby listKinds ["assignment"] = true → ruby.CommentFree q :=
    fun q hq => (h.below (hasBelow_of_field? hq)).free
  rw [itemsOf_uncommented h.here hcounted, uncommentedAll_itemsOf h.here hcounted hparent]

theorem parameter?_uncommented :
    parameter? (p.uncommented ruby) = (parameter? p).map (·.uncommented ruby) := by
  unfold parameter?
  rw [kind_uncommented]
  split
  · rfl
  · rfl
  · exact Parameter.of_fields_uncommented h.here _ _
  · exact Parameter.of_fields_uncommented h.here _ _
  · exact Parameter.of_field_uncommented h.here _
  · exact Parameter.of_field_uncommented h.here _
  · exact Parameter.of_field_uncommented h.here _
  · rfl

omit h in
theorem parameter?_of_comment {q : Place} (hq : ruby.isComment q.kind = true) :
    parameter? q = none := by
  have hkind : q.kind = "comment" := List.mem_singleton.mp (List.contains_iff_mem.mp hq)
  rw [parameter?, hkind]
  rfl

theorem parameters_uncommented :
    parameters (p.uncommented ruby) = (parameters p).map (·.uncommented ruby) := by
  rw [parameters, namedIn_uncommented h.here]
  exact filterMap_uncommentedAll (fun _ => parameter?_of_comment) fun q hq =>
    parameter?_uncommented (h.below (p.allBelow_namedIn _ q hq))

/-- The names of the parameters become the targets of a block, none of them a comment. -/
theorem isComment_of_parameter? {q : Parameter} (hq : parameter? p = some q) :
    ruby.isComment q.name.kind = false := by
  have hfield : ∀ {field : String} {f : Place → Parameter}, (∀ name, (f name).name = name) →
      (p.field? field).map f = some q → ruby.isComment q.name.kind = false := by
    intro field f hf hq
    obtain ⟨name, hname, rfl⟩ := Option.map_eq_some_iff.mp hq
    rw [hf]
    exact isComment_of_field? h.here hname
  have hself : some ({ name := p } : Parameter) = some q → ruby.isComment p.kind = false →
      ruby.isComment q.name.kind = false := by
    rintro ⟨⟩ hp
    exact hp
  unfold parameter? at hq
  split at hq
  · exact hself hq (by rw [‹p.kind = _›]; decide)
  · exact hself hq (by rw [‹p.kind = _›]; decide)
  · exact hfield (fun _ => rfl) hq
  · exact hfield (fun _ => rfl) hq
  · exact hfield (fun _ => rfl) hq
  · exact hfield (fun _ => rfl) hq
  · exact hfield (fun _ => rfl) hq
  · exact nomatch hq

theorem bodyOr_uncommented (fields : List String) :
    bodyOr (p.uncommented ruby) fields = uncommentedAll ruby (bodyOr p fields) := by
  unfold bodyOr
  rw [field?_uncommented h.here, parts_uncommented h.here]
  cases hbody : p.field? "body" with
  | some body => exact (uncommentedAll_cons _ (isComment_of_field? h.here hbody) []).symm
  | none => exact namedExcept_uncommented p _

theorem method_uncommented : method (p.uncommented ruby) = (method p).uncommented ruby := by
  rw [method, method, Pattern.uncommented, parameters_uncommented h, field?_uncommented h.here,
    bodyOr_uncommented h]

theorem block_uncommented : block (p.uncommented ruby) = (block p).uncommented ruby := by
  have htargets : uncommentedAll ruby ((parameters p).map (·.name)) =
      ((parameters p).map (·.name)).map (·.uncommented ruby) := by
    refine uncommentedAll_of_forall _ fun q hq => ?_
    obtain ⟨parameter, hparameter, rfl⟩ := List.mem_map.mp hq
    obtain ⟨declared, hdeclared, hname⟩ := List.mem_filterMap.mp hparameter
    exact isComment_of_parameter? (h.below (p.allBelow_namedIn _ declared hdeclared)) hname
  rw [block, block, Pattern.uncommented, parameters_uncommented h, htargets, blockBody, blockBody,
    bodyOr_uncommented h, List.map_map, List.map_map]
  rfl

/-- The body of a lambda is a block of its own or any other expression. -/
theorem lambda_uncommented : lambda (p.uncommented ruby) = (lambda p).uncommented ruby := by
  unfold lambda
  rw [parameters_uncommented h, field?_uncommented h.here]
  cases hbody : p.field? "body" with
  | none => rfl
  | some body =>
    simp only [Option.map_some, Pattern.uncommented, kind_uncommented]
    split
    · rw [blockBody, blockBody, bodyOr_uncommented (h.below (hasBelow_of_field? hbody))]
      rfl
    · rw [uncommentedAll_cons _ (isComment_of_field? h.here hbody)]
      rfl

theorem caseOf_uncommented : caseOf (p.uncommented ruby) = (caseOf p).uncommented ruby := by
  unfold caseOf
  rw [namedChildren_uncommented, parts_uncommented h.here, Pattern.uncommented,
    uncommentedAll_parts h.here,
    arms_uncommented (f := isArm) (fun q => by rw [isArm, kind_uncommented]; rfl)
      (fun q _ => isComment_of_kind_or (by decide) (by decide)),
    any_uncommentedAll (fun q => by rw [kind_uncommented])
      fun q _ => isComment_of_kind_eq (by decide)]

theorem guarded_uncommented : guarded (p.uncommented ruby) = (guarded p).uncommented ruby := by
  rw [guarded, guarded, Pattern.uncommented, parts_uncommented h.here, parts_uncommented h.here,
    uncommentedAll_parts h.here, List.map_singleton, uncommentedAll_parts h.here]

/-- The Ruby table reads past every comment that is no item of an assignment: all other parts
are found by their fields, by their kinds, or as all the children but some. -/
theorem pattern_uncommented : pattern (p.uncommented ruby) = (pattern p).uncommented ruby := by
  unfold pattern
  rw [kind_uncommented]
  split
  · rename_i hkind
    rw [assignment_uncommented h hkind, assignment_uncommented h hkind]
    rfl
  · exact Pattern.bindFields_uncommented h.here _ _ _
  · exact Pattern.ifElse_uncommented h.here _ fun q hq => (uncommentedAll_cons _ hq []).symm
  · exact Pattern.ifElse_uncommented h.here _ fun q hq => (uncommentedAll_cons _ hq []).symm
  · exact Pattern.ifElse_uncommented h.here _ fun q hq => (uncommentedAll_cons _ hq []).symm
  · exact guarded_uncommented h
  · exact guarded_uncommented h
  · exact Pattern.loopOver_uncommented h.here _
  · exact Pattern.loopOver_uncommented h.here _
  · exact Pattern.loopOver_uncommented h.here _
  · exact Pattern.loopOver_uncommented h.here _
  · exact Pattern.iterateFields_uncommented h.here _ _
  · exact caseOf_uncommented h
  · exact method_uncommented h
  · exact method_uncommented h
  · exact block_uncommented h
  · exact block_uncommented h
  · exact lambda_uncommented h
  · rfl

end Aside

end Ruby

/-! ## Go -/

namespace Go

/-- Constructs of which the values are paired with the targets. -/
def pairing : List String :=
  ["var_spec", "const_spec", "short_var_declaration", "assignment_statement"]

/-- Where the children are counted: paired lists, the operand of `++` and `--`, and signs. -/
def countsIn (p : Place) : Bool :=
  p.isCountedList go listKinds pairing || ["inc_statement", "dec_statement"].contains p.kind ||
    p.isOperator

section Aside

variable (h : go.CommentsAside countsIn p)
include h

theorem free_of_list {field : String} (q : Place) (hq : p.field? field = some q)
    (hlist : q.isCountedList go listKinds pairing = true) : go.CommentFree q :=
  (h.below (hasBelow_of_field? hq)).free (by rw [countsIn, hlist]; rfl)

/-- The items of a list that is paired with another. -/
theorem pairedItems_uncommented (hkind : pairing.contains p.kind = true) (field : String) :
    (p.uncommented go).itemsOf field listKinds =
      (p.itemsOf field listKinds).map (·.uncommented go) := by
  rw [itemsOf_uncommented h.here (free_of_list h),
    uncommentedAll_itemsOf h.here (free_of_list h) hkind]

theorem bindItems_uncommented (hkind : pairing.contains p.kind = true) (kind : BindingKind) :
    bindItems kind (p.uncommented go) = (bindItems kind p).uncommented go := by
  rw [bindItems, pairedItems_uncommented h hkind, pairedItems_uncommented h hkind]
  rfl

theorem declare_uncommented (hkind : pairing.contains p.kind = true) :
    Pattern.binding ⟨.declaration, (p.uncommented go).fields "name",
        (p.uncommented go).itemsOf "value" listKinds⟩ =
      (Pattern.binding ⟨.declaration, p.fields "name",
        p.itemsOf "value" listKinds⟩).uncommented go := by
  rw [fields_uncommented h.here, pairedItems_uncommented h hkind]
  rfl

theorem parametersIn_uncommented (fields : List String) :
    parametersIn fields (p.uncommented go) = (parametersIn fields p).map (·.uncommented go) := by
  unfold parametersIn
  dsimp only
  rw [parts_uncommented h.here,
    flatMap_uncommented fun q _ => namedChildren_uncommented go q,
    filter_uncommentedAll_eq_map (fun q => by rw [kind_uncommented])
      (fun q _ => isComment_of_kind_or (by decide) (by decide)), List.flatMap_map, List.map_map]
  generalize hnames : (p.parts fields).flatMap namedChildren = declared
  have hfields : ∀ q ∈ declared, (q.uncommented go).fields "name" =
      (q.fields "name").map (·.uncommented go) := by
    subst hnames
    intro q hq
    obtain ⟨list, hlist, hq⟩ := List.mem_flatMap.mp hq
    have hlist := h.below (p.allBelow_parts _ list hlist)
    exact fields_uncommented (hlist.below (list.allBelow_namedChildren q hq)).here _
  rw [List.flatMap_congr fun q hq => hfields q (List.mem_filter.mp hq).1, ← List.map_flatMap,
    List.map_map]
  rfl

/-- A `for` over a range, with a clause of three parts, or with a condition alone. -/
theorem forStatement_uncommented :
    forStatement (p.uncommented go) = (forStatement p).uncommented go := by
  unfold forStatement
  dsimp only
  rw [childOfKind?_uncommented p (by decide), childOfKind?_uncommented p (by decide),
    parts_uncommented h.here]
  cases hrange : p.childOfKind? ["range_clause"] with
  | some clause =>
    have hclause := h.below (hasBelow_of_childOfKind? hrange)
    simp only [Option.map_some, Pattern.uncommented]
    rw [itemsOf_uncommented hclause.here (free_of_list hclause), field?_uncommented hclause.here,
      uncommentedAll_parts h.here]
    rfl
  | none =>
    cases hheader : p.childOfKind? ["for_clause"] with
    | some clause =>
      have hclause := (h.below (hasBelow_of_childOfKind? hheader)).here
      simp only [Option.map_none, Option.map_some, Pattern.uncommented, uncommentedAll_append]
      rw [fields_uncommented hclause, fields_uncommented hclause, fields_uncommented hclause,
        uncommentedAll_fields hclause, uncommentedAll_fields hclause, uncommentedAll_fields hclause,
        uncommentedAll_parts h.here]
      rfl
    | none =>
      simp only [Option.map_none, Pattern.uncommented, uncommentedAll_append]
      rw [namedExcept_uncommented, uncommentedAll_parts h.here]
      rfl

theorem switch_uncommented : switch (p.uncommented go) = (switch p).uncommented go := by
  unfold switch
  rw [Pattern.uncommented, uncommentedAll_append, uncommentedAll_append,
    uncommentedAll_fields h.here, uncommentedAll_fields h.here, uncommentedAll_fields h.here,
    fields_uncommented h.here, fields_uncommented h.here, fields_uncommented h.here,
    namedChildren_uncommented,
    arms_uncommented (f := isArm) (fun q => by rw [isArm, kind_uncommented]; rfl)
      (fun q _ => isComment_of_kind (by decide)),
    any_uncommentedAll (fun q => by rw [kind_uncommented])
      fun q _ => isComment_of_kind_eq (by decide)]

theorem operatorKind_uncommented :
    Pattern.operatorKind (p.uncommented go) = Pattern.operatorKind p :=
  Pattern.operatorKind_uncommented h.here (by decide +kernel) fun _ hq hoperator =>
    (h.below (.child hq)).free (by rw [countsIn, hoperator, Bool.or_true])

/-- The Go table reads past every comment outside paired lists, `++`, `--` and signs. -/
theorem pattern_uncommented : pattern (p.uncommented go) = (pattern p).uncommented go := by
  unfold pattern
  rw [kind_uncommented]
  split
  · exact declare_uncommented h (by rw [‹p.kind = _›]; decide)
  · exact declare_uncommented h (by rw [‹p.kind = _›]; decide)
  · exact bindItems_uncommented h (by rw [‹p.kind = _›]; decide) _
  · rw [operatorKind_uncommented h]
    exact bindItems_uncommented h (by rw [‹p.kind = _›]; decide) _
  · exact Pattern.updateFirst_uncommented (h.free (by rw [countsIn, ‹p.kind = _›]; simp))
  · exact Pattern.updateFirst_uncommented (h.free (by rw [countsIn, ‹p.kind = _›]; simp))
  · exact Pattern.ifElse_uncommented h.here _ fun q hq => (uncommentedAll_cons _ hq []).symm
  · exact switch_uncommented h
  · exact switch_uncommented h
  · exact forStatement_uncommented h
  · exact Pattern.defineNamed_uncommented h.here (parametersIn_uncommented h _)
  · exact Pattern.defineNamed_uncommented h.here (parametersIn_uncommented h _)
  · exact Pattern.defineAnonymous_uncommented h.here (parametersIn_uncommented h _)
  · rfl

end Aside

end Go

end Language

end TokenFlow
