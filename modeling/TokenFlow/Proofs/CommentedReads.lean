import TokenFlow.Proofs.Comments

/-!
# Finding parts in spite of comments

The tables find the parts of a construct by field, by kind, by number and by position.  Each
way of finding parts leads to the same parts in the tree without comments, provided that no
comment carries a field (`Language.Fieldless`) and, where children are counted, that none of
them is a comment (`Language.CommentFree`).
-/
namespace TokenFlow

/-- No comment directly in the place is stored under a field. -/
def Language.Fieldless (l : Language) (p : Place) : Prop :=
  ∀ q ∈ p.children, l.isComment q.kind = true → q.node.field = none

/-- No comment stands directly in the place. -/
def Language.CommentFree (l : Language) (p : Place) : Prop :=
  ∀ q ∈ p.children, l.isComment q.kind = false

namespace Place

variable {l : Language} {p : Place}

/-! ## Lists without comments -/

theorem uncommentedAll_append (ps qs : List Place) :
    uncommentedAll l (ps ++ qs) = uncommentedAll l ps ++ uncommentedAll l qs := by
  rw [uncommentedAll, List.filter_append, List.map_append]
  rfl

theorem mem_uncommentedAll {ps : List Place} {q : Place} :
    q ∈ uncommentedAll l ps ↔ ∃ p ∈ ps, l.isComment p.kind = false ∧ p.uncommented l = q := by
  simp only [uncommentedAll, List.mem_map, List.mem_filter, Bool.not_eq_true', and_assoc]

theorem uncommentedAll_toList {o : Option Place}
    (h : ∀ q, o = some q → l.isComment q.kind = false) :
    uncommentedAll l o.toList = (o.map (·.uncommented l)).toList := by
  cases o with
  | none => rfl
  | some q => exact uncommentedAll_cons l (h q rfl) []

section Chosen

variable {ps : List Place} {f g : Place → Bool} (hf : ∀ q, g (q.uncommented l) = f q)
include hf

/-- What is chosen alike with and without comments. -/
theorem filter_uncommentedAll :
    (uncommentedAll l ps).filter g = uncommentedAll l (ps.filter f) := by
  rw [uncommentedAll, uncommentedAll, List.filter_map, List.filter_filter, List.filter_filter]
  refine congrArg _ (List.filter_congr fun q _ => ?_)
  rw [Function.comp, hf, Bool.and_comm]

variable (hps : ∀ q ∈ ps, f q = true → l.isComment q.kind = false)
include hps

/-- What is chosen and is never a comment is mapped one by one. -/
theorem filter_uncommentedAll_eq_map :
    (uncommentedAll l ps).filter g = (ps.filter f).map (·.uncommented l) := by
  rw [filter_uncommentedAll hf, uncommentedAll_of_forall]
  intro q hq
  obtain ⟨hq, hfq⟩ := List.mem_filter.mp hq
  exact hps q hq hfq

theorem find?_uncommentedAll :
    (uncommentedAll l ps).find? g = (ps.find? f).map (·.uncommented l) := by
  rw [← List.head?_filter, ← List.head?_filter, filter_uncommentedAll_eq_map hf hps, List.head?_map]

theorem any_uncommentedAll : (uncommentedAll l ps).any g = ps.any f := by
  rw [Bool.eq_iff_iff, List.any_eq_true, List.any_eq_true]
  constructor
  · rintro ⟨_, hmem, hgq⟩
    obtain ⟨q, hq, -, rfl⟩ := mem_uncommentedAll.mp hmem
    exact ⟨q, hq, hf q ▸ hgq⟩
  · rintro ⟨q, hq, hfq⟩
    exact ⟨_, mem_uncommentedAll.mpr ⟨q, hq, hps q hq hfq, rfl⟩, (hf q).trans hfq⟩

end Chosen

/-- A place of one of the given kinds is no comment. -/
theorem isComment_of_kind {kinds : List String} (hkinds : ∀ k ∈ kinds, l.isComment k = false)
    (h : kinds.contains p.kind = true) : l.isComment p.kind = false :=
  hkinds _ (List.contains_iff_mem.mp h)

theorem isComment_of_kind_eq {kind : String} (hkind : l.isComment kind = false)
    (h : (p.kind == kind) = true) : l.isComment p.kind = false :=
  beq_iff_eq.mp h ▸ hkind

theorem isComment_of_kind_or {kind other : String} (hkind : l.isComment kind = false)
    (hother : l.isComment other = false) (h : (p.kind == kind || p.kind == other) = true) :
    l.isComment p.kind = false := by
  rcases Bool.or_eq_true_iff.mp h with h | h
  · exact isComment_of_kind_eq hkind h
  · exact isComment_of_kind_eq hother h

/-! ## Children by name, kind and number -/

theorem namedChildren_uncommented (l : Language) (p : Place) :
    (p.uncommented l).namedChildren = uncommentedAll l p.namedChildren := by
  rw [namedChildren, children_uncommented]
  exact filter_uncommentedAll fun q => named_uncommented l q

theorem childOfKind?_uncommented (p : Place) {kinds : List String}
    (hkinds : ∀ k ∈ kinds, l.isComment k = false) :
    (p.uncommented l).childOfKind? kinds = (p.childOfKind? kinds).map (·.uncommented l) := by
  rw [childOfKind?, namedChildren_uncommented]
  exact find?_uncommentedAll (fun q => by rw [kind_uncommented]) fun q _ => isComment_of_kind hkinds

theorem isComment_of_childOfKind? {kinds : List String}
    (hkinds : ∀ k ∈ kinds, l.isComment k = false)
    {q : Place} (hq : p.childOfKind? kinds = some q) : l.isComment q.kind = false := by
  have hkind := List.find?_some hq
  exact isComment_of_kind hkinds hkind

theorem hasChildKind_uncommented (p : Place) {kind : String} (hkind : l.isComment kind = false) :
    (p.uncommented l).hasChildKind kind = p.hasChildKind kind := by
  rw [hasChildKind, children_uncommented]
  exact any_uncommentedAll (fun q => by rw [kind_uncommented]) fun q _ => isComment_of_kind_eq hkind

theorem beq_uncommented (p q : Place) : (p.uncommented l == q.uncommented l) = (p == q) := by
  show ((p.uncommented l).node.number == (q.uncommented l).node.number) = _
  rw [number_uncommented, number_uncommented]
  rfl

theorem contains_uncommented (ps : List Place) (p : Place) :
    (ps.map (·.uncommented l)).contains (p.uncommented l) = ps.contains p := by
  induction ps with
  | nil => rfl
  | cons q ps ih =>
    rw [List.map_cons, List.contains_cons, List.contains_cons, ih, beq_uncommented]

theorem namedExcept_uncommented (p : Place) (excluded : List Place) :
    (p.uncommented l).namedExcept (excluded.map (·.uncommented l)) =
      uncommentedAll l (p.namedExcept excluded) := by
  rw [namedExcept, namedChildren_uncommented]
  exact filter_uncommentedAll fun q => congrArg not (contains_uncommented excluded q)

/-! ## Fields -/

section Fields

variable (h : l.Fieldless p)
include h

theorem isComment_of_field {q : Place} {name : String} (hq : q ∈ p.children)
    (hfield : (q.node.field == some name) = true) : l.isComment q.kind = false := by
  refine Bool.eq_false_iff.mpr fun hcomment => ?_
  rw [h q hq hcomment] at hfield
  exact nomatch hfield

theorem fields_uncommented (name : String) :
    (p.uncommented l).fields name = (p.fields name).map (·.uncommented l) := by
  rw [fields, children_uncommented]
  exact filter_uncommentedAll_eq_map (fun q => by rw [field_uncommented])
    fun q => isComment_of_field h

theorem field?_uncommented (name : String) :
    (p.uncommented l).field? name = (p.field? name).map (·.uncommented l) := by
  rw [field?, children_uncommented]
  exact find?_uncommentedAll (fun q => by rw [field_uncommented]) fun q => isComment_of_field h

theorem isComment_of_field? {name : String} {q : Place} (hq : p.field? name = some q) :
    l.isComment q.kind = false := by
  have hfield := List.find?_some hq
  exact isComment_of_field h (List.mem_of_find?_eq_some hq) hfield

omit h in
theorem parent_of_field? {name : String} {q : Place} (hq : p.field? name = some q) :
    q.parent = some p.node := by
  obtain ⟨n, -, rfl⟩ := List.mem_map.mp (List.mem_of_find?_eq_some hq)
  rfl

omit h in
theorem field_of_field? {name : String} {q : Place} (hq : p.field? name = some q) :
    (q.node.field == some name) = true := by
  have hfield := List.find?_some hq
  exact hfield

theorem isComment_of_mem_fields {name : String} {q : Place} (hq : q ∈ p.fields name) :
    l.isComment q.kind = false :=
  isComment_of_field h (List.mem_filter.mp hq).1 (List.mem_filter.mp hq).2

theorem parts_uncommented (names : List String) :
    (p.uncommented l).parts names = (p.parts names).map (·.uncommented l) := by
  rw [parts, parts, List.map_filterMap]
  exact congrArg (List.filterMap · names) (funext fun name => field?_uncommented h name)

theorem isComment_of_mem_parts {names : List String} {q : Place} (hq : q ∈ p.parts names) :
    l.isComment q.kind = false := by
  obtain ⟨name, -, hname⟩ := List.mem_filterMap.mp hq
  exact isComment_of_field? h hname

theorem uncommentedAll_parts (names : List String) :
    uncommentedAll l (p.parts names) = (p.parts names).map (·.uncommented l) :=
  uncommentedAll_of_forall l fun _ => isComment_of_mem_parts h

theorem uncommentedAll_fields (name : String) :
    uncommentedAll l (p.fields name) = (p.fields name).map (·.uncommented l) :=
  uncommentedAll_of_forall l fun _ => isComment_of_mem_fields h

theorem firstFields_uncommented (names : List String) :
    (p.uncommented l).firstFields names = (p.firstFields names).map (·.uncommented l) := by
  have hfields : names.map (p.uncommented l).fields =
      (names.map p.fields).map (·.map (·.uncommented l)) := by
    rw [List.map_map]
    exact List.map_congr_left fun name _ => fields_uncommented h name
  rw [firstFields, firstFields, hfields, List.find?_map]
  have hempty : (fun found : List Place => !found.isEmpty) ∘
        List.map (fun q : Place => q.uncommented l) =
      fun found => !found.isEmpty :=
    funext fun found => by rw [Function.comp, List.isEmpty_map]
  rw [hempty]
  cases (names.map p.fields).find? fun found => !found.isEmpty <;> rfl

theorem isComment_of_mem_firstFields {names : List String} {q : Place}
    (hq : q ∈ p.firstFields names) : l.isComment q.kind = false := by
  unfold firstFields at hq
  cases hfind : (names.map p.fields).find? fun found => !found.isEmpty with
  | none =>
    rw [hfind] at hq
    exact absurd hq List.not_mem_nil
  | some found =>
    rw [hfind] at hq
    obtain ⟨name, -, rfl⟩ := List.mem_map.mp (List.mem_of_find?_eq_some hfind)
    exact isComment_of_mem_fields h hq

theorem uncommentedAll_firstFields (names : List String) :
    uncommentedAll l (p.firstFields names) = (p.firstFields names).map (·.uncommented l) :=
  uncommentedAll_of_forall l fun _ => isComment_of_mem_firstFields h

theorem namedIn_uncommented (name : String) :
    (p.uncommented l).namedIn name = uncommentedAll l (p.namedIn name) := by
  rw [namedIn, namedIn, field?_uncommented h]
  cases p.field? name with
  | none => rfl
  | some q => exact namedChildren_uncommented l q

end Fields

/-! ## Counted children -/

/-- The named children of some places, as the arms of a conditional. -/
theorem map_namedChildren_uncommented (ps : List Place) :
    (ps.map (·.uncommented l)).map namedChildren =
      (ps.map namedChildren).map (uncommentedAll l) := by
  rw [List.map_map, List.map_map]
  exact List.map_congr_left fun q _ => namedChildren_uncommented l q

/-- The named children of the places of some kinds. -/
theorem arms_uncommented {ps : List Place} {f g : Place → Bool}
    (hf : ∀ q, g (q.uncommented l) = f q)
    (hps : ∀ q ∈ ps, f q = true → l.isComment q.kind = false) :
    ((uncommentedAll l ps).filter g).map namedChildren =
      ((ps.filter f).map namedChildren).map (uncommentedAll l) := by
  rw [filter_uncommentedAll_eq_map hf hps, map_namedChildren_uncommented]

theorem any_uncommented {ps : List Place} {f g : Place → Bool}
    (hf : ∀ q, g (q.uncommented l) = f q) : (ps.map (·.uncommented l)).any g = ps.any f := by
  rw [List.any_map]
  exact congrArg _ (funext hf)

/-- What is found in some places, all at once. -/
theorem flatMap_uncommented {ps : List Place} {f : Place → List Place}
    (hf : ∀ q ∈ ps, f (q.uncommented l) = uncommentedAll l (f q)) :
    (ps.map (·.uncommented l)).flatMap f = uncommentedAll l (ps.flatMap f) := by
  induction ps with
  | nil => rfl
  | cons q ps ih =>
    obtain ⟨hq, hps⟩ := List.forall_mem_cons.mp hf
    rw [List.map_cons, List.flatMap_cons, List.flatMap_cons, uncommentedAll_append, hq, ih hps]

/-- What is found in some places one by one, and never in comments. -/
theorem filterMap_uncommentedAll {α : Type} {ps : List Place} {f : Place → Option α} {g : α → α}
    (hcomment : ∀ q, l.isComment q.kind = true → f q = none)
    (hf : ∀ q ∈ ps, f (q.uncommented l) = (f q).map g) :
    (uncommentedAll l ps).filterMap f = (ps.filterMap f).map g := by
  induction ps with
  | nil => rfl
  | cons q ps ih =>
    obtain ⟨hq, hps⟩ := List.forall_mem_cons.mp hf
    rw [List.filterMap_cons]
    cases hkind : l.isComment q.kind with
    | true =>
      rw [uncommentedAll_cons_of_comment l hkind, hcomment q hkind]
      exact ih hps
    | false =>
      rw [uncommentedAll_cons l hkind, List.filterMap_cons, hq]
      cases f q with
      | none => exact ih hps
      | some a => exact congrArg (g a :: ·) (ih hps)

section CommentFree

variable (h : l.CommentFree p)
include h

theorem uncommentedAll_namedChildren_of_free :
    uncommentedAll l p.namedChildren = p.namedChildren.map (·.uncommented l) :=
  uncommentedAll_of_forall l fun q hq => h q (List.mem_filter.mp hq).1

theorem uncommentedAll_namedExcept_of_free (excluded : List Place) :
    uncommentedAll l (p.namedExcept excluded) = (p.namedExcept excluded).map (·.uncommented l) :=
  uncommentedAll_of_forall l fun q hq => h q (List.mem_filter.mp (List.mem_filter.mp hq).1).1

theorem namedChildren_uncommented_of_free :
    (p.uncommented l).namedChildren = p.namedChildren.map (·.uncommented l) := by
  rw [namedChildren_uncommented, uncommentedAll_namedChildren_of_free h]

theorem operatorText_uncommented : (p.uncommented l).operatorText = p.operatorText := by
  have hchildren : (p.node.uncommented l).children = p.node.children.map (·.uncommented l) := by
    rw [Node.children_uncommented, List.filter_eq_self.mpr]
    exact fun n hn => by rw [h ⟨some p.node, n⟩ (List.mem_map_of_mem hn)]; rfl
  rw [operatorText, show (p.uncommented l).node.children = _ from hchildren, operatorText,
    kind_uncommented]
  match p.node.children with
  | [] => rfl
  | [inner] =>
    simp only [List.map_cons, List.map_nil, Node.named_uncommented, Node.kind_uncommented]
  | _ :: _ :: _ => rfl

end CommentFree

/-! ## Children beside marks -/

section Marks

variable {kind : String} (hkind : l.isComment kind = false)

@[simp] theorem isMark_uncommented (l : Language) (p : Place) (kind : String) :
    (p.uncommented l).isMark kind = p.isMark kind := by
  rw [isMark, isMark, named_uncommented, kind_uncommented]

include hkind

theorem isMark_of_comment {q : Place} (hq : l.isComment q.kind = true) : q.isMark kind = false := by
  refine Bool.eq_false_iff.mpr fun hmark => ?_
  have hsame := beq_iff_eq.mp (Bool.and_eq_true_iff.mp hmark).2
  rw [hsame, hkind] at hq
  exact nomatch hq

theorem namedAfter_uncommented (p : Place) :
    (p.uncommented l).namedAfter kind = uncommentedAll l (p.namedAfter kind) := by
  have hdrop : ∀ ps : List Place, (uncommentedAll l ps).dropWhile (fun c => !c.isMark kind) =
      uncommentedAll l (ps.dropWhile fun c => !c.isMark kind) := by
    intro ps
    induction ps with
    | nil => rfl
    | cons q ps ih =>
      rw [List.dropWhile_cons]
      cases hcomment : l.isComment q.kind with
      | true =>
        rw [uncommentedAll_cons_of_comment l hcomment, isMark_of_comment hkind hcomment]
        exact ih
      | false =>
        rw [uncommentedAll_cons l hcomment, List.dropWhile_cons, isMark_uncommented]
        cases hmark : q.isMark kind with
        | false => exact ih
        | true => exact (uncommentedAll_cons l hcomment ps).symm
  rw [namedAfter, children_uncommented, hdrop]
  exact filter_uncommentedAll fun q => named_uncommented l q

theorem namedBefore_uncommented (p : Place) :
    (p.uncommented l).namedBefore kind = uncommentedAll l (p.namedBefore kind) := by
  have htake : ∀ ps : List Place, (uncommentedAll l ps).takeWhile (fun c => !c.isMark kind) =
      uncommentedAll l (ps.takeWhile fun c => !c.isMark kind) := by
    intro ps
    induction ps with
    | nil => rfl
    | cons q ps ih =>
      rw [List.takeWhile_cons]
      cases hcomment : l.isComment q.kind with
      | true =>
        rw [uncommentedAll_cons_of_comment l hcomment, isMark_of_comment hkind hcomment, ih]
        exact (uncommentedAll_cons_of_comment l hcomment _).symm
      | false =>
        rw [uncommentedAll_cons l hcomment, List.takeWhile_cons, isMark_uncommented]
        cases hmark : q.isMark kind with
        | false => exact (congrArg _ ih).trans (uncommentedAll_cons l hcomment _).symm
        | true => rfl
  rw [namedBefore, children_uncommented, htake]
  exact filter_uncommentedAll fun q => named_uncommented l q

end Marks

theorem uncommentedAll_namedAfter_of_free (h : l.CommentFree p) (kind : String) :
    uncommentedAll l (p.namedAfter kind) = (p.namedAfter kind).map (·.uncommented l) :=
  uncommentedAll_of_forall l fun q hq =>
    h q ((List.dropWhile_sublist _).subset (List.mem_filter.mp hq).1)

/-! ## Lists, operators and labels -/

/-- The place is a list that is taken for its items under one of the given parents, or one
that holds nothing but comments. -/
def isCountedList (l : Language) (listKinds parents : List String) (p : Place) : Bool :=
  listKinds.contains p.kind &&
    (p.parent.any (fun above => parents.contains above.kind) ||
      p.namedChildren.all fun q => l.isComment q.kind)

/-- Whether the place may be the sign that joins target and value. -/
def isOperator (p : Place) : Bool :=
  p.node.field == some "operator" || p.kind == "assignment_operator" || p.kind.endsWith "="

section Items

variable {listKinds parents : List String}
  (hcounted : p.isCountedList l listKinds parents = true → l.CommentFree p)
  (hcomment : l.isComment p.kind = false)
include hcounted hcomment

theorem listItems_uncommented :
    (p.uncommented l).listItems listKinds = uncommentedAll l (p.listItems listKinds) := by
  have hself : [p.uncommented l] = uncommentedAll l [p] := (uncommentedAll_cons l hcomment []).symm
  rw [listItems, listItems, kind_uncommented, namedChildren_uncommented]
  cases hlist : listKinds.contains p.kind with
  | false => exact hself
  | true =>
    have hempty : (uncommentedAll l p.namedChildren).isEmpty = p.namedChildren.isEmpty := by
      by_cases hall : p.namedChildren.all fun c => l.isComment c.kind
      · have hfree := hcounted (by rw [isCountedList, hlist, hall, Bool.or_true]; rfl)
        rw [uncommentedAll_namedChildren_of_free hfree, List.isEmpty_map]
      · obtain ⟨c, hc, hcomment⟩ := by
          simpa only [Bool.not_eq_true, List.all_eq_false] using hall
        rw [List.isEmpty_eq_false_iff.mpr (List.ne_nil_of_mem hc), List.isEmpty_eq_false_iff]
        exact List.ne_nil_of_mem (mem_uncommentedAll.mpr ⟨c, hc, hcomment, rfl⟩)
    rw [hempty]
    split
    · rfl
    · exact hself

/-- Under a parent that counts them, the items of a list are no comments. -/
theorem uncommentedAll_listItems {above : Node} (habove : p.parent = some above)
    (hparent : parents.contains above.kind = true) :
    uncommentedAll l (p.listItems listKinds) = (p.listItems listKinds).map (·.uncommented l) := by
  refine uncommentedAll_of_forall l ?_
  unfold listItems
  split
  · rename_i hlist
    have hfree := hcounted (by
      rw [isCountedList, (Bool.and_eq_true_iff.mp hlist).1, habove, Option.any_some, hparent]
      rfl)
    exact fun q hq => hfree q (List.mem_filter.mp hq).1
  · exact List.forall_mem_singleton.mpr hcomment

end Items

section ItemsOf

variable {field : String} {listKinds parents : List String} (h : l.Fieldless p)
  (hcounted : ∀ q, p.field? field = some q → q.isCountedList l listKinds parents = true →
    l.CommentFree q)
include h hcounted

theorem itemsOf_uncommented :
    (p.uncommented l).itemsOf field listKinds = uncommentedAll l (p.itemsOf field listKinds) := by
  rw [itemsOf, itemsOf, field?_uncommented h]
  cases hfield : p.field? field with
  | none => rfl
  | some q => exact listItems_uncommented (hcounted q hfield) (isComment_of_field? h hfield)

theorem uncommentedAll_itemsOf (hparent : parents.contains p.kind = true) :
    uncommentedAll l (p.itemsOf field listKinds) =
      (p.itemsOf field listKinds).map (·.uncommented l) := by
  rw [itemsOf]
  cases hfield : p.field? field with
  | none => rfl
  | some q =>
    exact uncommentedAll_listItems (hcounted q hfield) (isComment_of_field? h hfield)
      (parent_of_field? hfield) hparent

end ItemsOf

theorem operator?_uncommented (h : l.Fieldless p)
    (hsigns : ∀ kind ∈ l.comments, (kind == "assignment_operator" || kind.endsWith "=") = false)
    (hfree : ∀ q ∈ p.children, q.isOperator = true → l.CommentFree q) :
    (p.uncommented l).operator? = p.operator? := by
  have hsign : ∀ q ∈ p.children, (q.kind == "assignment_operator" || q.kind.endsWith "=") = true →
      l.isComment q.kind = false := by
    intro q _ hq
    refine Bool.eq_false_iff.mpr fun hcomment => ?_
    rw [hsigns _ (List.contains_iff_mem.mp hcomment)] at hq
    exact nomatch hq
  have hfind : (p.uncommented l).children.find?
      (fun c => c.kind == "assignment_operator" || c.kind.endsWith "=") =
      (p.children.find? fun c => c.kind == "assignment_operator" || c.kind.endsWith "=").map
        (·.uncommented l) := by
    rw [children_uncommented]
    exact find?_uncommentedAll (fun q => by rw [kind_uncommented]) hsign
  rw [operator?, operator?, field?_uncommented h, hfind]
  cases hfield : p.field? "operator" with
  | some sign =>
    have hoperator : sign.isOperator = true := by
      rw [isOperator, List.find?_some hfield]
      rfl
    exact congrArg some (operatorText_uncommented
      (hfree sign (List.mem_of_find?_eq_some hfield) hoperator))
  | none =>
    cases hfound : p.children.find?
        fun c => c.kind == "assignment_operator" || c.kind.endsWith "=" with
    | none => rfl
    | some sign =>
      have hoperator : sign.isOperator = true := by
        rw [isOperator, Bool.or_assoc, List.find?_some hfound, Bool.or_true]
      exact congrArg some (operatorText_uncommented
        (hfree sign (List.mem_of_find?_eq_some hfound) hoperator))

/-- A node that stands in a field of its parent does so without the comments. -/
theorem isFieldOf_uncommented (h : ∀ above, p.parent = some above → l.Fieldless (root above))
    (parentKind field : String) :
    (p.uncommented l).isFieldOf parentKind field = p.isFieldOf parentKind field := by
  unfold isFieldOf
  cases hparent : p.parent with
  | none => rw [show (p.uncommented l).parent = none by rw [uncommented, hparent]; rfl]
  | some above =>
    rw [show (p.uncommented l).parent = some (above.uncommented l) by
      rw [uncommented, hparent]; rfl]
    have hfield := field?_uncommented (h above hparent) field
    show ((above.uncommented l).kind == parentKind &&
      (((root above).uncommented l).field? field).any (· == p.uncommented l)) = _
    rw [Node.kind_uncommented, hfield, Option.any_map]
    simp only [beq_uncommented]

end Place

/-! ## Loop headers -/

namespace ForClauses

variable {l : Language}

/-- The clauses in the tree without comments. -/
def uncommented (l : Language) (c : ForClauses) : ForClauses where
  init := Place.uncommentedAll l c.init
  condition := Place.uncommentedAll l c.condition
  update := Place.uncommentedAll l c.update
  body := c.body.map (·.uncommented l)

/-- What has been passed of a header, in the tree without comments. -/
def Reading.uncommented (l : Language) (r : Reading) : Reading :=
  { r with clauses := r.clauses.uncommented l }

theorem addClause_uncommented (c : ForClauses) (segment : Nat) {p : Place}
    (h : l.isComment p.kind = false) :
    (c.addClause segment p).uncommented l =
      (c.uncommented l).addClause segment (p.uncommented l) := by
  have happend : ∀ ps : List Place, Place.uncommentedAll l (ps ++ [p]) =
      Place.uncommentedAll l ps ++ [p.uncommented l] := fun ps => by
    rw [Place.uncommentedAll_append, Place.uncommentedAll_cons l h]
    rfl
  unfold addClause
  split <;> simp only [uncommented, happend]

theorem addClause_uncommented_of_comment (c : ForClauses) (segment : Nat) {p : Place}
    (h : l.isComment p.kind = true) : (c.addClause segment p).uncommented l = c.uncommented l := by
  have happend : ∀ ps : List Place, Place.uncommentedAll l (ps ++ [p]) =
      Place.uncommentedAll l ps := fun ps => by
    rw [Place.uncommentedAll_append, Place.uncommentedAll_cons_of_comment l h]
    exact List.append_nil _
  unfold addClause
  split <;> simp only [uncommented, happend]

theorem pass_uncommented (r : Reading) {p : Place} (h : l.isComment p.kind = false) :
    (r.pass p).uncommented l = (r.uncommented l).pass (p.uncommented l) := by
  have hbody : (r.uncommented l).clauses.body.isNone = r.clauses.body.isNone :=
    Option.isNone_map
  unfold Reading.pass
  rw [Place.kind_uncommented, Place.named_uncommented, hbody]
  show _ = if r.inside = true then _ else _
  split
  · split
    · rfl
    split
    · rfl
    split
    · exact congrArg (fun clauses => { r with clauses }) (addClause_uncommented _ _ h)
    · rfl
  · split
    · rfl
    split <;> rfl

/-- A comment adds nothing where the body is known. -/
theorem pass_uncommented_of_comment
    (hmarks : ∀ mark ∈ ["(", ")", ";"], l.isComment mark = false) (r : Reading) {p : Place}
    (h : l.isComment p.kind = true) (hbody : r.clauses.body.isSome = true) :
    (r.pass p).uncommented l = r.uncommented l := by
  have hmark : ∀ mark ∈ ["(", ")", ";"], (p.kind == mark) = false := by
    intro mark hmem
    refine Bool.eq_false_iff.mpr fun heq => ?_
    rw [beq_iff_eq.mp heq, hmarks mark hmem] at h
    exact nomatch h
  have hnone : r.clauses.body.isNone = false := by
    rw [Option.isNone_eq_false_iff]
    exact hbody
  unfold Reading.pass
  rw [hmark "(" (by decide), hmark ")" (by decide), hmark ";" (by decide), hnone, Bool.and_false]
  split
  · simp only [Bool.false_eq_true, if_false]
    split
    · exact congrArg (fun clauses => { r with clauses }) (addClause_uncommented_of_comment _ _ h)
    · rfl
  · rfl

/-- The body stays what it is, or becomes what is passed where there was none. -/
theorem body_pass (r : Reading) (p : Place) :
    (r.pass p).clauses.body = r.clauses.body ∨
      r.clauses.body = none ∧ (r.pass p).clauses.body = some p := by
  have hclause : ∀ c : ForClauses, (c.addClause r.segment p).body = c.body := fun c => by
    unfold addClause
    split <;> rfl
  unfold Reading.pass
  split
  · split
    · exact Or.inl rfl
    split
    · exact Or.inl rfl
    split
    · exact Or.inl (hclause r.clauses)
    · exact Or.inl rfl
  · split
    · exact Or.inl rfl
    split
    · rename_i hbody
      exact Or.inr ⟨Option.isNone_iff_eq_none.mp (Bool.and_eq_true_iff.mp hbody).2, rfl⟩
    · exact Or.inl rfl

theorem isSome_body_pass (r : Reading) (p : Place) (h : r.clauses.body.isSome = true) :
    (r.pass p).clauses.body.isSome = true := by
  rcases body_pass r p with hbody | ⟨hnone, -⟩
  · rw [hbody]
    exact h
  · rw [hnone] at h
    exact nomatch h

theorem foldl_pass_uncommented (hmarks : ∀ mark ∈ ["(", ")", ";"], l.isComment mark = false)
    {ps : List Place} {r : Reading}
    (h : r.clauses.body.isSome = true ∨ ∀ p ∈ ps, l.isComment p.kind = false) :
    (Place.uncommentedAll l ps).foldl Reading.pass (r.uncommented l) =
      (ps.foldl Reading.pass r).uncommented l := by
  induction ps generalizing r with
  | nil => rfl
  | cons p ps ih =>
    have hrest : (r.pass p).clauses.body.isSome = true ∨ ∀ p ∈ ps, l.isComment p.kind = false :=
      h.imp (isSome_body_pass r p) fun h q hq => h q (List.mem_cons_of_mem _ hq)
    rw [List.foldl_cons, ← ih hrest]
    cases hcomment : l.isComment p.kind with
    | false =>
      rw [Place.uncommentedAll_cons l hcomment, List.foldl_cons, pass_uncommented r hcomment]
    | true =>
      have hbody := h.resolve_right fun h => by
        rw [h p List.mem_cons_self] at hcomment
        exact nomatch hcomment
      rw [Place.uncommentedAll_cons_of_comment l hcomment,
        pass_uncommented_of_comment hmarks r hcomment hbody]

theorem isComment_body_foldl {ps : List Place} {r : Reading}
    (h : r.clauses.body.isSome = true ∨ ∀ p ∈ ps, l.isComment p.kind = false)
    (hbody : ∀ q, r.clauses.body = some q → l.isComment q.kind = false) :
    ∀ q, (ps.foldl Reading.pass r).clauses.body = some q → l.isComment q.kind = false := by
  induction ps generalizing r with
  | nil => exact hbody
  | cons p ps ih =>
    refine ih (h.imp (isSome_body_pass r p) fun h q hq => h q (List.mem_cons_of_mem _ hq)) ?_
    rcases body_pass r p with hsame | ⟨hnone, hsome⟩
    · rw [hsame]
      exact hbody
    · intro q hq
      rw [hsome, Option.some.injEq] at hq
      refine hq ▸ h.resolve_left (fun h => ?_) p List.mem_cons_self
      rw [hnone] at h
      exact nomatch h

section Header

variable {p : Place} (h : l.Fieldless p)
  (hfree : (p.field? "body").isNone = true → l.CommentFree p)
include h hfree

omit h in
theorem body_or_free :
    (p.field? "body").isSome = true ∨ ∀ q ∈ p.children, l.isComment q.kind = false := by
  cases hfield : p.field? "body" with
  | none => exact Or.inr (hfree (by rw [hfield]; rfl))
  | some body => exact Or.inl rfl

/-- The clauses of a header without its comments, if it has a body in a field or no comments. -/
theorem locate_uncommented (hmarks : ∀ mark ∈ ["(", ")", ";"], l.isComment mark = false) :
    locate (p.uncommented l) = (locate p).uncommented l := by
  have hempty : ∀ ps : List Place, (ps.map (·.uncommented l)).isEmpty = ps.isEmpty :=
    fun _ => List.isEmpty_map
  unfold locate
  simp only [Place.firstFields_uncommented h, Place.fields_uncommented h,
    Place.field?_uncommented h, hempty]
  split
  · rw [uncommented, Place.uncommentedAll_firstFields h, Place.uncommentedAll_fields h,
      Place.uncommentedAll_firstFields h]
  · rw [Place.children_uncommented]
    exact congrArg Reading.clauses (foldl_pass_uncommented hmarks
      (r := { clauses := { body := p.field? "body" } }) (body_or_free hfree))

theorem isComment_body {q : Place} (hq : (locate p).body = some q) :
    l.isComment q.kind = false := by
  have hbody : ∀ q, p.field? "body" = some q → l.isComment q.kind = false :=
    fun _ => Place.isComment_of_field? h
  revert q
  unfold locate
  dsimp only
  split
  · exact fun hq => hbody _ hq
  · exact fun hq => isComment_body_foldl (r := { clauses := { body := p.field? "body" } })
      (body_or_free hfree) hbody _ hq

theorem repeated_uncommented :
    Place.uncommentedAll l (locate p).repeated = ((locate p).uncommented l).repeated := by
  have hbody : Place.uncommentedAll l (locate p).body.toList =
      ((locate p).body.map (·.uncommented l)).toList :=
    Place.uncommentedAll_toList fun _ => isComment_body h hfree
  rw [repeated, Place.uncommentedAll_append, Place.uncommentedAll_append, hbody]
  rfl

end Header

end ForClauses

/-! ## Parameters -/

namespace Parameter

variable {l : Language} {p : Place} (h : l.Fieldless p)
include h

/-- A parameter whose name stands in a field. -/
theorem of_field_uncommented (field : String) :
    ((p.uncommented l).field? field).map (fun name => ({ name } : Parameter)) =
      ((p.field? field).map fun name => ({ name } : Parameter)).map (·.uncommented l) := by
  rw [Place.field?_uncommented h]
  cases p.field? field <;> rfl

/-- A parameter whose name and fallback stand in fields. -/
theorem of_fields_uncommented (field fallback : String) :
    ((p.uncommented l).field? field).map
        (fun name => (⟨name, (p.uncommented l).field? fallback⟩ : Parameter)) =
      ((p.field? field).map fun name => (⟨name, p.field? fallback⟩ : Parameter)).map
        (·.uncommented l) := by
  rw [Place.field?_uncommented h, Place.field?_uncommented h]
  cases p.field? field <;> rfl

end Parameter

/-! ## Patterns -/

namespace Pattern

variable {l : Language} {p : Place}

theorem updateOf_uncommented (operand : Option Place) :
    updateOf (operand.map (·.uncommented l)) = (updateOf operand).uncommented l := by
  cases operand <;> rfl

/-- An update of the first named child. -/
theorem updateFirst_uncommented (h : l.CommentFree p) :
    updateOf (p.uncommented l).namedChildren.head? =
      (updateOf p.namedChildren.head?).uncommented l := by
  rw [Place.namedChildren_uncommented_of_free h, List.head?_map]
  exact updateOf_uncommented _

/-- An update of the child in a field, or else of the first named child. -/
theorem updateFieldOr_uncommented {field : String} (h : l.Fieldless p)
    (hfree : (p.field? field).isNone = true → l.CommentFree p) :
    updateOf (((p.uncommented l).field? field).or (p.uncommented l).namedChildren.head?) =
      (updateOf ((p.field? field).or p.namedChildren.head?)).uncommented l := by
  rw [Place.field?_uncommented h]
  cases hfield : p.field? field with
  | some q => rfl
  | none => exact updateFirst_uncommented (hfree (by rw [hfield]; rfl))

section Fields

variable (h : l.Fieldless p)
include h

theorem bindFields_uncommented (kind : BindingKind) (target value : String) :
    bindFields kind target value (p.uncommented l) =
      (bindFields kind target value p).uncommented l := by
  rw [bindFields, Place.parts_uncommented h, Place.parts_uncommented h]
  rfl

theorem declareField_uncommented (target : String) :
    declareField target (p.uncommented l) = (declareField target p).uncommented l := by
  rw [declareField, Place.parts_uncommented h]
  rfl

theorem operatorKind_uncommented
    (hsigns : ∀ kind ∈ l.comments, (kind == "assignment_operator" || kind.endsWith "=") = false)
    (hfree : ∀ q ∈ p.children, q.isOperator = true → l.CommentFree q) :
    operatorKind (p.uncommented l) = operatorKind p := by
  rw [operatorKind, Place.operator?_uncommented h hsigns hfree]
  rfl

theorem ifElse_uncommented (condition : List String) {otherwise : Place → List Place}
    (hotherwise : ∀ q, l.isComment q.kind = false →
      otherwise (q.uncommented l) = Place.uncommentedAll l (otherwise q)) :
    ifElse condition otherwise (p.uncommented l) =
      (ifElse condition otherwise p).uncommented l := by
  rw [ifElse, ifElse, Pattern.uncommented, Place.parts_uncommented h, Place.parts_uncommented h,
    Place.field?_uncommented h, List.map_cons, List.map_cons, Place.uncommentedAll_parts h,
    Place.uncommentedAll_parts h]
  cases hfield : p.field? "alternative" with
  | none => rfl
  | some q =>
    rw [Option.map_some, Option.map_some, Option.map_some, Option.getD_some, Option.getD_some,
      hotherwise q (Place.isComment_of_field? h hfield)]
    rfl

/-- A conditional of which the first arm stands in fields and each further one in a clause. -/
theorem clauses_uncommented (condition first : List String) (field : String)
    {arm : Place → List Place} {exhaustive : Place → Bool}
    (harm : ∀ q ∈ p.fields field, arm (q.uncommented l) = Place.uncommentedAll l (arm q))
    (hexhaustive : ∀ q, exhaustive (q.uncommented l) = exhaustive q) :
    (Pattern.branch ⟨(p.uncommented l).parts condition,
      (p.uncommented l).parts first :: ((p.uncommented l).fields field).map arm,
      ((p.uncommented l).fields field).any exhaustive⟩) =
    (Pattern.branch ⟨p.parts condition, p.parts first :: (p.fields field).map arm,
      (p.fields field).any exhaustive⟩).uncommented l := by
  have harms : ((p.fields field).map (·.uncommented l)).map arm =
      ((p.fields field).map arm).map (Place.uncommentedAll l) := by
    rw [List.map_map, List.map_map]
    exact List.map_congr_left harm
  rw [Pattern.uncommented, Place.parts_uncommented h, Place.parts_uncommented h,
    Place.fields_uncommented h, List.map_cons, Place.uncommentedAll_parts h,
    Place.uncommentedAll_parts h, harms, Place.any_uncommented hexhaustive]

theorem loopOver_uncommented (fields : List String) :
    loopOver fields (p.uncommented l) = (loopOver fields p).uncommented l := by
  rw [loopOver, loopOver, Pattern.uncommented, Place.parts_uncommented h,
    Place.uncommentedAll_parts h]
  rfl

theorem threePartLoop_uncommented (hmarks : ∀ mark ∈ ["(", ")", ";"], l.isComment mark = false)
    (hfree : (p.field? "body").isNone = true → l.CommentFree p) :
    threePartLoop (p.uncommented l) = (threePartLoop p).uncommented l := by
  rw [threePartLoop, ForClauses.locate_uncommented h hfree hmarks, threePartLoop,
    Pattern.uncommented, ForClauses.repeated_uncommented h hfree]
  rfl

theorem iterateFields_uncommented (target iterable : String) :
    iterateFields target iterable (p.uncommented l) =
      (iterateFields target iterable p).uncommented l := by
  rw [iterateFields, iterateFields, Pattern.uncommented, Place.parts_uncommented h,
    Place.parts_uncommented h, Place.field?_uncommented h, Place.uncommentedAll_parts h,
    Place.uncommentedAll_parts h]
  rfl

variable {parameters parameters' : List Parameter}
  (hparameters : parameters' = parameters.map (·.uncommented l))
include hparameters

theorem defineNamed_uncommented :
    defineNamed parameters' (p.uncommented l) = (defineNamed parameters p).uncommented l := by
  rw [defineNamed, defineNamed, Pattern.uncommented, Place.parts_uncommented h,
    Place.field?_uncommented h, Place.uncommentedAll_parts h, hparameters]

theorem defineAnonymous_uncommented :
    defineAnonymous parameters' (p.uncommented l) =
      (defineAnonymous parameters p).uncommented l := by
  rw [defineAnonymous, defineAnonymous, Pattern.uncommented, Place.parts_uncommented h,
    Place.uncommentedAll_parts h, hparameters]
  rfl

end Fields

end Pattern

end TokenFlow
