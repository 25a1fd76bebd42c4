import TokenFlow.Language.Tag
import TokenFlow.Proofs.PatternParts

/-!
# The tables lead strictly downwards

Whatever a table names as a part of a construct lies properly below the construct
(`Tag.staysBelow_pattern`): it is a child, or a child of a child, and so on.  The tables are
written with a few ways of finding parts, each of which stays below its place; a pattern
stays below a place if all its parts do.
-/
namespace TokenFlow

/-! ## Below a place -/

/-- What lies properly below a place. -/
inductive Place.HasBelow (p : Place) : Place → Prop
  | child {q : Place} (h : q ∈ p.children) : HasBelow p q
  | deeper {q r : Place} (h : HasBelow p q) (hr : r ∈ q.children) : HasBelow p r

/-- All these places lie properly below a place. -/
def Place.AllBelow (p : Place) (qs : List Place) : Prop :=
  ∀ q ∈ qs, p.HasBelow q

namespace Place

variable {p q r : Place}

theorem HasBelow.trans (h : p.HasBelow q) (hr : q.HasBelow r) : p.HasBelow r := by
  induction hr with
  | child hr => exact h.deeper hr
  | deeper _ hr ih => exact ih.deeper hr

namespace AllBelow

variable {qs rs : List Place}

theorem nil : p.AllBelow [] :=
  List.forall_mem_nil _

theorem singleton (h : p.HasBelow q) : p.AllBelow [q] :=
  List.forall_mem_singleton.mpr h

theorem append (hq : p.AllBelow qs) (hr : p.AllBelow rs) : p.AllBelow (qs ++ rs) :=
  List.forall_mem_append.mpr ⟨hq, hr⟩

theorem mono (h : p.AllBelow rs) (hsub : qs ⊆ rs) : p.AllBelow qs :=
  fun q hq => h q (hsub hq)

theorem filter (h : p.AllBelow qs) (f : Place → Bool) : p.AllBelow (qs.filter f) :=
  h.mono List.filter_sublist.subset

theorem toList {o : Option Place} (h : ∀ q, o = some q → p.HasBelow q) : p.AllBelow o.toList :=
  fun q hq => h q (Option.mem_toList.mp hq)

/-- What lies below one of several places below lies below. -/
theorem trans (h : p.HasBelow q) (hr : q.AllBelow rs) : p.AllBelow rs :=
  fun r hmem => h.trans (hr r hmem)

end AllBelow

/-! ## Ways of finding parts -/

theorem allBelow_children (p : Place) : p.AllBelow p.children :=
  fun _ => .child

theorem allBelow_namedChildren (p : Place) : p.AllBelow p.namedChildren :=
  p.allBelow_children.filter _

theorem allBelow_fields (p : Place) (name : String) : p.AllBelow (p.fields name) :=
  p.allBelow_children.filter _

theorem hasBelow_of_field? {name : String} (h : p.field? name = some q) : p.HasBelow q :=
  .child (List.mem_of_find?_eq_some h)

theorem hasBelow_of_childOfKind? {kinds : List String} (h : p.childOfKind? kinds = some q) :
    p.HasBelow q :=
  p.allBelow_namedChildren q (List.mem_of_find?_eq_some h)

theorem allBelow_parts (p : Place) (names : List String) : p.AllBelow (p.parts names) := by
  intro q hq
  obtain ⟨name, -, hname⟩ := List.mem_filterMap.mp hq
  exact hasBelow_of_field? hname

theorem allBelow_firstFields (p : Place) (names : List String) :
    p.AllBelow (p.firstFields names) := by
  intro q hq
  unfold firstFields at hq
  cases hfind : (names.map p.fields).find? fun found => !found.isEmpty with
  | none =>
    rw [hfind] at hq
    exact absurd hq List.not_mem_nil
  | some found =>
    rw [hfind] at hq
    obtain ⟨name, -, rfl⟩ := List.mem_map.mp (List.mem_of_find?_eq_some hfind)
    exact p.allBelow_fields name q hq

theorem allBelow_namedExcept (p : Place) (excluded : List Place) :
    p.AllBelow (p.namedExcept excluded) :=
  p.allBelow_namedChildren.filter _

theorem allBelow_namedAfter (p : Place) (kind : String) : p.AllBelow (p.namedAfter kind) :=
  (p.allBelow_children.mono (List.dropWhile_sublist _).subset).filter _

theorem allBelow_namedBefore (p : Place) (kind : String) : p.AllBelow (p.namedBefore kind) :=
  (p.allBelow_children.mono (List.takeWhile_sublist _).subset).filter _

theorem allBelow_listItems (h : p.HasBelow q) (listKinds : List String) :
    p.AllBelow (q.listItems listKinds) := by
  unfold listItems
  split
  · exact .trans h q.allBelow_namedChildren
  · exact .singleton h

theorem allBelow_itemsOf (p : Place) (field : String) (listKinds : List String) :
    p.AllBelow (p.itemsOf field listKinds) := by
  unfold itemsOf
  cases hfield : p.field? field with
  | none => exact .nil
  | some q => exact allBelow_listItems (hasBelow_of_field? hfield) listKinds

theorem allBelow_namedIn (p : Place) (field : String) : p.AllBelow (p.namedIn field) := by
  unfold namedIn
  cases hfield : p.field? field with
  | none => exact .nil
  | some q => exact .trans (hasBelow_of_field? hfield) q.allBelow_namedChildren

end Place

/-! ## Patterns -/

/-- Every part of the pattern lies properly below a place. -/
def Pattern.StaysBelow (pattern : Pattern) (p : Place) : Prop :=
  p.AllBelow pattern.parts

/-- The name of a parameter and its fallback lie below a place. -/
def Parameter.StaysBelow (q : Parameter) (p : Place) : Prop :=
  p.AllBelow q.parts

/-- All clauses of a loop header lie below a place. -/
structure ForClauses.StaysBelow (c : ForClauses) (p : Place) : Prop where
  init : p.AllBelow c.init
  condition : p.AllBelow c.condition
  update : p.AllBelow c.update
  body : ∀ q, c.body = some q → p.HasBelow q

namespace ForClauses

variable {p : Place}

theorem staysBelow_addClause {c : ForClauses} (hc : c.StaysBelow p) (segment : Nat) {q : Place}
    (hq : p.HasBelow q) : (c.addClause segment q).StaysBelow p := by
  unfold addClause
  split
  · exact { hc with init := hc.init.append (.singleton hq) }
  · exact { hc with condition := hc.condition.append (.singleton hq) }
  · exact { hc with update := hc.update.append (.singleton hq) }

theorem staysBelow_pass {r : Reading} (hr : r.clauses.StaysBelow p) {q : Place}
    (hq : p.HasBelow q) : (r.pass q).clauses.StaysBelow p := by
  unfold Reading.pass
  split
  · split
    · exact hr
    split
    · exact hr
    split
    · exact staysBelow_addClause hr r.segment hq
    · exact hr
  · split
    · exact hr
    split
    · exact { hr with body := fun _ h => Option.some.inj h ▸ hq }
    · exact hr

theorem staysBelow_foldl {qs : List Place} (hqs : p.AllBelow qs) {r : Reading}
    (hr : r.clauses.StaysBelow p) : (qs.foldl Reading.pass r).clauses.StaysBelow p := by
  induction qs generalizing r with
  | nil => exact hr
  | cons q qs ih =>
    obtain ⟨hq, hqs⟩ := List.forall_mem_cons.mp hqs
    exact ih hqs (staysBelow_pass hr hq)

theorem staysBelow_locate (p : Place) : (locate p).StaysBelow p := by
  have hbody : ∀ q, p.field? "body" = some q → p.HasBelow q := fun _ => Place.hasBelow_of_field?
  unfold locate
  dsimp only
  split
  · exact ⟨p.allBelow_firstFields _, p.allBelow_fields _, p.allBelow_firstFields _, hbody⟩
  · exact staysBelow_foldl p.allBelow_children ⟨.nil, .nil, .nil, hbody⟩

end ForClauses

namespace Pattern.StaysBelow

open Place

variable {p : Place}

theorem plain (p : Place) : Pattern.plain.StaysBelow p :=
  .nil

theorem binding {b : Binding} (htargets : p.AllBelow b.targets) (hvalues : p.AllBelow b.values) :
    (Pattern.binding b).StaysBelow p :=
  htargets.append hvalues

theorem branch {b : Branch} (hcondition : p.AllBelow b.condition)
    (harms : ∀ arm ∈ b.arms, p.AllBelow arm) : (Pattern.branch b).StaysBelow p := by
  refine hcondition.append fun q hq => ?_
  obtain ⟨arm, harm, hq⟩ := List.mem_flatten.mp hq
  exact harms arm harm q hq

theorem iteration {i : Iteration} (htargets : p.AllBelow i.targets)
    (hiterable : ∀ q, i.iterable = some q → p.HasBelow q) (hbody : p.AllBelow i.body)
    (htail : p.AllBelow i.tail) : (Pattern.iteration i).StaysBelow p :=
  ((htargets.append (.toList hiterable)).append hbody).append htail

theorem loop {l : Loop} (hsetup : p.AllBelow l.setup) (hrepeated : p.AllBelow l.repeated)
    (htail : p.AllBelow l.tail) : (Pattern.loop l).StaysBelow p :=
  (hsetup.append hrepeated).append htail

theorem definition {d : Definition} (hname : ∀ q, d.name = some q → p.HasBelow q)
    (hparameters : ∀ q ∈ d.parameters, q.StaysBelow p) (hbody : p.AllBelow d.body) :
    (Pattern.definition d).StaysBelow p := by
  refine ((AllBelow.toList hname).append fun q hq => ?_).append hbody
  obtain ⟨parameter, hparameter, hq⟩ := List.mem_flatMap.mp hq
  exact hparameters parameter hparameter q hq

theorem bindFields (kind : BindingKind) (target value : String) (p : Place) :
    (Pattern.bindFields kind target value p).StaysBelow p :=
  binding (p.allBelow_parts _) (p.allBelow_parts _)

theorem declareField (target : String) (p : Place) :
    (Pattern.declareField target p).StaysBelow p :=
  binding (p.allBelow_parts _) .nil

theorem updateOf {operand : Option Place} (h : ∀ q, operand = some q → p.HasBelow q) :
    (Pattern.updateOf operand).StaysBelow p := by
  cases operand with
  | none => exact plain p
  | some q => exact .singleton (h q rfl)

theorem ifElse (condition : List String) {otherwise : Place → List Place} (p : Place)
    (h : ∀ q, p.HasBelow q → p.AllBelow (otherwise q)) :
    (Pattern.ifElse condition otherwise p).StaysBelow p := by
  refine branch (p.allBelow_parts _) fun arm harm => ?_
  rcases List.mem_cons.mp harm with rfl | harm
  · exact p.allBelow_parts _
  · rw [List.mem_singleton.mp harm]
    cases hfield : p.field? "alternative" with
    | none => exact .nil
    | some q => exact h q (hasBelow_of_field? hfield)

/-- A conditional of which the first arm stands in fields and each further one in a clause. -/
theorem clauses (condition first : List String) (field : String) {arm : Place → List Place}
    (harm : ∀ clause : Place, clause.AllBelow (arm clause)) (exhaustive : Bool) (p : Place) :
    (Pattern.branch
      ⟨p.parts condition, p.parts first :: (p.fields field).map arm, exhaustive⟩).StaysBelow p := by
  refine branch (p.allBelow_parts _) (List.forall_mem_cons.mpr ⟨p.allBelow_parts _, ?_⟩)
  refine List.forall_mem_map.mpr fun clause hclause => ?_
  exact .trans (p.allBelow_fields _ clause hclause) (harm clause)

theorem loopOver (fields : List String) (p : Place) : (Pattern.loopOver fields p).StaysBelow p :=
  loop .nil (p.allBelow_parts _) .nil

theorem threePartLoop (p : Place) : (Pattern.threePartLoop p).StaysBelow p :=
  have h := ForClauses.staysBelow_locate p
  loop h.init ((h.condition.append (.toList h.body)).append h.update) .nil

theorem iterateFields (target iterable : String) (p : Place) :
    (Pattern.iterateFields target iterable p).StaysBelow p :=
  iteration (p.allBelow_parts _) (fun _ => hasBelow_of_field?) (p.allBelow_parts _) .nil

theorem defineNamed {parameters : List Parameter} (h : ∀ q ∈ parameters, q.StaysBelow p) :
    (Pattern.defineNamed parameters p).StaysBelow p :=
  definition (fun _ => hasBelow_of_field?) h (p.allBelow_parts _)

theorem defineAnonymous {parameters : List Parameter} (h : ∀ q ∈ parameters, q.StaysBelow p) :
    (Pattern.defineAnonymous parameters p).StaysBelow p :=
  definition (fun _ h => nomatch h) h (p.allBelow_parts _)

end Pattern.StaysBelow

end TokenFlow
