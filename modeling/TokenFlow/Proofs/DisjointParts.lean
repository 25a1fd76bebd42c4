import TokenFlow.Proofs.TreePlaces

/-!
# Parts that lie apart

Two places lie apart if no place stands in both.  In a tree with distinct numbers the children
of a place lie apart (`Place.Numbered.apart_children`), and so does all that stands in different
ones of them.

A table *lists apart* if the parts that it names at a construct lie apart.  The table of Python
does, in every tree (`Language.listsApart_python`): it finds its parts under fields, and a node
is stored under one field at most, so parts under different fields stand in different children
(`Place.Spread`).
-/
namespace TokenFlow

/-! ## Places apart -/

namespace Node

theorem children_sublist_placesOfAll (parent : Node) (ns : List Node) :
    (ns.map fun n => (⟨some parent, n⟩ : Place)).Sublist (placesOfAll parent ns) := by
  induction ns with
  | nil => exact List.nil_sublist _
  | cons n ns ih =>
    have hself : [(⟨some parent, n⟩ : Place)].Sublist (n.placesUnder (some parent)) :=
      List.singleton_sublist.mpr (Place.mem_places.mpr (Or.inl rfl))
    exact hself.append ih

theorem placesUnder_sublist_placesOfAll (parent : Node) {n : Node} {ns : List Node} (h : n ∈ ns) :
    (n.placesUnder (some parent)).Sublist (placesOfAll parent ns) := by
  induction ns with
  | nil => exact absurd h List.not_mem_nil
  | cons m ms ih =>
    rw [placesOfAll]
    rcases List.mem_cons.mp h with rfl | h
    · exact List.sublist_append_left _ _
    · exact (ih h).trans (List.sublist_append_right _ _)

end Node

namespace Place

variable {p p' q q' r root : Place}

theorem below_sublist_places (p : Place) : p.below.Sublist p.places :=
  p.places_eq ▸ List.sublist_cons_self p p.below

/-- The places of a part of a tree are listed in the order in which those of the tree are. -/
theorem Within.places_sublist (h : q.Within p) : q.places.Sublist p.places := by
  have hchild : ∀ {p q : Place}, q ∈ p.children → q.places.Sublist p.places := by
    intro p q hq
    obtain ⟨n, hn, rfl⟩ := List.mem_map.mp hq
    exact (Node.placesUnder_sublist_placesOfAll p.node hn).trans p.below_sublist_places
  rcases h with rfl | h
  · exact List.Sublist.refl _
  · induction h with
    | child hq => exact hchild hq
    | deeper _ hr ih => exact (hchild hr).trans ih

theorem Within.trans (h : p.Within q) (hq : q.Within r) : p.Within r := by
  rcases h with rfl | h
  · exact hq
  · exact hq.below h

/-- No place stands in both. -/
def Apart (p q : Place) : Prop :=
  ∀ r : Place, r.Within p → ¬ r.Within q

theorem Apart.symm (h : p.Apart q) : q.Apart p :=
  fun r hq hp => h r hp hq

/-- What stands in places that lie apart lies apart. -/
theorem Apart.mono (h : p.Apart q) (hp : p'.Within p) (hq : q'.Within q) : p'.Apart q' :=
  fun r hrp hrq => h r (hrp.trans hp) (hrq.trans hq)

namespace Numbered

variable (h : root.Numbered) (hp : p.Within root)
include h hp

theorem nodup_children : p.children.Nodup := by
  have hsub : p.children.Sublist root.places :=
    (Node.children_sublist_placesOfAll p.node p.node.children).trans
      (p.below_sublist_places.trans hp.places_sublist)
  exact ((hsub.map fun q : Place => q.node.number).nodup h).of_map

theorem apart_of_mem_children (hq : q ∈ p.children) (hr : r ∈ p.children) (hne : q ≠ r) :
    q.Apart r := by
  -- a child within another one would have its parent below itself
  have houtside : ∀ {a b : Place}, a ∈ p.children → b ∈ p.children → a ≠ b → ¬ a.Within b := by
    rintro a b ha hb hab (rfl | hba)
    · exact hab rfl
    · have hpb : p.Within b := h.within_of_child hp (hp.below (.child hb)) ha hba
      exact p.not_hasBelow_self ((HasBelow.child hb).of_within hpb)
  intro t htq htr
  rcases h.within_or_within (hp.below (.child hq)) (hp.below (.child hr)) htq htr with hqr | hrq
  · exact houtside hq hr hne hqr
  · exact houtside hr hq hne.symm hrq

/-- **The children of a place lie apart.** -/
theorem apart_children : p.children.Pairwise Apart :=
  (h.nodup_children hp).pairwise_of_forall_ne fun _ hq _ hr hne =>
    h.apart_of_mem_children hp hq hr hne

end Numbered

/-! ## Places under fields -/

/-- The places lie apart, and each stands in a child that is stored under one of the fields. -/
structure Spread (p : Place) (names : List String) (qs : List Place) : Prop where
  apart : qs.Pairwise Apart
  stored : ∀ q ∈ qs, ∃ c ∈ p.children, (∃ name ∈ names, c.node.field = some name) ∧ q.Within c

namespace Spread

variable {names others : List String} {name : String} {qs rs : List Place}

theorem nil (p : Place) (names : List String) : p.Spread names [] :=
  ⟨List.Pairwise.nil, List.forall_mem_nil _⟩

theorem sublist (hrs : p.Spread names rs) (hsub : qs.Sublist rs) : p.Spread names qs :=
  ⟨hrs.apart.sublist hsub, fun q hq => hrs.stored q (hsub.subset hq)⟩

/-- Places within the child under a field. -/
theorem of_field? {c : Place} (hc : p.field? name = some c) (hapart : qs.Pairwise Apart)
    (hwithin : ∀ q ∈ qs, q.Within c) : p.Spread [name] qs := by
  have hfield := List.find?_some hc
  refine ⟨hapart, fun q hq => ⟨c, List.mem_of_find?_eq_some hc, ?_, hwithin q hq⟩⟩
  exact ⟨name, List.mem_singleton.mpr rfl, beq_iff_eq.mp hfield⟩

theorem field? (p : Place) (name : String) : p.Spread [name] (p.field? name).toList := by
  cases hc : p.field? name with
  | none => exact .nil p _
  | some c =>
    refine .of_field? hc (List.pairwise_singleton _ c) fun q hq => ?_
    exact Or.inl (List.mem_singleton.mp hq)

/-- Each place may be taken apart further. -/
theorem flatMap (hqs : p.Spread names qs) {f : Place → List Place}
    (hf : ∀ q ∈ qs, (f q).Pairwise Apart ∧ ∀ r ∈ f q, r.Within q) :
    p.Spread names (qs.flatMap f) := by
  constructor
  · refine List.pairwise_flatMap.mpr ⟨fun q hq => (hf q hq).1, ?_⟩
    refine hqs.apart.imp_of_mem fun {q q'} hq hq' hapart r hr r' hr' => ?_
    exact hapart.mono ((hf q hq).2 r hr) ((hf q' hq').2 r' hr')
  · intro r hr
    obtain ⟨q, hq, hr⟩ := List.mem_flatMap.mp hr
    obtain ⟨c, hc, hstored, hqc⟩ := hqs.stored q hq
    exact ⟨c, hc, hstored, ((hf q hq).2 r hr).trans hqc⟩

section Tree

variable (h : root.Numbered) (hp : p.Within root)
include h hp

/-- **Places under different fields lie apart.** -/
theorem append (hqs : p.Spread names qs) (hrs : p.Spread others rs)
    (hnames : ∀ name ∈ names, name ∉ others) : p.Spread (names ++ others) (qs ++ rs) := by
  constructor
  · refine List.pairwise_append.mpr ⟨hqs.apart, hrs.apart, fun q hq r hr => ?_⟩
    obtain ⟨c, hc, ⟨name, hname, hfield⟩, hqc⟩ := hqs.stored q hq
    obtain ⟨d, hd, ⟨other, hother, hfield'⟩, hrd⟩ := hrs.stored r hr
    have hne : c ≠ d := by
      rintro rfl
      rw [hfield] at hfield'
      exact hnames name hname (Option.some.inj hfield' ▸ hother)
    exact (h.apart_of_mem_children hp hc hd hne).mono hqc hrd
  · intro q hq
    rcases List.mem_append.mp hq with hq | hq
    · obtain ⟨c, hc, ⟨name, hname, hfield⟩, hqc⟩ := hqs.stored q hq
      exact ⟨c, hc, ⟨name, List.mem_append_left _ hname, hfield⟩, hqc⟩
    · obtain ⟨c, hc, ⟨name, hname, hfield⟩, hqc⟩ := hrs.stored q hq
      exact ⟨c, hc, ⟨name, List.mem_append_right _ hname, hfield⟩, hqc⟩

theorem parts (hnames : names.Nodup) : p.Spread names (p.parts names) := by
  induction names with
  | nil => exact .nil p []
  | cons name names ih =>
    obtain ⟨hname, hnames⟩ := List.nodup_cons.mp hnames
    have hsplit : p.parts (name :: names) = (p.field? name).toList ++ p.parts names := by
      rw [Place.parts, List.filterMap_cons]
      cases p.field? name <;> rfl
    rw [hsplit]
    refine append h hp (.field? p name) (ih hnames) fun other hother => ?_
    rwa [List.mem_singleton.mp hother]

theorem fields (name : String) : p.Spread [name] (p.fields name) := by
  refine ⟨(h.apart_children hp).sublist List.filter_sublist, fun q hq => ?_⟩
  obtain ⟨hchild, hfield⟩ := List.mem_filter.mp hq
  exact ⟨q, hchild, ⟨name, List.mem_singleton.mpr rfl, beq_iff_eq.mp hfield⟩, Or.inl rfl⟩

theorem namedIn (name : String) : p.Spread [name] (p.namedIn name) := by
  unfold Place.namedIn
  cases hc : p.field? name with
  | none => exact .nil p _
  | some c =>
    have hchildren := h.apart_children (hp.below (hasBelow_of_field? hc))
    refine .of_field? hc (hchildren.sublist List.filter_sublist) fun q hq => ?_
    exact Or.inr (c.allBelow_namedChildren q hq)

theorem listItems {c : Place} (hc : p.field? name = some c) (listKinds : List String) :
    p.Spread [name] (c.listItems listKinds) := by
  have hchildren := h.apart_children (hp.below (hasBelow_of_field? hc))
  unfold Place.listItems
  split
  · refine .of_field? hc (hchildren.sublist List.filter_sublist) fun q hq => ?_
    exact Or.inr (c.allBelow_namedChildren q hq)
  · refine .of_field? hc (List.pairwise_singleton _ c) fun q hq => ?_
    exact Or.inl (List.mem_singleton.mp hq)

theorem itemsOf (name : String) (listKinds : List String) :
    p.Spread [name] (p.itemsOf name listKinds) := by
  unfold Place.itemsOf
  cases hc : p.field? name with
  | none => exact .nil p _
  | some c => exact listItems h hp hc listKinds

end Tree

end Spread

/-- The child under a field and the named children without it lie apart. -/
theorem Numbered.apart_parts_namedExcept (h : root.Numbered) (hp : p.Within root) (name : String) :
    (p.parts [name] ++ p.namedExcept (p.parts [name])).Pairwise Apart := by
  have hchildren := h.apart_children hp
  have hnamed : (p.namedExcept (p.parts [name])).Sublist p.children :=
    List.filter_sublist.trans List.filter_sublist
  have hparts : p.Spread [name] (p.parts [name]) := .parts h hp (List.nodup_singleton name)
  refine List.pairwise_append.mpr ⟨hparts.apart, hchildren.sublist hnamed, fun q hq r hr => ?_⟩
  have hmem : q ∈ p.children := by
    obtain ⟨_, -, hfield⟩ := List.mem_filterMap.mp hq
    exact List.mem_of_find?_eq_some hfield
  refine h.apart_of_mem_children hp hmem (hnamed.subset hr) ?_
  rintro rfl
  have hexcluded := (List.mem_filter.mp hr).2
  have hincluded : (p.parts [name]).contains q = true :=
    List.contains_iff_exists_mem_beq.mpr ⟨q, hq, beq_self_eq_true q.node.number⟩
  rw [hincluded] at hexcluded
  exact nomatch hexcluded

end Place

/-! ## Tables that list apart -/

/-- The parts that the table names at a construct lie apart. -/
def Language.ListsApart (l : Language) (root : Place) : Prop :=
  ∀ p : Place, p.Within root → l.isComment p.kind = false → l.isToken p.node = false →
    (l.pattern p).parts.Pairwise Place.Apart

namespace Language.Python

open Place

variable {root p : Place} (h : root.Numbered) (hp : p.Within root)
include h hp

theorem apart_assignment : (assignment p).parts.Pairwise Apart := by
  have htargets : p.Spread ["left"] (p.itemsOf "left" listKinds) := .itemsOf h hp _ _
  unfold assignment
  dsimp only
  split
  · rename_i right hright
    have hvalues : p.Spread ["right"] (right.listItems listKinds) := .listItems h hp hright _
    exact (htargets.append h hp hvalues (by decide)).apart
  · exact (htargets.append h hp (.nil p []) (by decide)).apart

theorem apart_bindFields (kind : BindingKind) {target value : String} (hne : target ≠ value) :
    (Pattern.bindFields kind target value p).parts.Pairwise Apart := by
  have htarget : p.Spread [target] (p.parts [target]) := .parts h hp (List.nodup_singleton _)
  have hvalue : p.Spread [value] (p.parts [value]) := .parts h hp (List.nodup_singleton _)
  refine (htarget.append h hp hvalue ?_).apart
  simpa using hne

theorem apart_asPattern : (asPattern p).parts.Pairwise Apart :=
  (h.apart_parts_namedExcept hp "alias").sublist
    ((List.Sublist.refl _).append (List.take_sublist 1 _))

theorem apart_clauseArm : (clauseArm p).Pairwise Apart := by
  unfold clauseArm
  split
  · exact (Spread.parts h hp (by decide)).apart
  · exact (Spread.parts h hp (by decide)).apart

theorem apart_ifStatement : (ifStatement p).parts.Pairwise Apart := by
  have hcondition : p.Spread ["condition"] (p.parts ["condition"]) := .parts h hp (by decide)
  have hconsequence : p.Spread ["consequence"] (p.parts ["consequence"]) :=
    .parts h hp (by decide)
  have hclauses : p.Spread ["alternative"] ((p.fields "alternative").flatMap clauseArm) := by
    refine (Spread.fields h hp "alternative").flatMap fun clause hclause => ?_
    have hbelow : p.HasBelow clause := p.allBelow_fields _ clause hclause
    refine ⟨apart_clauseArm h (hp.below hbelow), fun q hq => ?_⟩
    exact Or.inr (allBelow_clauseArm clause q hq)
  exact (hcondition.append h hp (hconsequence.append h hp hclauses (by decide)) (by decide)).apart

theorem apart_matchStatement : (matchStatement p).parts.Pairwise Apart := by
  have hsubject : p.Spread ["subject"] (p.fields "subject") := .fields h hp _
  have hcases : p.Spread ["body"]
      (((p.namedIn "body").filter (·.kind == "case_clause")).flatMap Place.namedChildren) := by
    refine ((Spread.namedIn h hp "body").sublist List.filter_sublist).flatMap
      fun clause hclause => ?_
    have hbelow : p.HasBelow clause :=
      p.allBelow_namedIn "body" clause (List.mem_filter.mp hclause).1
    have hchildren := h.apart_children (hp.below hbelow)
    refine ⟨hchildren.sublist List.filter_sublist, fun q hq => ?_⟩
    exact Or.inr (clause.allBelow_namedChildren q hq)
  exact (hsubject.append h hp hcases (by decide)).apart

omit h hp in
theorem spread_elseBody (p : Place) : p.Spread ["alternative"] (elseBody p) := by
  unfold elseBody
  cases hclause : p.field? "alternative" with
  | none => exact .nil p _
  | some clause =>
    have hbody : clause.Spread ["body"] (clause.field? "body").toList := .field? clause "body"
    refine .of_field? hclause hbody.apart fun q hq => ?_
    exact Or.inr (hasBelow_of_field? (Option.mem_toList.mp hq))

theorem apart_forStatement : (forStatement p).parts.Pairwise Apart := by
  have htargets : p.Spread ["left"] (p.itemsOf "left" listKinds) := .itemsOf h hp _ _
  have hbody : p.Spread ["body"] (p.parts ["body"]) := .parts h hp (by decide)
  have hround :=
    (htargets.append h hp (.field? p "right") (by decide)).append h hp hbody (by decide)
  exact (hround.append h hp (spread_elseBody p) (by decide)).apart

theorem apart_forClause : (forClause p).parts.Pairwise Apart := by
  have htargets : p.Spread ["left"] (p.itemsOf "left" listKinds) := .itemsOf h hp _ _
  have hround := htargets.append h hp (.field? p "right") (by decide)
  have hparts : (forClause p).parts = p.itemsOf "left" listKinds ++ (p.field? "right").toList := by
    simp [forClause, Pattern.parts]
  exact hparts ▸ hround.apart

theorem apart_whileStatement : (whileStatement p).parts.Pairwise Apart := by
  have hrepeated : p.Spread ["condition", "body"] (p.parts ["condition", "body"]) :=
    .parts h hp (by decide)
  exact (hrepeated.append h hp (spread_elseBody p) (by decide)).apart

omit h hp in
/-- A parameter without a fallback. -/
theorem apart_of_name {q : Place} (hq : q.Within p) :
    (Parameter.parts { name := q }).Pairwise Apart ∧
      ∀ r ∈ Parameter.parts { name := q }, r.Within p :=
  ⟨List.pairwise_singleton _ q, List.forall_mem_singleton.mpr hq⟩

theorem apart_parameter? {r : Parameter} (hr : parameter? p = some r) :
    r.parts.Pairwise Apart ∧ ∀ q ∈ r.parts, q.Within p := by
  have hdefaulted : (p.field? "name").map (fun name => ⟨name, p.field? "value"⟩) = some r →
      r.parts.Pairwise Apart ∧ ∀ q ∈ r.parts, q.Within p := by
    intro hr
    obtain ⟨name, hname, rfl⟩ := Option.map_eq_some_iff.mp hr
    have hfields := (Spread.field? p "name").append h hp (.field? p "value") (by decide)
    rw [hname] at hfields
    refine ⟨hfields.apart, fun q hq => ?_⟩
    obtain ⟨c, hc, -, hqc⟩ := hfields.stored q hq
    exact Or.inr ((HasBelow.child hc).of_within hqc)
  have hself : some { name := p } = some r → r.parts.Pairwise Apart ∧ ∀ q ∈ r.parts, q.Within p :=
    fun hr => Option.some.inj hr ▸ apart_of_name (Or.inl rfl)
  unfold parameter? at hr
  split at hr
  -- the kinds in the order of the table, the two with a default first
  · exact hdefaulted hr
  · exact hdefaulted hr
  · obtain ⟨name, hname, rfl⟩ := Option.map_eq_some_iff.mp hr
    exact apart_of_name (Or.inr (p.allBelow_namedChildren.hasBelow_head? name hname))
  · exact hself hr
  · exact hself hr
  · exact hself hr
  · exact hself hr
  · exact nomatch hr

theorem spread_parameters :
    p.Spread ["parameters"] ((parameters p).flatMap Parameter.parts) := by
  unfold parameters
  rw [List.filterMap_eq_flatMap_toList, List.flatMap_assoc]
  refine (Spread.namedIn h hp "parameters").flatMap fun q hq => ?_
  have hbelow : p.HasBelow q := p.allBelow_namedIn "parameters" q hq
  cases hr : parameter? q with
  | none => exact ⟨List.Pairwise.nil, List.forall_mem_nil _⟩
  | some r =>
    have hparts := apart_parameter? h (hp.below hbelow) hr
    rwa [Option.toList_some, List.flatMap_singleton]

theorem spread_inside : p.Spread ["parameters", "body"]
    ((parameters p).flatMap Parameter.parts ++ p.parts ["body"]) := by
  have hbody : p.Spread ["body"] (p.parts ["body"]) := .parts h hp (by decide)
  exact (spread_parameters h hp).append h hp hbody (by decide)

theorem apart_defineNamed : (Pattern.defineNamed (parameters p) p).parts.Pairwise Apart := by
  have hparts := (Spread.field? p "name").append h hp (spread_inside h hp) (by decide)
  rw [← List.append_assoc] at hparts
  exact hparts.apart

theorem apart_defineAnonymous :
    (Pattern.defineAnonymous (parameters p) p).parts.Pairwise Apart :=
  (spread_inside h hp).apart

theorem apart_comprehension : (comprehension p).parts.Pairwise Apart := by
  have hparts := h.apart_parts_namedExcept hp "body"
  exact (List.perm_append_comm.pairwise_iff Apart.symm).mp hparts

theorem apart_pattern : (pattern p).parts.Pairwise Apart := by
  unfold pattern
  split
  · exact apart_assignment h hp
  · exact apart_bindFields h hp _ (by decide)
  · exact apart_bindFields h hp _ (by decide)
  · exact apart_asPattern h hp
  · exact apart_ifStatement h hp
  · exact apart_matchStatement h hp
  · exact apart_forStatement h hp
  · exact apart_forClause h hp
  · exact apart_whileStatement h hp
  · exact apart_defineNamed h hp
  · exact apart_defineAnonymous h hp
  · exact apart_comprehension h hp
  · exact apart_comprehension h hp
  · exact apart_comprehension h hp
  · exact apart_comprehension h hp
  · exact List.Pairwise.nil

end Language.Python

/-- **The table of Python lists apart, whatever the tree is.** -/
theorem Language.listsApart_python {root : Place} (h : root.Numbered) :
    Language.python.ListsApart root :=
  fun _ hp _ _ => Python.apart_pattern h hp

end TokenFlow
