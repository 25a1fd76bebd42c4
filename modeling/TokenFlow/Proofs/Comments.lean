import TokenFlow.Proofs.DepthLimit
import TokenFlow.Proofs.TreePlaces

/-!
# Trees without their comments

`Node.uncommented` takes the comments out of a tree and leaves everything else as it is.
The tokens of a file are the same without them (`Tokens.ofTree_uncommented`), and so is the
graph, provided that the table reads each place as if they were not there
(`Setup.graph_uncommented_of_reads`).

The two walks are compared step by step: places of the one correspond to those of the other,
but for the comments, which have no counterpart (`Language.besideComments`).
-/
namespace TokenFlow

/-! ## Taking the comments out -/

namespace Node

mutual
/-- The tree without the comments below its root. -/
def uncommented (l : Language) : Node → Node
  | ⟨number, kind, named, field, first, beyond, span, children⟩ =>
    ⟨number, kind, named, field, first, beyond, span, uncommentedAll l children⟩

/-- The trees that are not comments, without the comments in them. -/
def uncommentedAll (l : Language) : List Node → List Node
  | [] => []
  | n :: ns =>
    if l.isComment n.kind then uncommentedAll l ns else n.uncommented l :: uncommentedAll l ns
end

variable (l : Language) (n : Node)

@[simp] theorem number_uncommented : (n.uncommented l).number = n.number := by
  cases n
  rw [uncommented]

@[simp] theorem kind_uncommented : (n.uncommented l).kind = n.kind := by
  cases n
  rw [uncommented]

@[simp] theorem named_uncommented : (n.uncommented l).named = n.named := by
  cases n
  rw [uncommented]

@[simp] theorem field_uncommented : (n.uncommented l).field = n.field := by
  cases n
  rw [uncommented]

@[simp] theorem span_uncommented : (n.uncommented l).span = n.span := by
  cases n
  rw [uncommented]

theorem uncommentedAll_eq (ns : List Node) :
    uncommentedAll l ns = (ns.filter fun n => !l.isComment n.kind).map (·.uncommented l) := by
  induction ns with
  | nil => rfl
  | cons n ns ih =>
    rw [uncommentedAll, List.filter_cons, ih]
    cases l.isComment n.kind <;> rfl

theorem children_uncommented :
    (n.uncommented l).children =
      (n.children.filter fun n => !l.isComment n.kind).map (·.uncommented l) := by
  cases n
  rw [uncommented, uncommentedAll_eq]

end Node

namespace Place

variable (l : Language) (p : Place)

/-- The place in the tree without comments. -/
def uncommented : Place :=
  ⟨p.parent.map (·.uncommented l), p.node.uncommented l⟩

/-- The places that are not comments, in the tree without comments. -/
def uncommentedAll (ps : List Place) : List Place :=
  (ps.filter fun p => !l.isComment p.kind).map (·.uncommented l)

@[simp] theorem kind_uncommented : (p.uncommented l).kind = p.kind :=
  p.node.kind_uncommented l

@[simp] theorem named_uncommented : (p.uncommented l).named = p.named :=
  p.node.named_uncommented l

@[simp] theorem number_uncommented : (p.uncommented l).node.number = p.node.number :=
  p.node.number_uncommented l

@[simp] theorem field_uncommented : (p.uncommented l).node.field = p.node.field :=
  p.node.field_uncommented l

@[simp] theorem span_uncommented : (p.uncommented l).node.span = p.node.span :=
  p.node.span_uncommented l

theorem children_uncommented : (p.uncommented l).children = uncommentedAll l p.children := by
  show ((p.node.uncommented l).children.map fun n => _) = _
  rw [Node.children_uncommented, uncommentedAll, children, List.map_map, List.filter_map,
    List.map_map]
  rfl

variable {p} in
theorem uncommentedAll_cons_of_comment (h : l.isComment p.kind = true) (ps : List Place) :
    uncommentedAll l (p :: ps) = uncommentedAll l ps := by
  rw [uncommentedAll, List.filter_cons, h]
  rfl

variable {p} in
theorem uncommentedAll_cons (h : l.isComment p.kind = false) (ps : List Place) :
    uncommentedAll l (p :: ps) = p.uncommented l :: uncommentedAll l ps := by
  rw [uncommentedAll, List.filter_cons, h]
  rfl

/-- Where there are no comments, none are taken out. -/
theorem uncommentedAll_of_forall {ps : List Place} (h : ∀ p ∈ ps, l.isComment p.kind = false) :
    uncommentedAll l ps = ps.map (·.uncommented l) := by
  rw [uncommentedAll, List.filter_eq_self.mpr fun p hp => by rw [h p hp]; rfl]

end Place

/-- Something is left of each node with children. -/
def Language.LeavesChildren (l : Language) (root : Place) : Prop :=
  ∀ p : Place, p.Within root → p.node.children ≠ [] →
    ∃ n ∈ p.node.children, l.isComment n.kind = false

namespace Language

variable {l : Language} {root : Place}

theorem LeavesChildren.isLeaf (h : l.LeavesChildren root) {p : Place} (hp : p.Within root) :
    (p.node.uncommented l).isLeaf = p.node.isLeaf := by
  rw [Node.isLeaf, Node.isLeaf, Node.children_uncommented, List.isEmpty_map]
  by_cases hnil : p.node.children = []
  · rw [hnil]
    rfl
  · obtain ⟨n, hn, hcomment⟩ := h p hp hnil
    have hkept : n ∈ p.node.children.filter fun n => !l.isComment n.kind :=
      List.mem_filter.mpr ⟨hn, by rw [hcomment]; rfl⟩
    rw [List.isEmpty_eq_false_iff.mpr (List.ne_nil_of_mem hkept),
      List.isEmpty_eq_false_iff.mpr hnil]

theorem LeavesChildren.isToken (h : l.LeavesChildren root) {p : Place} (hp : p.Within root) :
    l.isToken (p.node.uncommented l) = l.isToken p.node := by
  rw [Language.isToken, Language.isToken, h.isLeaf hp, Node.kind_uncommented]

end Language

/-! ## Tokens -/

namespace Language

variable (l : Language)

/-- What the sequence of tokens takes of a leaf. -/
private def tokenKey (n : Node) : Span × Nat × Nat :=
  (n.span, n.first, n.beyond)

mutual
theorem leaves_uncommented : ∀ (n : Node) (parent : Option Node), l.LeavesChildren ⟨parent, n⟩ →
    (l.leaves (n.uncommented l)).map tokenKey = (l.leaves n).map tokenKey
  | ⟨number, kind, named, field, first, beyond, span, children⟩, parent, h => by
    have hempty := h.isLeaf (Or.inl rfl)
    rw [Node.uncommented, Node.isLeaf, Node.isLeaf] at hempty
    rw [Node.uncommented, leaves, leaves, hempty]
    split
    · rfl
    split
    · split <;> rfl
    · refine leavesOfAll_uncommented children
        ⟨number, kind, named, field, first, beyond, span, children⟩
        fun n hn p hp => h p ?_
      exact Or.inr (.of_within (.child (List.mem_map_of_mem hn)) hp)

theorem leavesOfAll_uncommented : ∀ (ns : List Node) (parent : Node),
    (∀ n ∈ ns, l.LeavesChildren ⟨some parent, n⟩) →
    (l.leavesOfAll (Node.uncommentedAll l ns)).map tokenKey = (l.leavesOfAll ns).map tokenKey
  | [], _, _ => rfl
  | n :: ns, parent, h => by
    obtain ⟨hn, hns⟩ := List.forall_mem_cons.mp h
    rw [Node.uncommentedAll, leavesOfAll, List.map_append, ← leavesOfAll_uncommented ns parent hns,
      ← leaves_uncommented n (some parent) hn]
    split
    · rename_i hcomment
      have hnone : l.leaves (n.uncommented l) = [] := by
        cases n
        rw [Node.uncommented, leaves, if_pos hcomment]
      rw [hnone]
      rfl
    · rw [leavesOfAll, List.map_append]
end

end Language

/-- **The tokens of a tree are those of the tree without comments.** -/
theorem Tokens.ofTree_uncommented (l : Language) (source : ByteArray) (root : Place)
    (h : l.LeavesChildren root) :
    Tokens.ofTree l source (root.node.uncommented l) = Tokens.ofTree l source root.node := by
  have hkeys := l.leaves_uncommented root.node root.parent h
  have hentries := congrArg (List.map fun key : Span × Nat × Nat =>
    (key.1, Utf8.lossy
      (if key.2.2 ≤ source.size then (source.extract key.2.1 key.2.2).toList else []))) hkeys
  rw [List.map_map, List.map_map] at hentries
  exact congrArg Tokens.ofList hentries

/-! ## Patterns -/

/-- The parameter in the tree without comments. -/
def Parameter.uncommented (l : Language) (q : Parameter) : Parameter :=
  ⟨q.name.uncommented l, q.fallback.map (·.uncommented l)⟩

/-- The pattern in the tree without comments.  Comments are left out of what is read in
order; where places are told apart by their number, there are none. -/
def Pattern.uncommented (l : Language) : Pattern → Pattern
  | binding b =>
    .binding ⟨b.kind, b.targets.map (·.uncommented l), b.values.map (·.uncommented l)⟩
  | update operand => .update (operand.uncommented l)
  | branch b =>
    .branch ⟨Place.uncommentedAll l b.condition, b.arms.map (Place.uncommentedAll l), b.exhaustive⟩
  | iteration i =>
    .iteration ⟨Place.uncommentedAll l i.targets, i.iterable.map (·.uncommented l),
      Place.uncommentedAll l i.body, Place.uncommentedAll l i.tail, i.isScoped⟩
  | loop c =>
    .loop ⟨Place.uncommentedAll l c.setup, Place.uncommentedAll l c.repeated,
      Place.uncommentedAll l c.tail⟩
  | definition d =>
    .definition ⟨d.name.map (·.uncommented l), d.parameters.map (·.uncommented l),
      Place.uncommentedAll l d.body⟩
  | sequence first rest =>
    .sequence (Place.uncommentedAll l first) (Place.uncommentedAll l rest)
  | plain => .plain

namespace Language

variable {l : Language} {root : Place}

/-- The walks over a tree and over the tree without comments, as long as the first is not
cut. -/
abbrev besideComments (l : Language) (root : Place) : WalkRelation :=
  .unlessCut (fun p q => p.Within root ∧ q = p.uncommented l) fun p => l.isComment p.kind = true

theorem forall₂_uncommented {ps : List Place} (h : ∀ p ∈ ps, p.Within root) :
    List.Forall₂ (l.besideComments root).place ps (ps.map (·.uncommented l)) :=
  List.forall₂_map_right_iff.mpr (List.forall₂_same.mpr fun p hp => ⟨h p hp, rfl⟩)

theorem aligned_uncommented {ps : List Place} (h : ∀ p ∈ ps, p.Within root) :
    (l.besideComments root).Evaluated ps (Place.uncommentedAll l ps) := by
  induction ps with
  | nil => exact .nil
  | cons p ps ih =>
    obtain ⟨hp, hps⟩ := List.forall_mem_cons.mp h
    cases hcomment : l.isComment p.kind with
    | false =>
      rw [Place.uncommentedAll_cons l hcomment]
      exact .cons ⟨hp, rfl⟩ (ih hps)
    | true =>
      rw [Place.uncommentedAll_cons_of_comment l hcomment]
      exact .extra hcomment (ih hps)

theorem forall₂_toList_uncommented {o : Option Place} (h : ∀ p ∈ o.toList, p.Within root) :
    List.Forall₂ (l.besideComments root).place o.toList (o.map (·.uncommented l)).toList := by
  cases o with
  | none => exact .nil
  | some p => exact .cons ⟨h p List.mem_cons_self, rfl⟩ .nil

/-- The parts of a pattern correspond to those of the pattern without comments. -/
theorem patterns_uncommented {pattern : Pattern} (h : ∀ p ∈ pattern.parts, p.Within root) :
    (l.besideComments root).Patterns pattern (pattern.uncommented l) := by
  cases pattern with
  | binding b =>
    obtain ⟨htargets, hvalues⟩ := List.forall_mem_append.mp h
    exact .binding rfl (forall₂_uncommented htargets) (forall₂_uncommented hvalues)
  | update operand => exact .update ⟨h operand List.mem_cons_self, rfl⟩
  | branch b =>
    obtain ⟨hcondition, harms⟩ := List.forall_mem_append.mp h
    refine .branch (aligned_uncommented hcondition) (List.forall₂_map_right_iff.mpr ?_) rfl
    refine List.forall₂_same.mpr fun arm harm => aligned_uncommented fun p hp => ?_
    exact harms p (List.mem_flatten_of_mem harm hp)
  | iteration i =>
    simp only [Pattern.parts, List.forall_mem_append] at h
    obtain ⟨⟨⟨htargets, hiterable⟩, hbody⟩, htail⟩ := h
    exact .iteration (aligned_uncommented htargets)
      (.of_forall₂ (forall₂_toList_uncommented hiterable)) (aligned_uncommented hbody)
      (aligned_uncommented htail) rfl
  | loop c =>
    simp only [Pattern.parts, List.forall_mem_append] at h
    obtain ⟨⟨hsetup, hrepeated⟩, htail⟩ := h
    exact .loop (aligned_uncommented hsetup) (aligned_uncommented hrepeated)
      (aligned_uncommented htail)
  | definition d =>
    simp only [Pattern.parts, List.forall_mem_append, List.forall_mem_flatMap] at h
    obtain ⟨⟨hname, hparameters⟩, hbody⟩ := h
    refine .definition (.of_forall₂ (forall₂_toList_uncommented hname))
      (List.forall₂_map_right_iff.mpr ?_) (aligned_uncommented hbody)
    refine List.forall₂_same.mpr fun q hq => ?_
    obtain ⟨hq, hfallback⟩ := List.forall_mem_cons.mp (hparameters q hq)
    exact ⟨⟨hq, rfl⟩, forall₂_toList_uncommented hfallback⟩
  | sequence first rest =>
    obtain ⟨hfirst, hrest⟩ := List.forall_mem_append.mp h
    exact .sequence ((aligned_uncommented hfirst).append (aligned_uncommented hrest))
  | plain => exact .plain

/-- The table reads each place of the tree as if there were no comments. -/
structure ReadsPastComments (l : Language) (root : Place) : Prop where
  pattern : ∀ p : Place, p.Within root → l.pattern (p.uncommented l) = (l.pattern p).uncommented l
  label : ∀ p : Place, p.Within root → l.isComment p.kind = false →
    l.isLabel (p.uncommented l) = l.isLabel p
  /-- No comment stands between the names of a chain. -/
  chain : ∀ p : Place, p.Within root → l.memberAccess.contains p.kind = true →
    ∀ q ∈ p.children, l.isComment q.kind = false

end Language

/-! ## Walks -/

namespace Setup

variable {s : Setup} {root : Place}

section Places

variable (hleaves : s.language.LeavesChildren root) (hpast : s.language.ReadsPastComments root)
include hleaves hpast

theorem isChain_uncommented (budget : Nat) {p : Place} (hp : p.Within root) :
    s.isChain budget (p.uncommented s.language) = s.isChain budget p := by
  induction budget generalizing p with
  | zero => rfl
  | succ budget ih =>
    have htoken : s.language.isToken (p.uncommented s.language).node = s.language.isToken p.node :=
      hleaves.isToken hp
    rw [isChain, isChain, htoken, Place.kind_uncommented, Place.named_uncommented]
    cases haccess : s.language.memberAccess.contains p.kind with
    | false => rfl
    | true =>
      have hchildren : (p.uncommented s.language).children =
          p.children.map (·.uncommented s.language) := by
        rw [Place.children_uncommented]
        exact Place.uncommentedAll_of_forall _ (hpast.chain p hp haccess)
      rw [hchildren, List.all_map]
      congr 2
      rw [Bool.eq_iff_iff, List.all_eq_true, List.all_eq_true]
      exact forall₂_congr fun q hq => by rw [Function.comp, ih (hp.below (.child hq))]

theorem isReference_uncommented (budget : Nat) {p : Place} (hp : p.Within root) :
    s.isReference budget (p.uncommented s.language) = s.isReference budget p := by
  have htoken : s.language.isToken (p.uncommented s.language).node = s.language.isToken p.node :=
    hleaves.isToken hp
  rw [isReference, isReference, htoken, Place.kind_uncommented,
    isChain_uncommented hleaves hpast budget hp]

omit hleaves in
theorem leaf_uncommented {p : Place} (hp : p.Within root)
    (hcomment : s.language.isComment p.kind = false) :
    s.leaf (p.uncommented s.language) = s.leaf p := by
  rw [leaf, leaf, Place.span_uncommented, Place.kind_uncommented, hpast.label p hp hcomment]

theorem reads_uncommented {p : Place} (hp : p.Within root) :
    (s.language.besideComments root).Reads s s p (p.uncommented s.language) where
  comment := by rw [Place.kind_uncommented]
  token _ := (hleaves.isToken hp).symm
  leaf hcomment _ := by
    rw [leaf_uncommented hpast hp hcomment]
    exact fun _ => ⟨.refl (fun _ _ => rfl) fun _ _ => rfl, rfl, rfl⟩

/-- **A walk that is not cut does without comments what it does with them.** -/
theorem related_uncommented (hs : s.language.StaysWithin root) (budget : Nat) :
    (s.walkers budget).Related (s.language.besideComments root) (s.walkers budget) := by
  induction budget with
  | zero =>
    exact ⟨fun _ _ h => absurd h not_intact_cut, fun _ _ h => absurd h not_intact_cut,
      fun _ h => absurd h not_intact_cut, fun _ _ h => absurd h not_intact_cut,
      fun _ _ h => absurd h not_intact_cut, fun _ h => absurd h not_intact_cut⟩
  | succ budget ih =>
    have hpattern : ∀ {p : Place}, p.Within root → (s.language.besideComments root).Patterns
        (s.language.pattern p) (s.language.pattern (p.uncommented s.language)) := by
      intro p hp
      rw [hpast.pattern p hp]
      exact Language.patterns_uncommented (hs p hp)
    have hchildren : ∀ {p : Place}, p.Within root → (s.language.besideComments root).Evaluated
        p.children (p.uncommented s.language).children := by
      intro p hp
      rw [Place.children_uncommented]
      exact Language.aligned_uncommented fun q hq => hp.below (.child hq)
    refine ⟨fun {p q l l'} hpq h => ?_, fun {p q l l'} hpq h => ?_, fun {p q} hpq => ?_,
      fun {p l l'} hp h => ?_, fun {p l l'} hp h => ?_, fun {p} hp => ?_⟩
    · obtain ⟨hp, rfl⟩ := hpq
      exact (reads_uncommented hleaves hpast hp).visitStep WalkRelation.seesItself_unlessCut h
        fun _ _ => ih.visitPattern (hpattern hp) (hchildren hp) h
    · obtain ⟨hp, rfl⟩ := hpq
      refine WalkRelation.imp ((reads_uncommented hleaves hpast hp).resolveStep h
        fun _ _ => ih.resolvePattern (hpattern hp) (hchildren hp) h) fun _ _ hr => ?_
      exact ⟨hr.1, hr.2, (isReference_uncommented hleaves hpast _ hp).symm⟩
    · obtain ⟨hp, rfl⟩ := hpq
      exact (reads_uncommented hleaves hpast hp).targets fun _ _ => ih.allTargets (hchildren hp)
    · show WalkRelation.traced _ _ (s.visit (budget + 1) p l) _
      rw [visit_succ, visitStep_of_comment hp]
      exact WalkRelation.pure _ h
    · show WalkRelation.traced _ _ (s.resolve (budget + 1) p l) _
      rw [resolve_succ, resolveStep_of_comment hp]
      exact WalkRelation.pure _ ⟨h, rfl⟩
    · show WalkRelation.traced _ _ (s.targets (budget + 1) p) _
      rw [s.targets_of_comment hp]
      exact WalkRelation.pure _ rfl

/-- If the table reads past the comments, they do not influence the graph. -/
theorem graph_uncommented_of_reads (hs : s.language.StaysWithin root) (live : LiveDefs)
    (hintact : ∀ x ∈ (s.graph root live).degradations, x.isCut = false) :
    s.graph (root.uncommented s.language) live = s.graph root live := by
  have hintact : (s.visit s.budget root live).Intact :=
    fun x hx => hintact x (List.mem_eraseDups.mpr hx)
  obtain ⟨hvalue, hedges, hdegradations⟩ :=
    (related_uncommented hleaves hpast hs s.budget).visit (p := root)
      ⟨Or.inl rfl, rfl⟩ (rfl : live = live) hintact
  show Graph.mk _ _ _ = Graph.mk _ _ _
  exact (congr (congrArg₂ Graph.mk hedges hvalue) (congrArg List.eraseDups hdegradations)).symm

end Places

end Setup

end TokenFlow
