import TokenFlow.Analysis.Graph
import TokenFlow.Proofs.Provenance
import TokenFlow.Proofs.WalkRelation

/-!
# What a graph owes to its tokens

Of the tokens of a file, an analysis uses little: which part each leaf plays, and which
names are spelled alike.  A `Recoding` relates the tokens of one sequence with those of
another so that just this is kept.  `Setup.recoded_graph` shows that the two graphs then
differ in nothing but the texts and numbers of the tokens: edge by edge, the one is the
recoded other.

The live definitions of corresponding names correspond as sets (`Matched`), for recoding
the numbers may change their order.
-/
namespace TokenFlow

/-- The lists hold corresponding elements, in whatever order and number. -/
def Matched {α β : Type} (r : α → β → Prop) (xs : List α) (ys : List β) : Prop :=
  (∀ x ∈ xs, ∃ y ∈ ys, r x y) ∧ ∀ y ∈ ys, ∃ x ∈ xs, r x y

/-- Lists that correspond one by one hold corresponding elements. -/
theorem Matched.of_forall₂ {α β : Type} {r : α → β → Prop} {xs : List α} {ys : List β}
    (h : List.Forall₂ r xs ys) : Matched r xs ys := by
  induction h with
  | nil => exact ⟨List.forall_mem_nil _, List.forall_mem_nil _⟩
  | @cons x y xs ys hxy _ ih =>
    constructor
    · refine List.forall_mem_cons.mpr ⟨⟨y, List.mem_cons_self, hxy⟩, fun x' hx' => ?_⟩
      obtain ⟨y', hy', hxy'⟩ := ih.1 x' hx'
      exact ⟨y', List.mem_cons_of_mem _ hy', hxy'⟩
    · refine List.forall_mem_cons.mpr ⟨⟨x, List.mem_cons_self, hxy⟩, fun y' hy' => ?_⟩
      obtain ⟨x', hx', hxy'⟩ := ih.2 y' hy'
      exact ⟨x', List.mem_cons_of_mem _ hx', hxy'⟩

namespace Matched

variable {α β : Type} {r : α → β → Prop} {xs xs' : List α} {ys ys' : List β}

theorem nil : Matched r [] [] :=
  .of_forall₂ .nil

theorem singleton {x : α} {y : β} (h : r x y) : Matched r [x] [y] :=
  .of_forall₂ (.cons h .nil)

theorem append (h : Matched r xs ys) (h' : Matched r xs' ys') :
    Matched r (xs ++ xs') (ys ++ ys') := by
  constructor
  · intro x hx
    rcases List.mem_append.mp hx with hx | hx
    · obtain ⟨y, hy, hxy⟩ := h.1 x hx
      exact ⟨y, List.mem_append_left _ hy, hxy⟩
    · obtain ⟨y, hy, hxy⟩ := h'.1 x hx
      exact ⟨y, List.mem_append_right _ hy, hxy⟩
  · intro y hy
    rcases List.mem_append.mp hy with hy | hy
    · obtain ⟨x, hx, hxy⟩ := h.2 y hy
      exact ⟨x, List.mem_append_left _ hx, hxy⟩
    · obtain ⟨x, hx, hxy⟩ := h'.2 y hy
      exact ⟨x, List.mem_append_right _ hx, hxy⟩

/-- Only what the lists hold matters. -/
theorem congr (h : Matched r xs ys) (hx : ∀ x, x ∈ xs' ↔ x ∈ xs) (hy : ∀ y, y ∈ ys' ↔ y ∈ ys) :
    Matched r xs' ys' := by
  constructor
  · intro x hmem
    obtain ⟨y, hy', hxy⟩ := h.1 x ((hx x).mp hmem)
    exact ⟨y, (hy y).mpr hy', hxy⟩
  · intro y hmem
    obtain ⟨x, hx', hxy⟩ := h.2 y ((hy y).mp hmem)
    exact ⟨x, (hx x).mpr hx', hxy⟩

end Matched

/-- A correspondence between the names and sources of two sequences of tokens that keeps
apart what is apart and together what is together. -/
structure Recoding where
  /-- Corresponding tokens of names. -/
  name : Token → Token → Prop
  source : Source → Source → Prop
  source_of_name : ∀ {t t'}, name t t' → source t.source t'.source
  source_unique : ∀ {x x' y y'}, source x x' → source y y' → (x = y ↔ x' = y')
  /-- Names are spelled alike on the one side if they are on the other. -/
  text_iff : ∀ {t t' u u'}, name t t' → name u u' → (t.text = u.text ↔ t'.text = u'.text)

namespace Recoding

variable (c : Recoding)

/-- Corresponding sources of corresponding names, where the names are bound. -/
def Defs (t t' : Token) (own own' : Option (List Nat)) : Prop :=
  Option.Rel (Matched c.source) (own.map (Source.ofDefs t.text)) (own'.map (Source.ofDefs t'.text))

/-- Only names are bound, corresponding names together and to corresponding definitions. -/
structure Live (l l' : LiveDefs) : Prop where
  ascending : l.Ascending
  ascending' : l'.Ascending
  named : ∀ {n}, l.get? n ≠ none → ∃ t t', c.name t t' ∧ t.text = n
  named' : ∀ {n}, l'.get? n ≠ none → ∃ t t', c.name t t' ∧ t'.text = n
  defs : ∀ {t t'}, c.name t t' → c.Defs t t' (l.get? t.text) (l'.get? t'.text)

/-- The edges define corresponding names in the same way from corresponding sources. -/
structure Edges (e e' : Edge) : Prop where
  canonical : e.Canonical
  canonical' : e'.Canonical
  name : ∃ t t', c.name t t' ∧ t.source = ⟨e.name, e.index⟩ ∧ t'.source = ⟨e'.name, e'.index⟩
  relation : e.relation = e'.relation
  sources : Matched c.source e.sources e'.sources

variable {c}

/-! ## Edges -/

theorem Edges.ofSources {t t' : Token} (ht : c.name t t') (relation : Relation)
    {xs xs' : List Source} (hxs : Matched c.source xs xs') :
    c.Edges (.ofSources t.text t.index relation xs) (.ofSources t'.text t'.index relation xs') where
  canonical := Edge.canonical_ofSources _ _ _ _
  canonical' := Edge.canonical_ofSources _ _ _ _
  name := ⟨t, t', ht, rfl, rfl⟩
  relation := rfl
  sources := hxs.congr (fun _ => Edge.mem_sources_ofSources) fun _ => Edge.mem_sources_ofSources

theorem Edges.slot_iff {e e' f f' : Edge} (he : c.Edges e e') (hf : c.Edges f f') :
    e.slot = f.slot ↔ e'.slot = f'.slot := by
  obtain ⟨t, t', ht, hte, hte'⟩ := he.name
  obtain ⟨u, u', hu, huf, huf'⟩ := hf.name
  have hsame := c.source_unique (c.source_of_name ht) (c.source_of_name hu)
  rw [hte, huf, hte', huf', Source.mk.injEq, Source.mk.injEq] at hsame
  simp only [Edge.slot, Prod.mk.injEq, ← he.relation, ← hf.relation, ← and_assoc, hsame]

theorem Edges.unite {e e' f f' : Edge} (hf : c.Edges f f') (he : c.Edges e e') :
    c.Edges (f.unite e) (f'.unite e') where
  canonical := Edge.canonical_unite f e
  canonical' := Edge.canonical_unite f' e'
  name := hf.name
  relation := hf.relation
  sources := by
    have hmem : ∀ {f e : Edge} (x : Source), x ∈ (f.unite e).sources ↔ x ∈ f.sources ++ e.sources :=
      fun x => Edge.mem_sources_unite.trans List.mem_append.symm
    exact (hf.sources.append he.sources).congr hmem hmem

theorem edges_absorb {es es' : List Edge} (hes : List.Forall₂ c.Edges es es') {e e' : Edge}
    (he : c.Edges e e') : List.Forall₂ c.Edges (Edge.absorb es e) (Edge.absorb es' e') := by
  induction hes with
  | nil => exact .cons he .nil
  | @cons f f' fs fs' hf hfs ih =>
    by_cases hslot : f.slot = e.slot
    · have hslot' := (hf.slot_iff he).mp hslot
      rw [Edge.absorb_cons_pos hslot, Edge.absorb_cons_pos hslot']
      exact .cons (hf.unite he) hfs
    · have hslot' := mt (hf.slot_iff he).mpr hslot
      rw [Edge.absorb_cons_neg hslot, Edge.absorb_cons_neg hslot']
      exact .cons hf ih

theorem edges_fold {es es' : List Edge} (hes : List.Forall₂ c.Edges es es') :
    List.Forall₂ c.Edges (Edge.fold es) (Edge.fold es') := by
  suffices key : ∀ {acc acc'}, List.Forall₂ c.Edges acc acc' →
      List.Forall₂ c.Edges (es.foldl Edge.absorb acc) (es'.foldl Edge.absorb acc') from key .nil
  -- for whatever has been folded so far
  induction hes with
  | nil => exact fun hacc => hacc
  | cons he _ ih => exact fun hacc => ih (edges_absorb hacc he)

/-! ## Live definitions -/

theorem Live.empty : c.Live .empty .empty where
  ascending := LiveDefs.ascending_empty
  ascending' := LiveDefs.ascending_empty
  named h := absurd rfl h
  named' h := absurd rfl h
  defs _ := .none

theorem Live.bind {l l' : LiveDefs} {t t' : Token} (h : c.Live l l') (ht : c.name t t') :
    c.Live (l.bind t.text t.index) (l'.bind t'.text t'.index) where
  ascending := (Transfers.bind t).ascending h.ascending
  ascending' := (Transfers.bind t').ascending h.ascending'
  named {n} hn := by
    rw [LiveDefs.get?_bind] at hn
    split at hn
    · exact ⟨t, t', ht, ‹_›⟩
    · exact h.named hn
  named' {n} hn := by
    rw [LiveDefs.get?_bind] at hn
    split at hn
    · exact ⟨t, t', ht, ‹_›⟩
    · exact h.named' hn
  defs {u u'} hu := by
    have hiff := c.text_iff ht hu
    rw [LiveDefs.get?_bind, LiveDefs.get?_bind]
    by_cases htext : t.text = u.text
    · rw [if_pos htext, if_pos (hiff.mp htext)]
      refine .some (.singleton ?_)
      rw [← htext, ← hiff.mp htext]
      exact c.source_of_name ht
    · rw [if_neg htext, if_neg (mt hiff.mpr htext)]
      exact h.defs hu

theorem Live.restore {l l' k k' : LiveDefs} {t t' : Token} (h : c.Live l l') (hk : c.Live k k')
    (ht : c.name t t') :
    c.Live (l.restore t.text (k.get? t.text)) (l'.restore t'.text (k'.get? t'.text)) where
  ascending n defs hdefs := by
    rw [LiveDefs.get?_restore] at hdefs
    split at hdefs
    · exact hk.ascending _ defs hdefs
    · exact h.ascending n defs hdefs
  ascending' n defs hdefs := by
    rw [LiveDefs.get?_restore] at hdefs
    split at hdefs
    · exact hk.ascending' _ defs hdefs
    · exact h.ascending' n defs hdefs
  named {n} hn := by
    rw [LiveDefs.get?_restore] at hn
    split at hn
    · exact ⟨t, t', ht, ‹_›⟩
    · exact h.named hn
  named' {n} hn := by
    rw [LiveDefs.get?_restore] at hn
    split at hn
    · exact ⟨t, t', ht, ‹_›⟩
    · exact h.named' hn
  defs {u u'} hu := by
    have hiff := c.text_iff ht hu
    rw [LiveDefs.get?_restore, LiveDefs.get?_restore]
    by_cases htext : t.text = u.text
    · rw [if_pos htext, if_pos (hiff.mp htext), htext, hiff.mp htext]
      exact hk.defs hu
    · rw [if_neg htext, if_neg (mt hiff.mpr htext)]
      exact h.defs hu

section Union

variable {t t' : Token} {os os' : List (Option (List Nat))}

theorem exists_of_mem_left (h : List.Forall₂ (c.Defs t t') os os') {found : List Nat}
    (hfound : some found ∈ os) :
    ∃ found', some found' ∈ os' ∧
      Matched c.source (Source.ofDefs t.text found) (Source.ofDefs t'.text found') := by
  obtain ⟨o', ho', hdefs⟩ := (Matched.of_forall₂ h).1 _ hfound
  cases o' with
  | none => exact nomatch hdefs
  | some found' =>
    cases hdefs with
    | some hmatched => exact ⟨found', ho', hmatched⟩

theorem exists_of_mem_right (h : List.Forall₂ (c.Defs t t') os os') {found' : List Nat}
    (hfound' : some found' ∈ os') :
    ∃ found, some found ∈ os ∧
      Matched c.source (Source.ofDefs t.text found) (Source.ofDefs t'.text found') := by
  obtain ⟨o, ho, hdefs⟩ := (Matched.of_forall₂ h).2 _ hfound'
  cases o with
  | none => exact nomatch hdefs
  | some found =>
    cases hdefs with
    | some hmatched => exact ⟨found, ho, hmatched⟩

/-- What corresponds in every alternative corresponds in their union. -/
theorem defs_unionOf (h : List.Forall₂ (c.Defs t t') os os') :
    c.Defs t t' (LiveDefs.unionOf os) (LiveDefs.unionOf os') := by
  have hnone : LiveDefs.unionOf os = none ↔ LiveDefs.unionOf os' = none := by
    rw [LiveDefs.unionOf_eq_none_iff, LiveDefs.unionOf_eq_none_iff]
    constructor
    · intro hos o' ho'
      cases o' with
      | none => rfl
      | some found' =>
        obtain ⟨found, hfound, -⟩ := exists_of_mem_right h ho'
        exact absurd (hos _ hfound) (Option.some_ne_none _)
    · intro hos' o ho
      cases o with
      | none => rfl
      | some found =>
        obtain ⟨found', hfound', -⟩ := exists_of_mem_left h ho
        exact absurd (hos' _ hfound') (Option.some_ne_none _)
  cases hu : LiveDefs.unionOf os with
  | none =>
    rw [hnone.mp hu]
    exact .none
  | some defs =>
    cases hu' : LiveDefs.unionOf os' with
    | none =>
      rw [hnone.mpr hu'] at hu
      exact absurd hu.symm (Option.some_ne_none _)
    | some defs' =>
      refine .some ⟨fun x hx => ?_, fun y hy => ?_⟩
      · obtain ⟨d, hd, rfl⟩ := List.mem_map.mp hx
        obtain ⟨found, hfound, hd⟩ := (LiveDefs.mem_of_unionOf hu).mp hd
        obtain ⟨found', hfound', hmatched⟩ := exists_of_mem_left h hfound
        obtain ⟨y, hy, hxy⟩ := hmatched.1 _ (List.mem_map_of_mem hd)
        obtain ⟨d', hd', rfl⟩ := List.mem_map.mp hy
        have hmem := (LiveDefs.mem_of_unionOf hu').mpr ⟨found', hfound', hd'⟩
        exact ⟨_, List.mem_map_of_mem hmem, hxy⟩
      · obtain ⟨d', hd', rfl⟩ := List.mem_map.mp hy
        obtain ⟨found', hfound', hd'⟩ := (LiveDefs.mem_of_unionOf hu').mp hd'
        obtain ⟨found, hfound, hmatched⟩ := exists_of_mem_right h hfound'
        obtain ⟨x, hx, hxy⟩ := hmatched.2 _ (List.mem_map_of_mem hd')
        obtain ⟨d, hd, rfl⟩ := List.mem_map.mp hx
        have hmem := (LiveDefs.mem_of_unionOf hu).mpr ⟨found, hfound, hd⟩
        exact ⟨_, List.mem_map_of_mem hmem, hxy⟩

end Union

theorem exists_bound_of_merge {ls : List LiveDefs} {n : String}
    (h : (LiveDefs.merge ls).get? n ≠ none) : ∃ l ∈ ls, l.get? n ≠ none := by
  rw [LiveDefs.get?_merge, ne_eq, LiveDefs.unionOf_eq_none_iff] at h
  push Not at h
  obtain ⟨o, ho, hbound⟩ := h
  obtain ⟨l, hl, rfl⟩ := List.mem_map.mp ho
  exact ⟨l, hl, hbound⟩

theorem Live.merge {ls ls' : List LiveDefs} (h : List.Forall₂ c.Live ls ls') :
    c.Live (.merge ls) (.merge ls') where
  ascending := LiveDefs.ascending_merge ls
  ascending' := LiveDefs.ascending_merge ls'
  named {n} hn := by
    obtain ⟨l, hl, hbound⟩ := exists_bound_of_merge hn
    obtain ⟨l', -, hlive⟩ := (Matched.of_forall₂ h).1 l hl
    exact hlive.named hbound
  named' {n} hn := by
    obtain ⟨l', hl', hbound⟩ := exists_bound_of_merge hn
    obtain ⟨l, -, hlive⟩ := (Matched.of_forall₂ h).2 l' hl'
    exact hlive.named' hbound
  defs {t t'} ht := by
    rw [LiveDefs.get?_merge, LiveDefs.get?_merge]
    refine defs_unionOf (List.forall₂_map_left_iff.mpr (List.forall₂_map_right_iff.mpr ?_))
    exact h.imp fun _ _ hlive => hlive.defs ht

/-- A name that is its own only live definition is so on both sides. -/
theorem Live.self_of_self {l l' : LiveDefs} {t t' : Token} (h : c.Live l l') (ht : c.name t t')
    (hself : l.get? t.text = some [t.index]) : l'.get? t'.text = some [t'.index] := by
  have hdefs := h.defs ht
  rw [hself] at hdefs
  cases hl' : l'.get? t'.text with
  | none =>
    rw [hl'] at hdefs
    exact nomatch hdefs
  | some defs' =>
    rw [hl'] at hdefs
    cases hdefs with
    | some hmatched =>
      have hall : ∀ d ∈ defs', d = t'.index := by
        intro d hd
        obtain ⟨x, hx, hxd⟩ := hmatched.2 _ (List.mem_map_of_mem hd)
        have hx : x = t.source := List.mem_singleton.mp hx
        have hsame := (c.source_unique hxd (c.source_of_name ht)).mp hx
        exact congrArg Source.index hsame
      have hmem : t'.index ∈ defs' := by
        obtain ⟨y, hy, -⟩ := hmatched.1 t.source List.mem_cons_self
        obtain ⟨d, hd, -⟩ := List.mem_map.mp hy
        exact hall d hd ▸ hd
      refine congrArg some (Ascending.eq_of_mem_iff (h.ascending' _ _ hl') ?_ fun d => ?_)
      · exact List.pairwise_singleton _ _
      · rw [List.mem_singleton]
        exact ⟨hall d, fun hd => hd ▸ hmem⟩

/-- The recoding read from the other side. -/
def symm (c : Recoding) : Recoding where
  name t t' := c.name t' t
  source x x' := c.source x' x
  source_of_name := c.source_of_name
  source_unique hx hy := (c.source_unique hx hy).symm
  text_iff ht hu := (c.text_iff ht hu).symm

theorem Live.symm {l l' : LiveDefs} (h : c.Live l l') : c.symm.Live l' l where
  ascending := h.ascending'
  ascending' := h.ascending
  named hn := by
    obtain ⟨t, t', ht, htext⟩ := h.named' hn
    exact ⟨t', t, ht, htext⟩
  named' hn := by
    obtain ⟨t, t', ht, htext⟩ := h.named hn
    exact ⟨t', t, ht, htext⟩
  defs ht := by
    have hdefs := h.defs ht
    unfold Defs at hdefs ⊢
    revert hdefs
    generalize (l.get? _).map _ = own
    generalize (l'.get? _).map _ = own'
    intro hdefs
    cases hdefs with
    | none => exact .none
    | some hmatched => exact .some ⟨hmatched.2, hmatched.1⟩

/-! ## Walks -/

variable (c)

/-- Walks over the places below a root that speak of corresponding tokens. -/
def walkRelation (root : Place) : WalkRelation where
  traced V x y :=
    V x.value y.value ∧ List.Forall₂ c.Edges x.edges y.edges ∧ x.degradations = y.degradations
  place p q := p = q ∧ p.Within root
  target p q := p = q ∧ p.Within root
  extra _ := False
  live := c.Live
  token := c.name
  sources := Matched c.source
  pure h := ⟨h, .nil, rfl⟩
  bind hx hf := by
    obtain ⟨hvalue, hedges, hdegradations⟩ := hx
    obtain ⟨hvalue', hedges', hdegradations'⟩ := hf _ _ hvalue
    exact ⟨hvalue', List.rel_append hedges hedges',
      congr (congrArg _ hdegradations) hdegradations'⟩
  fold hx := ⟨hx.1, edges_fold hx.2.1, hx.2.2⟩
  emit relation ht hxs := ⟨trivial, .cons (.ofSources ht relation hxs) .nil, rfl⟩
  live_empty := .empty
  live_bind h ht := h.bind ht
  live_merge h := .merge h
  live_restore h hk ht := h.restore hk ht
  sources_nil := .nil
  sources_append := .append
  sources_token ht := .singleton (c.source_of_name ht)
  sources_live h ht := h.defs ht

theorem seesItself (root : Place) : (c.walkRelation root).SeesItself := fun _ _ _ _ h ht =>
  ⟨h.self_of_self ht, h.symm.self_of_self (c := c.symm) ht⟩

end Recoding

namespace Setup

variable (s : Setup)

/-- The setup with other tokens. -/
def withTokens (tokens : Tokens) : Setup := { s with tokens }

/-- Each leaf of the tree plays the same part among the other tokens, and is missing there
if it is missing here. -/
def Recodes (c : Recoding) (root : Place) (tokens : Tokens) : Prop :=
  ∀ p : Place, p.Within root → s.language.isToken p.node = true →
    (c.walkRelation root).traced (c.walkRelation root).Leaves (s.leaf p)
      ((s.withTokens tokens).leaf p)

variable {s} {c : Recoding} {root : Place} {tokens : Tokens}

theorem leaf_of_find?_eq_none {p : Place} (h : s.tokens.find? p.node.span = none) :
    s.leaf p = (do
      unless p.node.span.isEmpty do Traced.degrade (.unknownToken p.node.span)
      return .silent) := by
  rw [leaf, h]

theorem leaf_of_find? {p : Place} {t : Token} (h : s.tokens.find? p.node.span = some t) :
    s.leaf p = pure (
      if t.text = "" ∨ t.text = p.kind then .silent
      else if s.language.isIdentifier p.kind then
        if s.language.isLabel p then .silent else .name t
      else .literal t) := by
  rw [leaf, h]
  simp only [Bool.or_eq_true, String.isEmpty_iff, beq_iff_eq]
  split
  · rfl
  · split
    · split <;> rfl
    · rfl

theorem reads_of_recodes (hc : s.Recodes c root tokens) {p : Place} (hp : p.Within root) :
    (c.walkRelation root).Reads s (s.withTokens tokens) p p where
  comment := rfl
  token _ := rfl
  leaf _ htoken := hc p hp htoken

/-- Both walks run alike among recoded tokens. -/
theorem related_of_recodes (hc : s.Recodes c root tokens) (hs : s.language.StaysWithin root)
    (budget : Nat) :
    (s.walkers budget).Related (c.walkRelation root) ((s.withTokens tokens).walkers budget) := by
  have hlanguage : s.language = (s.withTokens tokens).language := rfl
  have hreference : ∀ budget p,
      s.isReference budget p = (s.withTokens tokens).isReference budget p :=
    fun budget => congrFun (isReference_congr hlanguage budget)
  have hpattern : ∀ {p : Place}, p.Within root →
      (c.walkRelation root).Patterns (s.language.pattern p) (s.language.pattern p) := by
    intro p hp
    refine .refl (fun q hq => ⟨rfl, ?_⟩) fun q hq => ⟨rfl, ?_⟩
    · exact hs p hp q (Pattern.mem_parts.mpr (Or.inl hq))
    · exact hs p hp q (Pattern.mem_parts.mpr (Or.inr hq))
  have hchildren : ∀ {p : Place}, p.Within root → ∀ q ∈ p.children, q = q ∧ q.Within root :=
    fun hp _ hq => ⟨rfl, hp.below (.child hq)⟩
  induction budget with
  | zero =>
    refine ⟨fun hpq h => ?_, fun hpq h => ?_, fun hpq => ?_, fun h => h.elim, fun h => h.elim,
      fun h => h.elim⟩ <;> obtain ⟨rfl, -⟩ := hpq
    · exact ⟨h, .nil, rfl⟩
    · exact ⟨⟨h, .nil, hreference 0 _⟩, .nil, rfl⟩
    · exact ⟨.nil, .nil, rfl⟩
  | succ budget ih =>
    refine ⟨fun hpq h => ?_, fun hpq h => ?_, fun hpq => ?_, fun h => h.elim, fun h => h.elim,
      fun h => h.elim⟩ <;> obtain ⟨rfl, hp⟩ := hpq
    · exact (reads_of_recodes hc hp).visitStep (c.seesItself root) h fun _ _ =>
        ih.visitPattern (hpattern hp) (.refl (hchildren hp)) h
    · refine WalkRelation.imp ((reads_of_recodes hc hp).resolveStep h fun _ _ =>
        ih.resolvePattern (hpattern hp) (.refl (hchildren hp)) h) fun _ _ hr => ?_
      exact ⟨hr.1, hr.2, hreference (budget + 1) _⟩
    · exact (reads_of_recodes hc hp).targets fun _ _ => ih.allTargets (.refl (hchildren hp))

/-- **A graph owes to its tokens only which part each leaf plays and which names are
spelled alike.**  Among recoded tokens it is the recoded graph: edge by edge, with recoded
live definitions and the same degradations. -/
theorem recoded_graph (hc : s.Recodes c root tokens) (hs : s.language.StaysWithin root)
    {live live' : LiveDefs} (h : c.Live live live') :
    List.Forall₂ c.Edges (s.graph root live).edges ((s.withTokens tokens).graph root live').edges ∧
      c.Live (s.graph root live).live ((s.withTokens tokens).graph root live').live ∧
      (s.graph root live).degradations = ((s.withTokens tokens).graph root live').degradations := by
  obtain ⟨hlive, hedges, hdegradations⟩ :=
    (related_of_recodes hc hs s.budget).visit ⟨rfl, Or.inl rfl⟩ h
  exact ⟨hedges, hlive, congrArg List.eraseDups hdegradations⟩

end Setup

end TokenFlow
