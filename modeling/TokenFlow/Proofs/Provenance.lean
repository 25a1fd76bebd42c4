import TokenFlow.Analysis.Graph
import TokenFlow.Proofs.TableDescent
import TokenFlow.Proofs.WalkEffects
import TokenFlow.Proofs.WalksWithin

/-!
# Where the numbers in a graph come from

Edges and live definitions name tokens by pairs of a text and a number.  Such a pair
travels far: through the live definitions, nested values, merges, restores and folding.
`Setup.provenance` shows that the two never come apart.  A pair is always that of a token
of the tree, of a name or, as a source, of a literal; or it was there in the seed.

The argument is a vocabulary (`Setup.provenanceOf`): what a walk that keeps to the tree
may reach, define, keep live and draw from.
-/
namespace TokenFlow

/-! ## Places and tokens of a tree -/

/-- The place is the root or below it. -/
def Place.Within (p root : Place) : Prop :=
  p = root ∨ root.HasBelow p

theorem Place.Within.below {p q root : Place} (hp : p.Within root) (hq : p.HasBelow q) :
    q.Within root := by
  rcases hp with rfl | hp
  · exact Or.inr hq
  · exact Or.inr (hp.trans hq)

/-- The parts of a pattern at a place of the tree are places of the tree. -/
def Language.StaysWithin (l : Language) (root : Place) : Prop :=
  ∀ p : Place, p.Within root → ∀ q ∈ (l.pattern p).parts, q.Within root

theorem Tag.staysWithin (tag : Tag) (root : Place) : tag.language.StaysWithin root :=
  fun p hp q hq => hp.below (tag.staysBelow_pattern p q hq)

/-- A table that is one of the seven stays within, as any table may that is given. -/
theorem Language.staysWithin_of {l : Language} {root : Place}
    (h : (∃ tag : Tag, l = tag.language) ∨ l.StaysWithin root) : l.StaysWithin root := by
  rcases h with ⟨tag, rfl⟩ | h
  · exact tag.staysWithin root
  · exact h

namespace Tokens

variable {tokens : Tokens} {t : Token} {i : Nat}

theorem index_of_token? (h : tokens.token? i = some t) : t.index = i := by
  obtain ⟨_, -, rfl⟩ := Option.map_eq_some_iff.mp h
  rfl

/-- The number of a token that is found leads back to it. -/
theorem token?_of_find? {span : Span} (h : tokens.find? span = some t) :
    tokens.token? t.index = some t := by
  obtain ⟨i, -, hi⟩ := Option.bind_eq_some_iff.mp h
  rw [index_of_token? hi]
  exact hi

/-- What is found under a span has the span. -/
theorem span_of_find? {span : Span} (h : tokens.find? span = some t) : t.span = span := by
  obtain ⟨i, hi, ht⟩ := Option.bind_eq_some_iff.mp h
  obtain ⟨entry, hentry, rfl⟩ := Option.map_eq_some_iff.mp ht
  obtain ⟨hlt, hspan, -⟩ := List.findIdx?_eq_some_iff_getElem.mp hi
  rw [List.getElem?_eq_getElem hlt] at hentry
  rw [Option.some.inj hentry] at hspan
  exact beq_iff_eq.mp hspan

theorem mem_entries_of_token? {i : Nat} (h : tokens.token? i = some t) :
    (t.span, t.text) ∈ tokens.entries := by
  obtain ⟨entry, hentry, rfl⟩ := Option.map_eq_some_iff.mp h
  exact List.mem_of_getElem? hentry

theorem getElem?_texts (h : tokens.token? i = some t) : tokens.texts[i]? = some t.text := by
  obtain ⟨entry, hentry, rfl⟩ := Option.map_eq_some_iff.mp h
  rw [texts, List.getElem?_map, hentry]
  rfl

end Tokens

/-- The definitions of the source's name include the source. -/
def LiveDefs.Lists (live : LiveDefs) (x : Source) : Prop :=
  ∃ defs, live.get? x.name = some defs ∧ x.index ∈ defs

namespace Setup

variable (s : Setup)

/-- The token of a name in the tree: of a leaf or atomic node of an identifier kind that is
neither a comment nor a label. -/
def IsName (root : Place) (t : Token) : Prop :=
  ∃ p : Place, p.Within root ∧ s.language.isComment p.kind = false ∧
    s.language.isToken p.node = true ∧ s.language.isIdentifier p.kind = true ∧
    s.language.isLabel p = false ∧ s.tokens.find? p.node.span = some t

/-- The token of a literal in the tree: of a leaf or atomic node of another kind that is no
comment and has a text of its own. -/
def IsLiteral (root : Place) (t : Token) : Prop :=
  ∃ p : Place, p.Within root ∧ s.language.isComment p.kind = false ∧
    s.language.isToken p.node = true ∧ s.language.isIdentifier p.kind = false ∧
    t.text.isEmpty = false ∧ t.text ≠ p.kind ∧ s.tokens.find? p.node.span = some t

variable {s}

theorem IsName.token? {root : Place} {t : Token} (h : s.IsName root t) :
    s.tokens.token? t.index = some t := by
  obtain ⟨_, -, -, -, -, -, hfind⟩ := h
  exact Tokens.token?_of_find? hfind

theorem IsLiteral.token? {root : Place} {t : Token} (h : s.IsLiteral root t) :
    s.tokens.token? t.index = some t := by
  obtain ⟨_, -, -, -, -, -, -, hfind⟩ := h
  exact Tokens.token?_of_find? hfind

theorem of_leaf_eq_name {p : Place} {t : Token} (h : (s.leaf p).value = .name t) :
    s.language.isIdentifier p.kind = true ∧ s.language.isLabel p = false ∧
      s.tokens.find? p.node.span = some t := by
  rw [value_leaf] at h
  split at h
  · exact nomatch h
  rename_i token hfind
  split at h
  · exact nomatch h
  split at h
  · rename_i hidentifier
    split at h
    · exact nomatch h
    · rename_i hlabel
      cases h
      exact ⟨hidentifier, Bool.eq_false_iff.mpr hlabel, hfind⟩
  · exact nomatch h

theorem of_leaf_eq_literal {p : Place} {t : Token} (h : (s.leaf p).value = .literal t) :
    s.language.isIdentifier p.kind = false ∧ t.text.isEmpty = false ∧ t.text ≠ p.kind ∧
      s.tokens.find? p.node.span = some t := by
  rw [value_leaf] at h
  split at h
  · exact nomatch h
  rename_i token hfind
  split at h
  · exact nomatch h
  rename_i htext
  split at h
  · split at h <;> exact nomatch h
  · rename_i hidentifier
    cases h
    rw [Bool.or_eq_true, not_or, beq_iff_eq] at htext
    exact ⟨Bool.eq_false_iff.mpr hidentifier, Bool.eq_false_iff.mpr htext.1, htext.2, hfind⟩

/-! ## The vocabulary of a tree -/

/-- What a walk over a tree may speak of, if it starts from a seed. -/
def provenanceOf (root : Place) (seed : LiveDefs) (hs : s.language.StaysWithin root) :
    Vocabulary s where
  place p := p.Within root
  token t := s.IsName root t
  live x := seed.Lists x ∨ ∃ t, s.IsName root t ∧ t.source = x
  source x := seed.Lists x ∨ ∃ t, (s.IsName root t ∨ s.IsLiteral root t) ∧ t.source = x
  child hp hq := hp.below (.child hq)
  part hp hq := hs _ hp _ hq
  name hp hcomment htoken hleaf :=
    ⟨_, hp, hcomment, htoken, of_leaf_eq_name hleaf⟩
  literal hp hcomment htoken hleaf :=
    Or.inr ⟨_, Or.inr ⟨_, hp, hcomment, htoken, of_leaf_eq_literal hleaf⟩, rfl⟩
  live_of_token ht := Or.inr ⟨_, ht, rfl⟩
  source_of_live h := h.imp_right fun ⟨t, ht, heq⟩ => ⟨t, Or.inl ht, heq⟩

/-- A walk over a tree keeps to the tree and its seed. -/
theorem within_graph (root : Place) (seed : LiveDefs) (hs : s.language.StaysWithin root) :
    (provenanceOf root seed hs).Knows (s.graph root seed).live ∧
      ∀ e ∈ (s.graph root seed).edges, (provenanceOf root seed hs).Drawn e := by
  have hseed : (provenanceOf root seed hs).Knows seed :=
    fun _ defs hdefs _ hd => Or.inl ⟨defs, hdefs, hd⟩
  have hkeeps : (s.walkers s.budget).Keeps (provenanceOf root seed hs) := keeps_walkers s.budget
  obtain ⟨⟨-, hlive⟩, hedges⟩ := hkeeps.visit (p := root) ⟨rfl, Or.inl rfl⟩ ⟨rfl, hseed⟩
  exact ⟨hlive, hedges⟩

/-- **Provenance.**  Each edge defines a token of a name of the tree; each of its sources is
in the seed or is a token of a name or a literal of the tree; each live definition at the
end is in the seed or is a token of a name of the tree.  So nothing dangles where the seed
is empty: in the edges and in the live definitions, each number leads to a token with the
text that it is listed with. -/
theorem provenance (s : Setup) (root : Place)
    (hs : (∃ tag : Tag, s.language = tag.language) ∨ s.language.StaysWithin root)
    (seed : LiveDefs) :
    (∀ e ∈ (s.graph root seed).edges,
      (∃ t, s.IsName root t ∧ s.tokens.token? e.index = some t ∧ t.text = e.name) ∧
        e.sourceNames.length = e.sourceIndices.length ∧
        ∀ x ∈ e.sources, seed.Lists x ∨ ∃ t, (s.IsName root t ∨ s.IsLiteral root t) ∧
          s.tokens.token? x.index = some t ∧ t.text = x.name) ∧
    (∀ x : Source, (s.graph root seed).live.Lists x →
      seed.Lists x ∨
        ∃ t, s.IsName root t ∧ s.tokens.token? x.index = some t ∧ t.text = x.name) ∧
    (seed = .empty →
      (∀ e ∈ (s.graph root seed).edges, s.tokens.texts[e.index]? = some e.name ∧
        e.sourceIndices.map (s.tokens.texts[·]?) = e.sourceNames.map some) ∧
      ∀ x : Source, (s.graph root seed).live.Lists x →
        s.tokens.texts[x.index]? = some x.name) := by
  have hwithin : s.language.StaysWithin root := by
    rcases hs with ⟨tag, htag⟩ | hs
    · rw [htag]
      exact tag.staysWithin root
    · exact hs
  obtain ⟨hlive, hedges⟩ := within_graph root seed hwithin
  have htoken : ∀ e ∈ (s.graph root seed).edges,
      ∃ t, s.IsName root t ∧ s.tokens.token? e.index = some t ∧ t.text = e.name := by
    intro e he
    obtain ⟨-, ⟨t, ht, htext, hindex⟩, -⟩ := hedges e he
    exact ⟨t, ht, hindex ▸ ht.token?, htext⟩
  have hsource : ∀ e ∈ (s.graph root seed).edges, ∀ x ∈ e.sources,
      seed.Lists x ∨ ∃ t, (s.IsName root t ∨ s.IsLiteral root t) ∧
        s.tokens.token? x.index = some t ∧ t.text = x.name := by
    intro e he x hx
    obtain ⟨-, -, hdrawn⟩ := hedges e he
    refine (hdrawn x hx).imp_right ?_
    rintro ⟨t, ht, rfl⟩
    exact ⟨t, ht, ht.elim IsName.token? IsLiteral.token?, rfl⟩
  have hstate : ∀ x : Source, (s.graph root seed).live.Lists x →
      seed.Lists x ∨
        ∃ t, s.IsName root t ∧ s.tokens.token? x.index = some t ∧ t.text = x.name := by
    rintro ⟨name, d⟩ ⟨defs, hdefs, hd⟩
    refine (hlive name defs hdefs d hd).imp_right ?_
    rintro ⟨t, ht, heq⟩
    cases heq
    exact ⟨t, ht, ht.token?, rfl⟩
  have hlists : ∀ e ∈ (s.graph root seed).edges,
      e.sourceNames = e.sources.map (·.name) ∧ e.sourceIndices = e.sources.map (·.index) :=
    fun e he => (hedges e he).1.lists
  refine ⟨fun e he => ⟨htoken e he, ?_, hsource e he⟩, hstate, ?_⟩
  · rw [(hlists e he).1, (hlists e he).2, List.length_map, List.length_map]
  · rintro rfl
    -- nothing is in the empty seed, so each pair is that of a token
    have hnone : ∀ x, ¬ LiveDefs.empty.Lists x := fun x ⟨_, h, _⟩ => nomatch h
    refine ⟨fun e he => ⟨?_, ?_⟩, fun x hx => ?_⟩
    · obtain ⟨t, -, ht, htext⟩ := htoken e he
      rw [Tokens.getElem?_texts ht, htext]
    · rw [(hlists e he).1, (hlists e he).2, List.map_map, List.map_map]
      refine List.map_congr_left fun x hx => ?_
      obtain ⟨t, -, ht, htext⟩ := (hsource e he x hx).resolve_left (hnone x)
      show s.tokens.texts[x.index]? = some x.name
      rw [Tokens.getElem?_texts ht, htext]
    · obtain ⟨t, -, ht, htext⟩ := (hstate x hx).resolve_left (hnone x)
      rw [Tokens.getElem?_texts ht, htext]

/-- From the empty seed, the condition of a loop that copies draws from the copied name. -/
theorem provenance_copyLoop :
    ∃ e ∈ (CopyLoop.setup.graph CopyLoop.root .empty).edges,
      e = .ofSources "a" 0 .comesFrom [⟨"a", 1⟩] ∧
        CopyLoop.setup.tokens.texts[e.index]? = some e.name ∧
        e.sourceIndices.map (CopyLoop.setup.tokens.texts[·]?) = e.sourceNames.map some := by
  let e : Edge := .ofSources "a" 0 .comesFrom [⟨"a", 1⟩]
  have he : e ∈ (CopyLoop.setup.graph CopyLoop.root .empty).edges := by decide
  have hprovenance := provenance CopyLoop.setup CopyLoop.root (Or.inl ⟨.python, rfl⟩) .empty
  exact ⟨e, he, rfl, (hprovenance.2.2 rfl).1 e he⟩

end Setup

end TokenFlow
