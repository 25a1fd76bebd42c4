import Mathlib.Data.Set.Function
import TokenFlow.Proofs.DepthLimit
import TokenFlow.Proofs.Recoding

/-!
# Numbers of tokens do not matter

A sequence of tokens may hold its entries in any order; each order numbers the tokens in its own
way.  `Setup.graph_renumber` shows that the graph over the one sequence is the renumbered graph
over the other: the same edges in the same order, with the same names and relations, the same
live definitions, and the same degradations.

An analysis does compare numbers, and numbers order the sources of an edge and the definitions
of a name.  It compares them for equality only, which renumbering keeps, and the lists are put in
order again when their numbers change (`Edge.renumber`, `LiveDefs.renumber`).
-/
namespace TokenFlow

/-! ## The same tokens in another order -/

namespace Tokens

variable {tokens others : Tokens} {t t' u u' : Token} {i : Nat}

/-- The number that another sequence gives to the token with a number. -/
def renumbering (tokens others : Tokens) (i : Nat) : Nat :=
  (((tokens.token? i).bind fun t => others.find? t.span).map (·.index)).getD i

theorem hasIndex_iff : tokens.hasIndex i = true ↔ ∃ t, tokens.token? i = some t := by
  rw [hasIndex, decide_eq_true_eq, size]
  constructor
  · intro h
    exact ⟨_, congrArg (Option.map _) (List.getElem?_eq_getElem h)⟩
  · rintro ⟨t, ht⟩
    obtain ⟨entry, hentry, -⟩ := Option.map_eq_some_iff.mp ht
    exact (List.getElem?_eq_some_iff.mp hentry).1

/-- No other token has the span of a token, so the span leads to it. -/
theorem find?_of_token? (h : tokens.token? i = some t) : tokens.find? t.span = some t := by
  obtain ⟨entry, hentry, rfl⟩ := Option.map_eq_some_iff.mp h
  obtain ⟨hlt, rfl⟩ := List.getElem?_eq_some_iff.mp hentry
  have hfirst : tokens.entries.findIdx? (·.1 == tokens.entries[i].1) = some i := by
    refine List.findIdx?_eq_some_iff_getElem.mpr ⟨hlt, beq_self_eq_true _, fun j hj hspan => ?_⟩
    have hpairwise := List.pairwise_map.mp tokens.distinct
    exact List.pairwise_iff_getElem.mp hpairwise j i (hj.trans hlt) hlt hj (beq_iff_eq.mp hspan)
  rw [find?, hfirst]
  exact h

/-- A token of the one sequence and the token of the other with its span and text. -/
structure Counterparts (tokens others : Tokens) (t t' : Token) : Prop where
  here : tokens.token? t.index = some t
  there : others.token? t'.index = some t'
  span : t.span = t'.span
  text : t.text = t'.text

namespace Counterparts

theorem symm (h : tokens.Counterparts others t t') : others.Counterparts tokens t' t :=
  ⟨h.there, h.here, h.span.symm, h.text.symm⟩

theorem find? (h : tokens.Counterparts others t t') : others.find? t.span = some t' := by
  rw [h.span]
  exact find?_of_token? h.there

/-- Tokens are the same if their counterparts have one number. -/
theorem eq_of_index_eq (ht : tokens.Counterparts others t t') (hu : tokens.Counterparts others u u')
    (h : t'.index = u'.index) : t = u := by
  have hsame : t' = u' := Option.some.inj (ht.there.symm.trans (h ▸ hu.there))
  have hspan : t.span = u.span := ht.span.trans (hsame ▸ hu.span.symm)
  have hfind := find?_of_token? ht.here
  rw [hspan, find?_of_token? hu.here] at hfind
  exact (Option.some.inj hfind).symm

theorem index_eq_iff (ht : tokens.Counterparts others t t')
    (hu : tokens.Counterparts others u u') : t.index = u.index ↔ t'.index = u'.index := by
  constructor
  · intro h
    rw [ht.symm.eq_of_index_eq hu.symm h]
  · intro h
    rw [ht.eq_of_index_eq hu h]

theorem renumbering_eq (h : tokens.Counterparts others t t') :
    tokens.renumbering others t.index = t'.index := by
  rw [renumbering, h.here, Option.bind_some, h.find?]
  rfl

end Counterparts

section Perm

variable (h : tokens.entries.Perm others.entries)
include h

theorem exists_counterpart (ht : tokens.token? i = some t) :
    ∃ t', tokens.Counterparts others t t' := by
  obtain ⟨j, hj⟩ := List.mem_iff_getElem?.mp (h.mem_iff.mp (mem_entries_of_token? ht))
  have hindex := index_of_token? ht
  subst hindex
  exact ⟨⟨j, t.text, t.span⟩, ht, congrArg (Option.map _) hj, rfl, rfl⟩

/-- Each sequence holds tokens for the spans of the other. -/
theorem find?_eq_none_of_perm {span : Span} (hspan : tokens.find? span = none) :
    others.find? span = none := by
  cases hfind : others.find? span with
  | none => rfl
  | some t' =>
    obtain ⟨t, ht⟩ := exists_counterpart h.symm (token?_of_find? hfind)
    have hback := ht.find?
    rw [span_of_find? hfind, hspan] at hback
    exact nomatch hback

/-- **Renumbering is one to one** between the numbers of the two sequences. -/
theorem bijOn_renumbering :
    Set.BijOn (tokens.renumbering others) {i | tokens.hasIndex i} {i | others.hasIndex i} := by
  refine ⟨fun i hi => ?_, fun i hi j hj hij => ?_, fun j hj => ?_⟩
  · obtain ⟨t, ht⟩ := hasIndex_iff.mp hi
    obtain ⟨t', ht'⟩ := exists_counterpart h ht
    rw [← index_of_token? ht, ht'.renumbering_eq]
    exact hasIndex_iff.mpr ⟨t', ht'.there⟩
  · obtain ⟨t, ht⟩ := hasIndex_iff.mp hi
    obtain ⟨u, hu⟩ := hasIndex_iff.mp hj
    obtain ⟨t', ht'⟩ := exists_counterpart h ht
    obtain ⟨u', hu'⟩ := exists_counterpart h hu
    rw [← index_of_token? ht, ← index_of_token? hu] at hij ⊢
    rw [ht'.renumbering_eq, hu'.renumbering_eq] at hij
    exact (ht'.index_eq_iff hu').mpr hij
  · obtain ⟨t', ht'⟩ := hasIndex_iff.mp hj
    obtain ⟨t, ht⟩ := exists_counterpart h.symm ht'
    refine ⟨t.index, hasIndex_iff.mpr ⟨t, ht.there⟩, ?_⟩
    rw [ht.symm.renumbering_eq, index_of_token? ht']

end Perm

end Tokens

/-! ## Renumbered graphs -/

/-- The source with its new number. -/
def Source.renumber (π : Nat → Nat) (x : Source) : Source :=
  ⟨x.name, π x.index⟩

/-- The edge with new numbers, its sources in their new order. -/
def Edge.renumber (π : Nat → Nat) (e : Edge) : Edge :=
  .ofSources e.name (π e.index) e.relation (e.sources.map (Source.renumber π))

/-- The live definitions with new numbers, in their new order. -/
def LiveDefs.renumber (π : Nat → Nat) (live : LiveDefs) : LiveDefs where
  entries := live.entries.map fun (name, defs) => (name, TokenFlow.Ascending.ofList (defs.map π))
  sorted := by
    rw [List.pairwise_map]
    exact live.sorted

/-- The graph with new numbers. -/
def Graph.renumber (π : Nat → Nat) (g : Graph) : Graph :=
  { g with edges := g.edges.map (Edge.renumber π), live := g.live.renumber π }

theorem LiveDefs.get?_renumber (π : Nat → Nat) (live : LiveDefs) (name : String) :
    (live.renumber π).get? name =
      (live.get? name).map fun defs => TokenFlow.Ascending.ofList (defs.map π) := by
  simp only [get?, renumber]
  induction live.entries with
  | nil => rfl
  | cons e es ih =>
    obtain ⟨key, defs⟩ := e
    rw [List.map_cons, lookup, lookup]
    split
    · rfl
    · exact ih

namespace Setup

variable {s : Setup} {root : Place} {tokens : Tokens}

/-- The recoding that another order of the tokens is. -/
def recodingOfOrder (tokens others : Tokens) : Recoding where
  name := tokens.Counterparts others
  source x x' := ∃ t t', tokens.Counterparts others t t' ∧ x = t.source ∧ x' = t'.source
  source_of_name h := ⟨_, _, h, rfl, rfl⟩
  source_unique := by
    rintro _ _ _ _ ⟨t, t', ht, rfl, rfl⟩ ⟨u, u', hu, rfl, rfl⟩
    constructor
    · intro h
      rw [ht.symm.eq_of_index_eq hu.symm (congrArg Source.index h)]
    · intro h
      rw [ht.eq_of_index_eq hu (congrArg Source.index h)]
  text_iff ht hu := by rw [ht.text, hu.text]

/-- Each leaf plays the same part under its new number. -/
theorem recodes_reorder (h : s.tokens.entries.Perm tokens.entries) :
    s.Recodes (recodingOfOrder s.tokens tokens) root tokens := by
  intro p _ _
  show (Recoding.walkRelation _ root).traced _ (s.leaf p) ((s.withTokens tokens).leaf p)
  cases hfind : s.tokens.find? p.node.span with
  | none =>
    have hfind' : (s.withTokens tokens).tokens.find? p.node.span = none :=
      Tokens.find?_eq_none_of_perm h hfind
    rw [leaf_of_find?_eq_none hfind, leaf_of_find?_eq_none hfind']
    cases p.node.span.isEmpty <;> exact ⟨.silent, .nil, rfl⟩
  | some t =>
    obtain ⟨t', ht⟩ := Tokens.exists_counterpart h (Tokens.token?_of_find? hfind)
    have hfind' : (s.withTokens tokens).tokens.find? p.node.span = some t' :=
      Tokens.span_of_find? hfind ▸ ht.find?
    rw [leaf_of_find? hfind, leaf_of_find? hfind', ← ht.text]
    refine ⟨?_, .nil, rfl⟩
    show WalkRelation.Leaves _ (ite _ _ _) (ite _ (Leaf.silent) (if s.language.isIdentifier p.kind
      then if s.language.isLabel p then .silent else .name t' else .literal t'))
    split
    · exact .silent
    · split
      · split
        · exact .silent
        · exact .name ht
      · exact .literal (.singleton ⟨t, t', ht, rfl, rfl⟩)

/-! ### Edges and live definitions -/

theorem eq_renumber_of_source {others : Tokens} {x x' : Source}
    (h : (recodingOfOrder tokens others).source x x') :
    x' = x.renumber (tokens.renumbering others) := by
  obtain ⟨t, t', ht, rfl, rfl⟩ := h
  rw [Source.renumber, Token.source, Token.source, ht.renumbering_eq, ht.text]

theorem eq_renumber_of_edges {others : Tokens} {e e' : Edge}
    (h : (recodingOfOrder tokens others).Edges e e') :
    e' = e.renumber (tokens.renumbering others) := by
  obtain ⟨t, t', ht, hsource, hsource'⟩ := h.name
  have hsame := eq_renumber_of_source ((recodingOfOrder tokens others).source_of_name ht)
  rw [hsource, hsource', Source.renumber, Source.mk.injEq] at hsame
  rw [h.canonical', Edge.renumber, hsame.1, hsame.2, h.relation]
  refine Edge.ofSources_congr fun x => ⟨fun hx => ?_, fun hx => ?_⟩
  · obtain ⟨y, hy, hyx⟩ := h.sources.2 x hx
    exact List.mem_map.mpr ⟨y, hy, (eq_renumber_of_source hyx).symm⟩
  · obtain ⟨y, hy, rfl⟩ := List.mem_map.mp hx
    obtain ⟨x', hx', hyx⟩ := h.sources.1 y hy
    rwa [← eq_renumber_of_source hyx]

theorem mem_iff_of_matched {others : Tokens} {name name' : String} {defs defs' : List Nat}
    (h : Matched (recodingOfOrder tokens others).source (Source.ofDefs name defs)
      (Source.ofDefs name' defs')) (d : Nat) :
    d ∈ defs' ↔ d ∈ defs.map (tokens.renumbering others) := by
  constructor
  · intro hd
    obtain ⟨x, hx, hxd⟩ := h.2 _ (List.mem_map_of_mem hd)
    obtain ⟨d', hd', rfl⟩ := List.mem_map.mp hx
    exact List.mem_map.mpr ⟨d', hd', (congrArg Source.index (eq_renumber_of_source hxd)).symm⟩
  · intro hd
    obtain ⟨d', hd', rfl⟩ := List.mem_map.mp hd
    obtain ⟨x, hx, hxd⟩ := h.1 _ (List.mem_map_of_mem hd')
    obtain ⟨d, hd, rfl⟩ := List.mem_map.mp hx
    have hnumber : d = tokens.renumbering others d' :=
      congrArg Source.index (eq_renumber_of_source hxd)
    exact hnumber ▸ hd

theorem eq_renumber_of_live {others : Tokens} {l l' : LiveDefs}
    (h : (recodingOfOrder tokens others).Live l l') :
    l' = l.renumber (tokens.renumbering others) := by
  have hbound : ∀ {name}, l.get? name ≠ none ∨ l'.get? name ≠ none →
      ∃ t t', tokens.Counterparts others t t' ∧ t.text = name := by
    rintro name (hname | hname)
    · exact h.named hname
    · obtain ⟨t, t', ht, htext⟩ := h.named' hname
      exact ⟨t, t', ht, ht.text.trans htext⟩
  refine LiveDefs.ext_get? fun name => ?_
  rw [LiveDefs.get?_renumber]
  by_cases hnone : l.get? name = none ∧ l'.get? name = none
  · rw [hnone.1, hnone.2]
    rfl
  · obtain ⟨t, t', ht, rfl⟩ := hbound (not_and_or.mp hnone)
    have hdefs := h.defs ht
    rw [← ht.text] at hdefs
    cases hl : l.get? t.text <;> cases hl' : l'.get? t.text <;> rw [hl, hl'] at hdefs
    · rfl
    · exact nomatch hdefs
    · exact nomatch hdefs
    · rename_i defs defs'
      cases hdefs with
      | some hmatched =>
        have hmem := mem_iff_of_matched hmatched
        refine congrArg some (Ascending.eq_of_mem_iff (h.ascending' _ _ hl')
          (Ascending.pairwise_ofList _) fun d => ?_)
        rw [Ascending.mem_ofList, hmem]

/-- **The graph does not depend on how tokens are numbered.**  Where another sequence holds the
same texts under the same spans in whatever order, the graph over it is the renumbered graph, and
renumbering is one to one and keeps the span and the text of each token. -/
theorem graph_renumber (s : Setup) (root : Place)
    (hs : (∃ tag : Tag, s.language = tag.language) ∨ s.language.StaysWithin root)
    (tokens : Tokens) (h : s.tokens.entries.Perm tokens.entries) :
    (s.withTokens tokens).graph root .empty =
      (s.graph root .empty).renumber (s.tokens.renumbering tokens) ∧
    Set.BijOn (s.tokens.renumbering tokens) {i | s.tokens.hasIndex i} {i | tokens.hasIndex i} ∧
    ∀ i t, s.tokens.token? i = some t →
      tokens.token? (s.tokens.renumbering tokens i) =
        some { t with index := s.tokens.renumbering tokens i } := by
  obtain ⟨hedges, hlive, hdegradations⟩ :=
    recoded_graph (recodes_reorder h) (Language.staysWithin_of hs) Recoding.Live.empty
  have hrenumbered : ((s.withTokens tokens).graph root .empty).edges =
      (s.graph root .empty).edges.map (Edge.renumber (s.tokens.renumbering tokens)) := by
    refine (List.forall₂_eq_eq_eq ▸ List.forall₂_map_left_iff.mpr ?_ : _ = _).symm
    exact hedges.imp fun _ _ he => (eq_renumber_of_edges he).symm
  refine ⟨?_, Tokens.bijOn_renumbering h, fun i t ht => ?_⟩
  · show Graph.mk _ _ _ = Graph.mk _ _ _
    exact congr (congrArg₂ Graph.mk hrenumbered (eq_renumber_of_live hlive)) hdegradations.symm
  · obtain ⟨t', ht'⟩ := Tokens.exists_counterpart h ht
    rw [← Tokens.index_of_token? ht, ht'.renumbering_eq, ht'.there, ht'.text, ht'.span]

end Setup

/-- The tokens of the copied chain from right to left. -/
def ChainCopy.reversed : Tokens :=
  .ofList [(⟨⟨0, 6⟩, ⟨0, 7⟩⟩, "p"), (⟨⟨0, 4⟩, ⟨0, 5⟩⟩, "o"), (⟨⟨0, 0⟩, ⟨0, 1⟩⟩, "x")]

namespace Setup

/-- Numbered from right to left, the names of the copied chain change places as sources. -/
theorem graph_renumber_chainCopy :
    ChainCopy.setup.tokens.entries.Perm ChainCopy.reversed.entries ∧
    (ChainCopy.setup.withTokens ChainCopy.reversed).graph ChainCopy.root .empty =
      (ChainCopy.setup.graph ChainCopy.root .empty).renumber
        (ChainCopy.setup.tokens.renumbering ChainCopy.reversed) ∧
    ((ChainCopy.setup.withTokens ChainCopy.reversed).graph ChainCopy.root .empty).edges =
      [.ofSources "x" 2 .comesFrom [⟨"p", 0⟩, ⟨"o", 1⟩]] := by
  have hperm : ChainCopy.setup.tokens.entries.Perm ChainCopy.reversed.entries := by decide
  have hsame := (graph_renumber ChainCopy.setup ChainCopy.root (Or.inl ⟨.python, rfl⟩)
    ChainCopy.reversed hperm).1
  refine ⟨hperm, hsame, ?_⟩
  rw [hsame]
  decide

end Setup

end TokenFlow
