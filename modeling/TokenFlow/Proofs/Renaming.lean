import Mathlib.Data.Set.Function
import Mathlib.Logic.Equiv.Basic
import TokenFlow.Proofs.DepthLimit
import TokenFlow.Proofs.Recoding
import TokenFlow.Proofs.TreePlaces

/-!
# Names of variables do not matter

The names of a program may be replaced one for one.  `Setup.graph_rename` shows that the
graph of the renamed program is the renamed graph: the same edges in the same order, with
the same numbers and relations, and the same degradations.

One thing must be kept: which leaves are silent.  A keyword or a mark is known by having its
own text as its kind, so a variable that is spelled like the kind of its leaf is taken for
one (`Setup.graph_rename_ne`), and a renaming may neither make nor undo such a spelling.
-/
namespace TokenFlow

/-! ## Renamed tokens -/

/-- The spans of the names in a tree. -/
def Language.nameSpans (l : Language) (root : Place) : List Span :=
  (root.places.filter fun p => l.isToken p.node && l.isIdentifier p.kind).map (·.node.span)

/-- The token with its new text, if its span is among the given ones and it has a text. -/
def Token.rename (ρ : String → String) (spans : List Span) (t : Token) : Token :=
  if spans.contains t.span && !t.text.isEmpty then { t with text := ρ t.text } else t

namespace Token

variable {ρ : String → String} {spans : List Span} {t : Token}

@[simp] theorem index_rename : (t.rename ρ spans).index = t.index := by
  unfold rename
  split <;> rfl

theorem text_rename_of_mem (h : t.span ∈ spans) (htext : t.text ≠ "") :
    (t.rename ρ spans).text = ρ t.text := by
  have hempty : t.text.isEmpty = false := Bool.eq_false_iff.mpr (mt String.isEmpty_iff.mp htext)
  rw [rename, hempty, List.contains_iff_mem.mpr h]
  rfl

theorem rename_of_not_mem (h : t.span ∉ spans) : t.rename ρ spans = t := by
  rw [rename, Bool.eq_false_iff.mpr (mt List.contains_iff_mem.mp h)]
  rfl

theorem rename_of_text_eq (h : t.text = "") : t.rename ρ spans = t := by
  rw [rename, h, String.isEmpty_iff.mpr rfl, Bool.not_true, Bool.and_false]
  rfl

end Token

namespace Tokens

/-- The tokens with new texts for those of the given spans. -/
def rename (ρ : String → String) (spans : List Span) (tokens : Tokens) : Tokens where
  entries := tokens.entries.map fun (span, text) =>
    (span, if spans.contains span && !text.isEmpty then ρ text else text)
  distinct := by
    rw [List.map_map]
    exact tokens.distinct

variable {ρ : String → String} {spans : List Span} {tokens : Tokens} {t : Token}

theorem token?_rename (i : Nat) :
    (tokens.rename ρ spans).token? i = (tokens.token? i).map (Token.rename ρ spans) := by
  simp only [token?, rename, List.getElem?_map, Option.map_map]
  refine congrArg (Option.map · _) (funext fun entry => ?_)
  simp only [Function.comp, Token.rename]
  split <;> rfl

theorem find?_rename (span : Span) :
    (tokens.rename ρ spans).find? span = (tokens.find? span).map (Token.rename ρ spans) := by
  have hindex : (tokens.rename ρ spans).entries.findIdx? (·.1 == span) =
      tokens.entries.findIdx? (·.1 == span) := by
    rw [rename, List.findIdx?_map]
    rfl
  rw [find?, hindex, find?]
  cases tokens.entries.findIdx? (·.1 == span) with
  | none => rfl
  | some i => exact token?_rename i

end Tokens

/-! ## Renamed graphs -/

/-- The source with its new name, if its number is that of a name. -/
def Source.rename (ρ : String → String) (isName : Nat → Bool) (x : Source) : Source :=
  if isName x.index then ⟨ρ x.name, x.index⟩ else x

/-- The edge with a new name and renamed sources. -/
def Edge.rename (ρ : String → String) (isName : Nat → Bool) (e : Edge) : Edge :=
  .ofSources (ρ e.name) e.index e.relation (e.sources.map (Source.rename ρ isName))

/-- The live definitions with new names. -/
def LiveDefs.rename (ρ : String → String) (live : LiveDefs) : LiveDefs :=
  live.entries.foldl (fun renamed (name, defs) => renamed.set (ρ name) defs) .empty

/-- The graph with new names for the names. -/
def Graph.rename (ρ : String → String) (isName : Nat → Bool) (g : Graph) : Graph :=
  { g with edges := g.edges.map (Edge.rename ρ isName), live := g.live.rename ρ }

namespace LiveDefs

variable {ρ : String → String}

theorem mem_of_lookup {name : String} {defs : List Nat} {es : List (String × List Nat)}
    (h : lookup name es = some defs) : (name, defs) ∈ es := by
  induction es with
  | nil => exact nomatch h
  | cons e es ih =>
    obtain ⟨key, own⟩ := e
    rw [lookup] at h
    split at h
    · rename_i hkey
      rw [hkey, Option.some.inj h]
      exact List.mem_cons_self
    · exact List.mem_cons_of_mem _ (ih h)

theorem lookup_ne_none_of_mem {e : String × List Nat} {es : List (String × List Nat)}
    (h : e ∈ es) : lookup e.1 es ≠ none := by
  induction es with
  | nil => exact absurd h List.not_mem_nil
  | cons e' es ih =>
    obtain ⟨key, own⟩ := e'
    rw [lookup]
    split
    · exact Option.some_ne_none _
    · rename_i hkey
      rcases List.mem_cons.mp h with rfl | h
      · exact absurd rfl hkey
      · exact ih h

/-- The entries as they are added to what has been renamed so far. -/
theorem get?_foldl_set_of_ne {es : List (String × List Nat)} {name : String}
    (h : ∀ e ∈ es, ρ e.1 ≠ name) (renamed : LiveDefs) :
    (es.foldl (fun renamed (name, defs) => renamed.set (ρ name) defs) renamed).get? name =
      renamed.get? name := by
  induction es generalizing renamed with
  | nil => rfl
  | cons e es ih =>
    obtain ⟨hne, h⟩ := List.forall_mem_cons.mp h
    rw [List.foldl_cons, ih h, get?_set, if_neg hne]

theorem get?_foldl_set_of_mem {es : List (String × List Nat)}
    (hdistinct : es.Pairwise fun e f => ρ e.1 ≠ ρ f.1) {e : String × List Nat} (he : e ∈ es)
    (renamed : LiveDefs) :
    (es.foldl (fun renamed (name, defs) => renamed.set (ρ name) defs) renamed).get? (ρ e.1) =
      some e.2 := by
  induction es generalizing renamed with
  | nil => exact absurd he List.not_mem_nil
  | cons f es ih =>
    obtain ⟨hf, hdistinct⟩ := List.pairwise_cons.mp hdistinct
    rcases List.mem_cons.mp he with rfl | he
    · rw [List.foldl_cons, get?_foldl_set_of_ne fun f' hf' => (hf f' hf').symm, get?_set,
        if_pos rfl]
    · rw [List.foldl_cons, ih hdistinct he]

variable {live : LiveDefs}

/-- No two bound names are renamed alike. -/
def Separates (live : LiveDefs) (ρ : String → String) : Prop :=
  ∀ m n, live.get? m ≠ none → live.get? n ≠ none → ρ m = ρ n → m = n

theorem get?_rename_of_eq_some (h : live.Separates ρ) {name : String} {defs : List Nat}
    (hdefs : live.get? name = some defs) : (live.rename ρ).get? (ρ name) = some defs := by
  have hdistinct : live.entries.Pairwise fun e f => ρ e.1 ≠ ρ f.1 := by
    refine live.sorted.imp_of_mem fun he hf hlt heq => ?_
    have hsame := h _ _ (lookup_ne_none_of_mem he) (lookup_ne_none_of_mem hf) heq
    exact String.lt_irrefl _ (hsame ▸ hlt)
  exact get?_foldl_set_of_mem hdistinct (mem_of_lookup hdefs) .empty

theorem get?_rename_eq_none {name : String} (h : ∀ n, live.get? n ≠ none → ρ n ≠ name) :
    (live.rename ρ).get? name = none :=
  get?_foldl_set_of_ne (fun e he => h e.1 (lookup_ne_none_of_mem he)) .empty

end LiveDefs

namespace Setup

variable (s : Setup) (ρ : String → String) (root : Place)

/-- The texts of the names in a tree. -/
def nameTexts : List String :=
  (s.tokens.entries.filter fun (span, text) =>
    (s.language.nameSpans root).contains span && !text.isEmpty).map Prod.snd

/-- Whether a number is that of a name in a tree. -/
def isNameIndex (i : Nat) : Bool :=
  (s.tokens.token? i).any fun t => (s.language.nameSpans root).contains t.span

/-- The setup with the names of a tree renamed among its tokens. -/
def rename : Setup :=
  s.withTokens (s.tokens.rename ρ (s.language.nameSpans root))

/-- The renaming neither makes nor undoes a text that is the kind of its leaf. -/
def KeepsMarks : Prop :=
  ∀ p : Place, p.Within root → s.language.isToken p.node = true →
    ∀ t, s.tokens.find? p.node.span = some t →
      ((t.rename ρ (s.language.nameSpans root)).text = p.kind ↔ t.text = p.kind)

/-- A number of the sequence with its token, old and new. -/
def Renamed (t t' : Token) : Prop :=
  s.tokens.token? t.index = some t ∧ t.text ≠ "" ∧
    t' = t.rename ρ (s.language.nameSpans root)

variable {s ρ root}

theorem mem_nameTexts {t : Token} (ht : s.tokens.token? t.index = some t) (htext : t.text ≠ "")
    (hspan : t.span ∈ s.language.nameSpans root) : t.text ∈ s.nameTexts root := by
  have hempty : t.text.isEmpty = false := Bool.eq_false_iff.mpr (mt String.isEmpty_iff.mp htext)
  refine List.mem_map.mpr ⟨(t.span, t.text), List.mem_filter.mpr ⟨?_, ?_⟩, rfl⟩
  · exact Tokens.mem_entries_of_token? ht
  · show ((s.language.nameSpans root).contains t.span && !t.text.isEmpty) = true
    rw [hempty, List.contains_iff_mem.mpr hspan]
    rfl

/-- The recoding that a renaming is. -/
def recodingOf (hρ : Set.InjOn ρ {name | name ∈ s.nameTexts root}) : Recoding where
  name t t' := s.Renamed ρ root t t' ∧ t.span ∈ s.language.nameSpans root
  source x x' := ∃ t t', s.Renamed ρ root t t' ∧ x = t.source ∧ x' = t'.source
  source_of_name h := ⟨_, _, h.1, rfl, rfl⟩
  source_unique := by
    rintro _ _ _ _ ⟨t, _, ⟨ht, -, rfl⟩, rfl, rfl⟩ ⟨u, _, ⟨hu, -, rfl⟩, rfl, rfl⟩
    constructor
    · intro h
      have hindex : t.index = u.index := congrArg Source.index h
      rw [Option.some.inj (ht.symm.trans (hindex ▸ hu))]
    · intro h
      have hindex := congrArg Source.index h
      simp only [Token.source, Token.index_rename] at hindex
      rw [Option.some.inj (ht.symm.trans (hindex ▸ hu))]
  text_iff := by
    rintro t _ u _ ⟨⟨ht, htext, rfl⟩, htspan⟩ ⟨⟨hu, hutext, rfl⟩, huspan⟩
    rw [Token.text_rename_of_mem htspan htext, Token.text_rename_of_mem huspan hutext]
    constructor
    · exact fun h => congrArg ρ h
    · exact fun h => hρ (mem_nameTexts ht htext htspan) (mem_nameTexts hu hutext huspan) h

/-! ### Leaves -/

theorem span_mem_nameSpans {p : Place} (hp : p.Within root)
    (htoken : s.language.isToken p.node = true) (hkind : s.language.isIdentifier p.kind = true) :
    p.node.span ∈ s.language.nameSpans root := by
  refine List.mem_map.mpr ⟨p, List.mem_filter.mpr ⟨Place.mem_places.mpr hp, ?_⟩, rfl⟩
  rw [htoken, hkind]
  rfl

/-- Each leaf plays the same part under its new name. -/
theorem recodes_rename (hρ : Set.InjOn ρ {name | name ∈ s.nameTexts root})
    (hempty : ∀ name ∈ s.nameTexts root, ρ name ≠ "") (hmarks : s.KeepsMarks ρ root) :
    s.Recodes (recodingOf hρ) root (s.tokens.rename ρ (s.language.nameSpans root)) := by
  intro p hp htoken
  have hfind : (s.rename ρ root).tokens.find? p.node.span =
      (s.tokens.find? p.node.span).map (Token.rename ρ (s.language.nameSpans root)) :=
    Tokens.find?_rename p.node.span
  show (Recoding.walkRelation _ root).traced _ (s.leaf p) ((s.rename ρ root).leaf p)
  cases hold : s.tokens.find? p.node.span with
  | none =>
    rw [hold] at hfind
    rw [leaf_of_find?_eq_none hold, leaf_of_find?_eq_none hfind]
    cases p.node.span.isEmpty <;> exact ⟨.silent, .nil, rfl⟩
  | some t =>
    rw [hold] at hfind
    have ht := Tokens.token?_of_find? hold
    have hspan := Tokens.span_of_find? hold
    have hsilent : (t.rename ρ (s.language.nameSpans root)).text = "" ∨
        (t.rename ρ (s.language.nameSpans root)).text = p.kind ↔
          t.text = "" ∨ t.text = p.kind := by
      refine or_congr ?_ (hmarks p hp htoken t hold)
      by_cases htext : t.text = ""
      · rw [Token.rename_of_text_eq htext]
      · by_cases hmem : t.span ∈ s.language.nameSpans root
        · rw [Token.text_rename_of_mem hmem htext]
          exact iff_of_false (hempty _ (mem_nameTexts ht htext hmem)) htext
        · rw [Token.rename_of_not_mem hmem]
    rw [leaf_of_find? hold, leaf_of_find? hfind]
    refine ⟨?_, .nil, rfl⟩
    show WalkRelation.Leaves _ (ite _ _ _) (ite _ _ _)
    simp only [hsilent]
    split
    · exact .silent
    · rename_i hspeaks
      have hrenamed : s.Renamed ρ root t (t.rename ρ (s.language.nameSpans root)) :=
        ⟨ht, fun h => hspeaks (Or.inl h), rfl⟩
      show WalkRelation.Leaves _ _ (if s.language.isIdentifier p.kind = true then
        if s.language.isLabel p = true then _ else _ else _)
      split
      · rename_i hkind
        split
        · exact .silent
        · exact .name ⟨hrenamed, hspan ▸ span_mem_nameSpans hp htoken hkind⟩
      · exact .literal (.singleton ⟨_, _, hrenamed, rfl, rfl⟩)

/-! ### Edges and live definitions -/

theorem source_of_renamed {t t' : Token} (h : s.Renamed ρ root t t') :
    t'.source = t.source.rename ρ (s.isNameIndex root) := by
  obtain ⟨ht, htext, rfl⟩ := h
  have hname : s.isNameIndex root t.source.index =
      (s.language.nameSpans root).contains t.span := by
    rw [isNameIndex, show s.tokens.token? t.source.index = some t from ht]
    rfl
  rw [Source.rename, hname]
  by_cases hmem : t.span ∈ s.language.nameSpans root
  · rw [if_pos (List.contains_iff_mem.mpr hmem), Token.source, Token.text_rename_of_mem hmem htext,
      Token.index_rename]
    rfl
  · rw [if_neg (mt List.contains_iff_mem.mp hmem), Token.rename_of_not_mem hmem]

theorem eq_rename_of_edges {hρ : Set.InjOn ρ {name | name ∈ s.nameTexts root}} {e e' : Edge}
    (h : (recodingOf hρ).Edges e e') : e' = e.rename ρ (s.isNameIndex root) := by
  obtain ⟨t, _, ⟨⟨-, htext, rfl⟩, hspan⟩, hsource, hsource'⟩ := h.name
  rw [Token.source, Source.mk.injEq] at hsource
  rw [Token.source, Source.mk.injEq, Token.text_rename_of_mem hspan htext, Token.index_rename]
    at hsource'
  rw [h.canonical', Edge.rename, ← hsource.1, ← hsource.2, ← hsource'.1, ← hsource'.2, h.relation]
  refine Edge.ofSources_congr fun x => ⟨fun hx => ?_, fun hx => ?_⟩
  · obtain ⟨_, hmem, ⟨_, _, hrenamed, rfl, rfl⟩⟩ := h.sources.2 x hx
    exact List.mem_map.mpr ⟨_, hmem, (source_of_renamed hrenamed).symm⟩
  · obtain ⟨_, hmem, rfl⟩ := List.mem_map.mp hx
    obtain ⟨_, hmem', ⟨_, _, hrenamed, rfl, rfl⟩⟩ := h.sources.1 _ hmem
    rwa [← source_of_renamed hrenamed]

/-- Under its new name, a name has the live definitions that it had. -/
theorem get?_of_live {hρ : Set.InjOn ρ {name | name ∈ s.nameTexts root}} {l l' : LiveDefs}
    (h : (recodingOf hρ).Live l l') {t t' : Token} (ht : (recodingOf hρ).name t t') :
    l'.get? t'.text = l.get? t.text := by
  have hdefs := h.defs ht
  cases hl : l.get? t.text with
  | none =>
    cases hl' : l'.get? t'.text with
    | none => rfl
    | some defs' =>
      rw [hl, hl'] at hdefs
      exact nomatch hdefs
  | some defs =>
    cases hl' : l'.get? t'.text with
    | none =>
      rw [hl, hl'] at hdefs
      exact nomatch hdefs
    | some defs' =>
      rw [hl, hl'] at hdefs
      cases hdefs with
      | some hmatched =>
        have hindex : ∀ {x x'}, (recodingOf hρ).source x x' → x'.index = x.index := by
          rintro _ _ ⟨_, _, ⟨-, -, rfl⟩, rfl, rfl⟩
          exact Token.index_rename
        refine congrArg some (Ascending.eq_of_mem_iff (h.ascending' _ _ hl') (h.ascending _ _ hl)
          fun d => ⟨fun hd => ?_, fun hd => ?_⟩)
        · obtain ⟨x, hx, hxd⟩ := hmatched.2 _ (List.mem_map_of_mem hd)
          obtain ⟨d', hd', rfl⟩ := List.mem_map.mp hx
          exact (show d = d' from hindex hxd) ▸ hd'
        · obtain ⟨x', hx', hxd⟩ := hmatched.1 _ (List.mem_map_of_mem hd)
          obtain ⟨d', hd', rfl⟩ := List.mem_map.mp hx'
          exact (show d' = d from hindex hxd) ▸ hd'

theorem eq_rename_of_live {hρ : Set.InjOn ρ {name | name ∈ s.nameTexts root}} {l l' : LiveDefs}
    (h : (recodingOf hρ).Live l l') : l' = l.rename ρ := by
  have hname : ∀ {t t'}, (recodingOf hρ).name t t' → t'.text = ρ t.text := by
    rintro t _ ⟨⟨-, htext, rfl⟩, hspan⟩
    exact Token.text_rename_of_mem hspan htext
  have hseparates : l.Separates ρ := by
    intro m n hm hn heq
    obtain ⟨t, _, ⟨⟨ht, htext, -⟩, hspan⟩, rfl⟩ := h.named hm
    obtain ⟨u, _, ⟨⟨hu, hutext, -⟩, huspan⟩, rfl⟩ := h.named hn
    exact hρ (mem_nameTexts ht htext hspan) (mem_nameTexts hu hutext huspan) heq
  refine LiveDefs.ext_get? fun name => ?_
  by_cases hbound : l'.get? name = none
  · rw [hbound, LiveDefs.get?_rename_eq_none]
    rintro _ hn rfl
    obtain ⟨t, t', ht, rfl⟩ := h.named hn
    rw [← hname ht, get?_of_live h ht] at hbound
    exact hn hbound
  · obtain ⟨t, t', ht, rfl⟩ := h.named' hbound
    obtain ⟨defs, hdefs⟩ := Option.ne_none_iff_exists'.mp (get?_of_live h ht ▸ hbound)
    rw [get?_of_live h ht, hdefs, hname ht, LiveDefs.get?_rename_of_eq_some hseparates hdefs]

/-- **Names of variables do not matter**, as long as the same leaves are silent: the graph of
the renamed program is the renamed graph. -/
theorem graph_rename (s : Setup) (root : Place)
    (hs : (∃ tag : Tag, s.language = tag.language) ∨ s.language.StaysWithin root)
    (ρ : String → String) (hρ : Set.InjOn ρ {name | name ∈ s.nameTexts root})
    (hempty : ∀ name ∈ s.nameTexts root, ρ name ≠ "") (hmarks : s.KeepsMarks ρ root) :
    (s.rename ρ root).graph root .empty =
      (s.graph root .empty).rename ρ (s.isNameIndex root) := by
  have hwithin : s.language.StaysWithin root := by
    rcases hs with ⟨tag, htag⟩ | hs
    · rw [htag]
      exact tag.staysWithin root
    · exact hs
  obtain ⟨hedges, hlive, hdegradations⟩ :=
    recoded_graph (recodes_rename hρ hempty hmarks) hwithin Recoding.Live.empty
  have hrenamed : ((s.rename ρ root).graph root .empty).edges =
      (s.graph root .empty).edges.map (Edge.rename ρ (s.isNameIndex root)) := by
    refine (List.forall₂_eq_eq_eq ▸ List.forall₂_map_left_iff.mpr ?_ : _ = _).symm
    exact hedges.imp fun _ _ he => (eq_rename_of_edges he).symm
  show Graph.mk _ _ _ = Graph.mk _ _ _
  exact congr (congrArg₂ Graph.mk hrenamed (eq_rename_of_live hlive)) hdegradations.symm

/-- Copying a chain to another name. -/
theorem graph_rename_chainCopy :
    (ChainCopy.setup.rename (Equiv.swap "x" "copy") ChainCopy.root).graph ChainCopy.root .empty =
      (ChainCopy.setup.graph ChainCopy.root .empty).rename (Equiv.swap "x" "copy")
        (ChainCopy.setup.isNameIndex ChainCopy.root) ∧
    ((ChainCopy.setup.rename (Equiv.swap "x" "copy") ChainCopy.root).graph
        ChainCopy.root .empty).edges =
      [.ofSources "copy" 0 .comesFrom [⟨"o", 1⟩, ⟨"p", 2⟩]] := by
  have hmarks : ChainCopy.setup.KeepsMarks (Equiv.swap "x" "copy") ChainCopy.root := by
    have hall : ∀ p ∈ ChainCopy.root.places, ChainCopy.setup.language.isToken p.node = true →
        (ChainCopy.setup.tokens.find? p.node.span).all fun t =>
          (t.rename (Equiv.swap "x" "copy")
              (ChainCopy.setup.language.nameSpans ChainCopy.root)).text ≠ p.kind ∧
            t.text ≠ p.kind := by decide
    intro p hp htoken t ht
    have hp := hall p (Place.mem_places.mpr hp) htoken
    rw [ht, Option.all_some, decide_eq_true_eq] at hp
    exact iff_of_false hp.1 hp.2
  refine ⟨graph_rename ChainCopy.setup ChainCopy.root (Or.inl ⟨.python, rfl⟩) _
    (Equiv.injective _).injOn (by decide) hmarks, by decide⟩

/-- A variable that is spelled like the kind of its leaf is taken for a mark: nothing is
copied to `identifier`. -/
theorem graph_rename_ne :
    Function.Injective (Equiv.swap "x" "identifier") ∧
    (∀ name ∈ ChainCopy.setup.nameTexts ChainCopy.root,
      Equiv.swap "x" "identifier" name ≠ "") ∧
    (ChainCopy.setup.rename (Equiv.swap "x" "identifier") ChainCopy.root).graph
        ChainCopy.root .empty ≠
      (ChainCopy.setup.graph ChainCopy.root .empty).rename (Equiv.swap "x" "identifier")
        (ChainCopy.setup.isNameIndex ChainCopy.root) := by
  refine ⟨Equiv.injective _, by decide, fun h => ?_⟩
  have hedges := congrArg Graph.edges h
  exact absurd hedges (by decide)

end Setup

end TokenFlow
