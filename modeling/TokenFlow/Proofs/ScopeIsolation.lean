import TokenFlow.Proofs.TreePlaces
import TokenFlow.Proofs.WalkRelation

/-!
# Functions keep their names to themselves

Parameters and body of a function are read in a scope of their own, of which nothing is left
behind.  `Setup.scope_isolation` shows what that is worth: no name inside a function is live
at the end, and none feeds a token outside.

Only reading respects functions.  A place that is assigned to is searched for names and not
read, so whatever stands in it is bound around it, a function's inside included
(`Setup.scope_not_isolated`).  What stands around the function must therefore not assign to
a place that holds it (`Language.KeepsOut`).

The walk around the function is followed by a `WalkRelation` that enters no place below the
function (`Setup.aroundScope`); the walk inside is followed by a vocabulary
(`Setup.insideScope`).
-/
namespace TokenFlow

/-! ## Tokens of a tree -/

namespace Language

variable (l : Language)

mutual
theorem isEmpty_span_of_mem_leaves : ∀ (n : Node) {m : Node}, m ∈ l.leaves n →
    m.span.isEmpty = false
  | ⟨number, kind, named, field, first, beyond, span, children⟩, m, h => by
    rw [leaves] at h
    split at h
    · exact absurd h List.not_mem_nil
    split at h
    · split at h
      · exact absurd h List.not_mem_nil
      · rename_i hspan
        rw [List.mem_singleton.mp h]
        exact Bool.eq_false_iff.mpr hspan
    · exact isEmpty_span_of_mem_leavesOfAll children h

theorem isEmpty_span_of_mem_leavesOfAll : ∀ (ns : List Node) {m : Node}, m ∈ l.leavesOfAll ns →
    m.span.isEmpty = false
  | [], _, h => absurd h List.not_mem_nil
  | n :: ns, m, h => by
    rw [leavesOfAll] at h
    rcases List.mem_append.mp h with h | h
    · exact isEmpty_span_of_mem_leaves n h
    · exact isEmpty_span_of_mem_leavesOfAll ns h
end

end Language

namespace Tokens

theorem mem_entries_push {tokens : Tokens} {span : Span} {text : String} {entry : Span × String}
    (h : entry ∈ (tokens.push span text).2.entries) :
    entry ∈ tokens.entries ∨ entry = (span, text) := by
  unfold push at h
  split at h
  · exact Or.inl h
  · exact (List.mem_append.mp h).imp_right List.mem_singleton.mp

theorem mem_of_mem_ofList {es : List (Span × String)} {entry : Span × String}
    (h : entry ∈ (ofList es).entries) : entry ∈ es := by
  suffices key : ∀ tokens : Tokens,
      entry ∈ (es.foldl (fun t e => (t.push e.1 e.2).2) tokens).entries →
        entry ∈ tokens.entries ∨ entry ∈ es from (key _ h).resolve_left List.not_mem_nil
  clear h
  induction es with
  | nil => exact fun _ h => Or.inl h
  | cons e es ih =>
    intro tokens h
    rcases ih _ h with h | h
    · rcases mem_entries_push h with h | rfl
      · exact Or.inl h
      · exact Or.inr List.mem_cons_self
    · exact Or.inr (List.mem_cons_of_mem _ h)

/-- The tokens of a tree have text. -/
theorem isEmpty_span_of_find? {l : Language} {source : ByteArray} {root : Node} {span : Span}
    {t : Token} (h : (ofTree l source root).find? span = some t) : span.isEmpty = false := by
  have hmem := mem_of_mem_ofList (mem_entries_of_token? (token?_of_find? h))
  obtain ⟨n, hn, heq⟩ := List.mem_map.mp hmem
  have hspan : n.span = t.span := congrArg Prod.fst heq
  rw [← span_of_find? h, ← hspan]
  exact l.isEmpty_span_of_mem_leaves root hn

end Tokens

/-! ## Functions -/

/-- The place is under the name of a parameter, under a fallback or under the body. -/
def Definition.Encloses (d : Definition) (p : Place) : Prop :=
  ∃ q ∈ d.parameters.flatMap Parameter.parts ++ d.body, p.Within q

/-- The place is enclosed and not under the name of the function, which is bound around it. -/
def Definition.Hides (d : Definition) (p : Place) : Prop :=
  d.Encloses p ∧ ∀ q ∈ d.name.toList, ¬ p.Within q

/-- The function is entered by itself alone: nothing around it names a part below it or
assigns to a place that holds it. -/
structure Language.KeepsOut (l : Language) (root f : Place) : Prop where
  whole : ∀ p : Place, p.Within root → p ≠ f → ¬ f.HasBelow p →
    ∀ q ∈ (l.pattern p).parts, ¬ f.HasBelow q
  unassigned : ∀ p : Place, p.Within root → p ≠ f → ¬ f.HasBelow p →
    ∀ q ∈ (l.pattern p).assigned, ¬ f.Within q

/-- Different leaves of the tree with text have different spans. -/
def Language.DistinctSpans (l : Language) (root : Place) : Prop :=
  ∀ p q : Place, p.Within root → q.Within root → l.isToken p.node = true →
    l.isToken q.node = true → p.node.span.isEmpty = false → p.node.span = q.node.span → p = q

section Numbers

variable {l : Language} {root f : Place}

/-- Whether a function is kept out of can be told by the numbers of the places. -/
theorem Language.KeepsOut.of_numbers (hroot : root.Numbered) (hf : f.Within root)
    (h : ∀ p ∈ root.places, p.node.number ∈ f.places.map (·.node.number) ∨
      (∀ q ∈ (l.pattern p).parts, q.node.number ∉ f.below.map (·.node.number)) ∧
        ∀ q ∈ (l.pattern p).assigned, f.node.number ∉ q.places.map (·.node.number)) :
    l.KeepsOut root f := by
  have haround : ∀ p : Place, p.Within root → p ≠ f → ¬ f.HasBelow p →
      p.node.number ∉ f.places.map (·.node.number) := by
    intro p hp hne hbelow hnumber
    obtain ⟨r, hr, hrp⟩ := List.mem_map.mp hnumber
    have hr := Place.mem_places.mp hr
    have hrroot : r.Within root := hr.elim (fun h => h ▸ hf) hf.below
    rw [hroot.eq_of_number_eq hrroot hp hrp] at hr
    exact hr.elim hne hbelow
  constructor
  · intro p hp hne hbelow q hq hfq
    have hparts := (h p (Place.mem_places.mpr hp)).resolve_left (haround p hp hne hbelow)
    exact hparts.1 q hq (List.mem_map_of_mem hfq.mem_below)
  · intro p hp hne hbelow q hq hfq
    have hparts := (h p (Place.mem_places.mpr hp)).resolve_left (haround p hp hne hbelow)
    exact hparts.2 q hq (List.mem_map_of_mem (Place.mem_places.mpr hfq))

theorem Language.DistinctSpans.of_numbers (hroot : root.Numbered)
    (h : ∀ p ∈ root.places, ∀ q ∈ root.places, l.isToken p.node = true →
      l.isToken q.node = true → p.node.span.isEmpty = false → p.node.span = q.node.span →
        p.node.number = q.node.number) : l.DistinctSpans root := by
  intro p q hp hq hptoken hqtoken hspan heq
  refine hroot.eq_of_number_eq hp hq ?_
  exact h p (Place.mem_places.mpr hp) q (Place.mem_places.mpr hq) hptoken hqtoken hspan heq

end Numbers

theorem Definition.Encloses.below {d : Definition} {p q : Place} (h : d.Encloses p)
    (hq : p.HasBelow q) : d.Encloses q := by
  obtain ⟨r, hr, hp⟩ := h
  exact ⟨r, hr, hp.below hq⟩

theorem Definition.Encloses.child {d : Definition} {p q : Place} (h : d.Encloses p)
    (hq : q ∈ p.children) : d.Encloses q :=
  h.below (.child hq)

/-- The places of a definition's inside lie below the function. -/
theorem Definition.Encloses.hasBelow {l : Language} {f p : Place} {d : Definition}
    (hs : ∀ p : Place, (l.pattern p).StaysBelow p) (hd : l.pattern f = .definition d)
    (h : d.Encloses p) : f.HasBelow p := by
  obtain ⟨q, hq, hp⟩ := h
  refine (hs f q ?_).of_within hp
  rw [hd]
  refine List.mem_append.mpr ((List.mem_append.mp hq).imp_left fun hq => ?_)
  exact List.mem_append_right _ hq

namespace Setup

variable (s : Setup)

/-- The number is that of the token of a name leaf with some property. -/
def NamesAt (P : Place → Prop) (i : Nat) : Prop :=
  ∃ p t, P p ∧ s.language.isToken p.node = true ∧ s.language.isIdentifier p.kind = true ∧
    s.tokens.find? p.node.span = some t ∧ t.index = i

/-- The edge stays inside the function or draws from nothing that the function hides. -/
def Sealed (d : Definition) (e : Edge) : Prop :=
  s.NamesAt d.Encloses e.index ∨ ∀ x ∈ e.sources, ¬ s.NamesAt d.Hides x.index

/-! ### Inside -/

theorem encloses_part {d : Definition} (hs : ∀ p : Place, (s.language.pattern p).StaysBelow p)
    {p q : Place} (h : d.Encloses p) (hq : q ∈ (s.language.pattern p).parts) : d.Encloses q :=
  h.below (hs p q hq)

/-- What a walk inside a function may speak of: it defines names of the inside. -/
def insideScope (d : Definition) (hs : ∀ p : Place, (s.language.pattern p).StaysBelow p) :
    Vocabulary s where
  place := d.Encloses
  token t := s.NamesAt d.Encloses t.index
  live _ := True
  source _ := True
  child := @Definition.Encloses.child d
  part := @encloses_part s d hs
  name hp _ htoken hleaf := by
    obtain ⟨hkind, -, hfind⟩ := of_leaf_eq_name hleaf
    exact ⟨_, _, hp, htoken, hkind, hfind, rfl⟩
  literal _ _ _ _ := trivial
  live_of_token _ := trivial
  source_of_live _ := trivial

variable {s} in
theorem sealed_of_traced {d : Definition} {hs : ∀ p : Place, (s.language.pattern p).StaysBelow p}
    {α : Type} {V : α → α → Prop} {x y : Traced α} (h : (s.insideScope d hs).own.traced V x y) :
    ∀ e ∈ x.edges, s.Sealed d e := by
  intro e he
  obtain ⟨-, ⟨t, ht, -, hindex⟩, -⟩ := h.2 e he
  exact Or.inl (hindex ▸ ht)

/-! ### Around -/

/-- What is not hidden by a function. -/
def outsideScope (d : Definition) : Vocabulary s where
  place _ := False
  token t := ¬ s.NamesAt d.Hides t.index
  live x := ¬ s.NamesAt d.Hides x.index
  source x := ¬ s.NamesAt d.Hides x.index
  child h := h.elim
  part h := h.elim
  name h := h.elim
  literal h := h.elim
  live_of_token h := h
  source_of_live h := h

variable {s} in
theorem sealed_unite {d : Definition} (f e : Edge) (hf : s.Sealed d f) (he : s.Sealed d e)
    (hslot : f.slot = e.slot) : s.Sealed d (f.unite e) := by
  have hindex : f.index = e.index := congrArg (·.2.1) hslot
  rcases hf with hf | hf
  · exact Or.inl hf
  rcases he with he | he
  · exact Or.inl (show s.NamesAt d.Encloses f.index from hindex ▸ he)
  · refine Or.inr fun x hx => ?_
    exact (Edge.mem_sources_unite.mp hx).elim (hf x) (he x)

/-- The walk around a function, compared with itself: it reads nothing below the function,
assigns to nothing that the function hides, and brings up sealed edges. -/
def aroundScope (root f : Place) (d : Definition) : WalkRelation :=
  (s.outsideScope d).diagonal (fun p => p.Within root ∧ ¬ f.HasBelow p)
    (fun p => p.Within root ∧ ∀ r : Place, r.Within p → ¬ d.Hides r) (s.Sealed d)
    (fun _ _ _ hxs => Or.inr fun x hx => hxs x (Edge.mem_sources_ofSources.mp hx)) sealed_unite

theorem seesItself_aroundScope (root f : Place) (d : Definition) :
    (s.aroundScope root f d).SeesItself :=
  .of_eq (fun _ _ h => h.1) fun _ _ h => h.1

section Walk

variable {s} {root f : Place} {d : Definition}

/-- The inside of a function is read in a scope of its own, and only its name is bound. -/
theorem define_aroundScope {w : Walkers} (hs : ∀ p : Place, (s.language.pattern p).StaysBelow p)
    (hw : w.Related (s.aroundScope root f d) w) (hinside : w.Keeps (s.insideScope d hs))
    (hname : ∀ q ∈ d.name.toList, q.Within root) {live live' : LiveDefs}
    (h : (s.aroundScope root f d).live live live') :
    (s.aroundScope root f d).traced (s.aroundScope root f d).live (w.define d live)
      (w.define d live') := by
  let R := s.aroundScope root f d
  let I := (s.insideScope d hs).own
  have hencloses : ∀ p ∈ d.parameters.flatMap Parameter.parts ++ d.body, d.Encloses p :=
    fun p hp => ⟨p, hp, Or.inl rfl⟩
  obtain ⟨hparameters, hbody⟩ := List.forall_mem_append.mp hencloses
  have hparameters : List.Forall₂ I.Parameters d.parameters d.parameters :=
    Vocabulary.parameters_own hparameters
  have hbody : I.Evaluated d.body d.body := .refl fun q hq => ⟨rfl, hbody q hq⟩
  have hnames : R.Assigned d.name.toList d.name.toList :=
    .refl fun q hq => ⟨rfl, hname q hq, fun r hr hhides => hhides.2 q hq hr⟩
  have hanything : ∀ scope : LiveDefs, I.live scope scope :=
    fun _ => ⟨rfl, fun _ _ _ _ _ => trivial⟩
  refine R.bind (hw.allTargets hnames) fun _ _ hts => ?_
  refine R.bind (V := fun _ _ => True)
    ⟨trivial, sealed_of_traced (hinside.bindParameters hparameters (hanything _))⟩ fun _ _ _ => ?_
  refine R.bind (V := fun _ _ => True)
    ⟨trivial, sealed_of_traced (hinside.visitAll hbody (hanything _))⟩ fun _ _ _ => ?_
  exact R.pure (R.live_bindAll h hts)

/-- What a walk around a function relies on. -/
structure Surrounds (s : Setup) (root f : Place) (d : Definition) : Prop where
  staysBelow : ∀ p : Place, (s.language.pattern p).StaysBelow p
  numbered : root.Numbered
  within : f.Within root
  pattern : s.language.pattern f = .definition d
  keepsOut : s.language.KeepsOut root f
  /-- No leaf shares its token with a leaf of the inside. -/
  unshared : ∀ p q : Place, p.Within root → d.Encloses q → s.language.isToken p.node = true →
    s.language.isToken q.node = true → ∀ t, s.tokens.find? p.node.span = some t →
      ∀ u, s.tokens.find? q.node.span = some u → t.index = u.index → p = q

namespace Surrounds

variable (h : s.Surrounds root f d)
include h

theorem not_hides {p : Place} (hp : ¬ f.HasBelow p) : ¬ d.Hides p :=
  fun hhides => hp (hhides.1.hasBelow h.staysBelow h.pattern)

theorem within_part {p q : Place} (hp : p.Within root) (hq : q ∈ (s.language.pattern p).parts) :
    q.Within root :=
  hp.below (h.staysBelow p q hq)

/-- A leaf that the function does not hide has a token that it does not hide. -/
theorem leaf {p : Place} (hp : p.Within root) (hhidden : ¬ d.Hides p)
    (htoken : s.language.isToken p.node = true) :
    (s.aroundScope root f d).traced (s.aroundScope root f d).Leaves (s.leaf p) (s.leaf p) := by
  have hfree : ∀ t, s.tokens.find? p.node.span = some t → ¬ s.NamesAt d.Hides t.index := by
    rintro t ht ⟨q, u, hq, hqtoken, -, hu, hindex⟩
    exact hhidden (h.unshared p q hp hq.1 htoken hqtoken t ht u hu hindex.symm ▸ hq)
  refine ⟨.refl (fun t ht => ⟨rfl, hfree t (of_leaf_eq_name ht).2.2⟩) fun t ht => ⟨rfl, ?_⟩, ?_⟩
  · exact List.forall_mem_singleton.mpr (hfree t (of_leaf_eq_literal ht).2.2.2)
  · exact fun e he => absurd (s.edges_leaf p ▸ he) List.not_mem_nil

theorem reads {p : Place} (hp : p.Within root) (hhidden : ¬ d.Hides p) :
    (s.aroundScope root f d).Reads s s p p where
  comment := rfl
  token _ := rfl
  leaf _ := h.leaf hp hhidden

/-- Around the function, a pattern leads to nothing that lies in it. -/
theorem patterns {p : Place} (hp : p.Within root) (hbelow : ¬ f.HasBelow p) (hne : p ≠ f) :
    (s.aroundScope root f d).Patterns (s.language.pattern p) (s.language.pattern p) := by
  refine .refl (fun q hq => ?_) fun q hq => ?_
  · have hpart := Pattern.mem_parts.mpr (Or.inl hq)
    refine ⟨rfl, h.within_part hp hpart, fun r hr hhides => ?_⟩
    -- the function and the assigned place both hold the hidden place
    have hinside := hhides.1.hasBelow h.staysBelow h.pattern
    rcases h.numbered.within_or_within h.within (h.within_part hp hpart) (Or.inr hinside) hr
      with hfq | hqf
    · exact h.keepsOut.unassigned p hp hne hbelow q hq hfq
    · rcases hqf with rfl | hqf
      · exact h.keepsOut.unassigned p hp hne hbelow q hq (Or.inl rfl)
      · exact h.keepsOut.whole p hp hne hbelow q hpart hqf
  · have hpart := Pattern.mem_parts.mpr (Or.inr hq)
    exact ⟨rfl, h.within_part hp hpart, h.keepsOut.whole p hp hne hbelow q hpart⟩

theorem children {p : Place} (hp : p.Within root) (hbelow : ¬ f.HasBelow p) (hne : p ≠ f) :
    (s.aroundScope root f d).Evaluated p.children p.children := by
  refine .refl fun q hq => ⟨rfl, hp.below (.child hq), fun hfq => ?_⟩
  exact (h.numbered.within_of_child hp h.within hq hfq).elim hne hbelow

/-- **The walk around a function keeps out of it.** -/
theorem related (budget : Nat) :
    (s.walkers budget).Related (s.aroundScope root f d) (s.walkers budget) := by
  induction budget with
  | zero =>
    refine ⟨fun hpq hl => ?_, fun hpq hl => ?_, fun hpq => ?_, fun h => h.elim, fun h => h.elim,
      fun h => h.elim⟩ <;> obtain ⟨rfl, -⟩ := hpq
    · exact ⟨hl, List.forall_mem_nil _⟩
    · exact ⟨⟨hl, ⟨rfl, List.forall_mem_nil _⟩, rfl⟩, List.forall_mem_nil _⟩
    · exact ⟨.nil, List.forall_mem_nil _⟩
  | succ budget ih =>
    have hname : ∀ q ∈ d.name.toList, q.Within root := by
      intro q hq
      refine h.within_part h.within (h.pattern ▸ ?_ : q ∈ (s.language.pattern f).parts)
      exact List.mem_append_left _ (List.mem_append_left _ hq)
    have hdefine : ∀ {l l'}, (s.aroundScope root f d).live l l' → _ := fun hl =>
      define_aroundScope h.staysBelow ih (keeps_walkers budget) hname hl
    refine ⟨fun {p _ l l'} hpq hl => ?_, fun {p _ l l'} hpq hl => ?_, fun {p _} hpq => ?_,
      fun h => h.elim, fun h => h.elim, fun h => h.elim⟩ <;> obtain ⟨rfl, hp, hfree⟩ := hpq
    · refine (h.reads hp (h.not_hides hfree)).visitStep (s.seesItself_aroundScope root f d) hl
        fun _ _ => ?_
      by_cases hpf : p = f
      · rw [hpf, h.pattern]
        exact hdefine hl
      · exact ih.visitPattern (h.patterns hp hfree hpf) (h.children hp hfree hpf) hl
    · refine WalkRelation.imp ((h.reads hp (h.not_hides hfree)).resolveStep hl fun _ _ => ?_)
        fun _ _ hr => ⟨hr.1, hr.2, rfl⟩
      by_cases hpf : p = f
      · rw [hpf, h.pattern]
        exact WalkRelation.map (hdefine hl) fun _ _ hlive =>
          ⟨hlive, rfl, List.forall_mem_nil _⟩
      · exact ih.resolvePattern (h.patterns hp hfree hpf) (h.children hp hfree hpf) hl
    · refine (h.reads hp (hfree p (Or.inl rfl))).targets fun _ _ => ih.allTargets (.refl ?_)
      exact fun q hq => ⟨rfl, hp.below (.child hq), fun r hr =>
        hfree r (Or.inr ((Place.HasBelow.child hq).of_within hr))⟩

end Surrounds

end Walk

/-- **Scope isolation.**  If nothing around a function enters or assigns to it, then no name
inside it is live at the end, and a name inside it feeds only tokens inside it. -/
theorem scope_isolation (s : Setup) (source : ByteArray) (root : Place)
    (hs : (∃ tag : Tag, s.language = tag.language) ∨
      ∀ p : Place, (s.language.pattern p).StaysBelow p)
    (htokens : s.tokens = .ofTree s.language source root.node) (hnumbers : root.Numbered)
    (hspans : s.language.DistinctSpans root) {f : Place} {d : Definition} (hf : f.Within root)
    (hd : s.language.pattern f = .definition d) (hout : s.language.KeepsOut root f) :
    (∀ name defs, (s.graph root .empty).live.get? name = some defs →
      ∀ i ∈ defs, ¬ s.NamesAt d.Hides i) ∧
    ∀ e ∈ (s.graph root .empty).edges, (∃ x ∈ e.sources, s.NamesAt d.Hides x.index) →
      s.NamesAt d.Encloses e.index := by
  have hbelow : ∀ p : Place, (s.language.pattern p).StaysBelow p := by
    rcases hs with ⟨tag, htag⟩ | hs
    · rw [htag]
      exact tag.staysBelow_pattern
    · exact hs
  have hunshared : ∀ p q : Place, p.Within root → d.Encloses q →
      s.language.isToken p.node = true → s.language.isToken q.node = true →
      ∀ t, s.tokens.find? p.node.span = some t → ∀ u, s.tokens.find? q.node.span = some u →
        t.index = u.index → p = q := by
    intro p q hp hq hptoken hqtoken t ht u hu hindex
    have hqroot : q.Within root := hf.below (hq.hasBelow hbelow hd)
    have hsame := Tokens.token?_of_find? ht
    rw [hindex, Tokens.token?_of_find? hu] at hsame
    refine hspans p q hp hqroot hptoken hqtoken ?_ ?_
    · exact Tokens.isEmpty_span_of_find? (htokens ▸ ht)
    · rw [← Tokens.span_of_find? ht, ← Tokens.span_of_find? hu, Option.some.inj hsame]
  have hsurrounds : s.Surrounds root f d := ⟨hbelow, hnumbers, hf, hd, hout, hunshared⟩
  have hroot : ¬ f.HasBelow root := by
    rcases hf with rfl | hf
    · exact f.not_hasBelow_self
    · exact fun h => f.not_hasBelow_self (h.trans hf)
  obtain ⟨⟨-, hlive⟩, hedges⟩ := (hsurrounds.related s.budget).visit
    (p := root) (l := .empty) ⟨rfl, Or.inl rfl, hroot⟩ (s.aroundScope root f d).live_empty
  refine ⟨fun name defs hdefs i hi => hlive name defs hdefs i hi, fun e he hsources => ?_⟩
  obtain ⟨x, hx, hhidden⟩ := hsources
  exact (hedges e he).resolve_right fun hfree => hfree x hx hhidden

end Setup

/-! ## A function as a value and in a target -/

namespace LambdaCopy

/-- `x = lambda k: k` -/
def root : Place :=
  .root <| .onLine 0 "assignment" true none 0 15 [
    .onLine 1 "identifier" true (some "left") 0 1 [],
    .onLine 2 "=" false none 2 3 [],
    .onLine 3 "lambda" true (some "right") 4 15 [
      .onLine 4 "lambda" false none 4 10 [],
      .onLine 5 "lambda_parameters" true (some "parameters") 11 12 [
        .onLine 6 "identifier" true none 11 12 []],
      .onLine 7 ":" false none 12 13 [],
      .onLine 8 "identifier" true (some "body") 14 15 []]]

def source : ByteArray := "x = lambda k: k".toUTF8

def setup : Setup where
  language := Language.python
  tokens := .ofTree Language.python source root.node

/-- The place of the function. -/
def function : Place := root.children[2]

def definition : Definition :=
  ⟨none, Language.Python.parameters function, function.parts ["body"]⟩

end LambdaCopy

namespace LambdaTarget

/-- `a[lambda k: k] = 1` -/
def root : Place :=
  .root <| .onLine 0 "assignment" true none 0 18 [
    .onLine 1 "subscript" true (some "left") 0 14 [
      .onLine 2 "identifier" true (some "value") 0 1 [],
      .onLine 3 "[" false none 1 2 [],
      .onLine 4 "lambda" true (some "subscript") 2 13 [
        .onLine 5 "lambda" false none 2 8 [],
        .onLine 6 "lambda_parameters" true (some "parameters") 9 10 [
          .onLine 7 "identifier" true none 9 10 []],
        .onLine 8 ":" false none 10 11 [],
        .onLine 9 "identifier" true (some "body") 12 13 []],
      .onLine 10 "]" false none 13 14 []],
    .onLine 11 "=" false none 15 16 [],
    .onLine 12 "integer" true (some "right") 17 18 []]

def source : ByteArray := "a[lambda k: k] = 1".toUTF8

def setup : Setup where
  language := Language.python
  tokens := .ofTree Language.python source root.node

/-- The place of the function. -/
def function : Place := root.children[0].children[2]

def definition : Definition :=
  ⟨none, Language.Python.parameters function, function.parts ["body"]⟩

end LambdaTarget

namespace Setup

/-- A function that is copied hides its body: the token 5, which is not live at the end. -/
theorem scope_isolation_lambdaCopy :
    LambdaCopy.setup.NamesAt LambdaCopy.definition.Hides 5 ∧
    ∀ name defs, (LambdaCopy.setup.graph LambdaCopy.root .empty).live.get? name = some defs →
      5 ∉ defs := by
  have hnumbers : LambdaCopy.root.Numbered := by
    unfold Place.Numbered
    decide
  have hwithin : LambdaCopy.function.Within LambdaCopy.root :=
    Or.inr (.child (List.getElem_mem _))
  have hspans : LambdaCopy.setup.language.DistinctSpans LambdaCopy.root :=
    .of_numbers hnumbers (by decide)
  have hout : LambdaCopy.setup.language.KeepsOut LambdaCopy.root LambdaCopy.function :=
    .of_numbers hnumbers hwithin (by decide)
  have hhides : LambdaCopy.setup.NamesAt LambdaCopy.definition.Hides 5 := by
    refine ⟨LambdaCopy.function.children[3], ⟨5, "k", ⟨⟨0, 14⟩, ⟨0, 15⟩⟩⟩,
      ⟨⟨_, ?_, Or.inl rfl⟩, ?_⟩,
      rfl, rfl, by decide +kernel, rfl⟩
    · exact List.mem_append_right _ List.mem_cons_self
    · exact List.forall_mem_nil _
  have hisolated := scope_isolation LambdaCopy.setup LambdaCopy.source LambdaCopy.root
    (Or.inl ⟨.python, rfl⟩) rfl hnumbers hspans hwithin (d := LambdaCopy.definition) rfl hout
  exact ⟨hhides, fun name defs hdefs hmem => hisolated.1 name defs hdefs 5 hmem hhides⟩

/-- A function in a subscript that is assigned to hides nothing: its body is live at the
end. -/
theorem scope_not_isolated :
    LambdaTarget.root.Numbered ∧
    LambdaTarget.setup.language.DistinctSpans LambdaTarget.root ∧
    LambdaTarget.function.Within LambdaTarget.root ∧
    LambdaTarget.setup.language.pattern LambdaTarget.function =
      .definition LambdaTarget.definition ∧
    LambdaTarget.setup.NamesAt LambdaTarget.definition.Hides 5 ∧
    (LambdaTarget.setup.graph LambdaTarget.root .empty).live.get? "k" = some [5] := by
  have hnumbers : LambdaTarget.root.Numbered := by
    unfold Place.Numbered
    decide
  refine ⟨hnumbers, .of_numbers hnumbers (by decide), ?_, rfl, ?_, by decide +kernel⟩
  · exact Or.inr ((Place.HasBelow.child (List.getElem_mem _)).deeper (List.getElem_mem _))
  · refine ⟨LambdaTarget.function.children[3], ⟨5, "k", ⟨⟨0, 12⟩, ⟨0, 13⟩⟩⟩,
      ⟨⟨_, ?_, Or.inl rfl⟩, ?_⟩, rfl, rfl, by decide +kernel, rfl⟩
    · exact List.mem_append_right _ List.mem_cons_self
    · exact List.forall_mem_nil _

end Setup

end TokenFlow
