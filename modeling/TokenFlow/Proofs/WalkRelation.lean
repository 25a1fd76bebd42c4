import Mathlib.Data.List.Forall2
import TokenFlow.Proofs.PatternParts
import TokenFlow.Proofs.WalkSpecs

/-!
# Walks that run alike

Two walks are often to be compared: over one tree with two limits, over one tree with two
sequences of tokens, over two trees.  A `WalkRelation` says which places, tokens, live
definitions and sources of the two walks correspond and which computations do, and it is
closed under all that a walk computes with.

Walkers that correspond on single places then correspond on every pattern whose parts
correspond (`Walkers.Related.visitPattern`, `Walkers.Related.resolvePattern`).  Places that
are read and places that are assigned to correspond each in their own way, for the latter
are searched for names and never read.  The first walk may meet places that have no
counterpart (`WalkRelation.extra`), as long as reading them does nothing; so lists of places
correspond up to these (`Aligned`).  To follow one walk, it is compared with itself.
-/
namespace TokenFlow

/-- The lists correspond place by place, but for extra places of the first. -/
inductive Aligned (place : Place → Place → Prop) (extra : Place → Prop) :
    List Place → List Place → Prop
  | nil : Aligned place extra [] []
  | cons {p q ps qs} (hp : place p q) (hps : Aligned place extra ps qs) :
      Aligned place extra (p :: ps) (q :: qs)
  | extra {p ps qs} (hp : extra p) (hps : Aligned place extra ps qs) :
      Aligned place extra (p :: ps) qs

namespace Aligned

variable {place : Place → Place → Prop} {extra : Place → Prop} {ps qs ps' qs' : List Place}

theorem of_forall₂ (h : List.Forall₂ place ps qs) : Aligned place extra ps qs := by
  induction h with
  | nil => exact .nil
  | cons hp _ ih => exact .cons hp ih

theorem refl (h : ∀ p ∈ ps, place p p) : Aligned place extra ps ps :=
  .of_forall₂ (List.forall₂_same.mpr h)

theorem append (h : Aligned place extra ps qs) (h' : Aligned place extra ps' qs') :
    Aligned place extra (ps ++ ps') (qs ++ qs') := by
  induction h with
  | nil => exact h'
  | cons hp _ ih => exact .cons hp ih
  | extra hp _ ih => exact .extra hp ih

end Aligned

/-- A correspondence between two walks. -/
structure WalkRelation where
  /-- Computations correspond if their values do, in the way given. -/
  traced : {α β : Type} → (α → β → Prop) → Traced α → Traced β → Prop
  /-- Places that are read. -/
  place : Place → Place → Prop
  /-- Places that are assigned to. -/
  target : Place → Place → Prop
  /-- Places of the first walk without counterpart. -/
  extra : Place → Prop
  live : LiveDefs → LiveDefs → Prop
  token : Token → Token → Prop
  sources : List Source → List Source → Prop
  pure : ∀ {α β : Type} {V : α → β → Prop} {a b}, V a b → traced V (pure a) (pure b)
  bind : ∀ {α β γ δ : Type} {V : α → β → Prop} {W : γ → δ → Prop} {x : Traced α} {y : Traced β}
    {f : α → Traced γ} {g : β → Traced δ}, traced V x y →
      (∀ a b, V a b → traced W (f a) (g b)) → traced W (x >>= f) (y >>= g)
  fold : ∀ {α β : Type} {V : α → β → Prop} {x : Traced α} {y : Traced β}, traced V x y →
    traced V (x.mapEdges Edge.fold) (y.mapEdges Edge.fold)
  /-- Edges of corresponding tokens from corresponding sources correspond. -/
  emit : ∀ {t t' xs xs'} (relation : Relation), token t t' → sources xs xs' →
    traced (fun _ _ => True) (Traced.emit [.ofSources t.text t.index relation xs])
      (Traced.emit [.ofSources t'.text t'.index relation xs'])
  live_empty : live .empty .empty
  live_bind : ∀ {l l' t t'}, live l l' → token t t' →
    live (l.bind t.text t.index) (l'.bind t'.text t'.index)
  live_merge : ∀ {ls ls'}, List.Forall₂ live ls ls' → live (.merge ls) (.merge ls')
  /-- A name that is put back to what it was in corresponding definitions. -/
  live_restore : ∀ {l l' k k' t t'}, live l l' → live k k' → token t t' →
    live (l.restore t.text (k.get? t.text)) (l'.restore t'.text (k'.get? t'.text))
  sources_nil : sources [] []
  sources_append : ∀ {xs xs' ys ys'}, sources xs xs' → sources ys ys' →
    sources (xs ++ ys) (xs' ++ ys')
  sources_token : ∀ {t t'}, token t t' → sources [t.source] [t'.source]
  /-- Corresponding names are bound together, to corresponding definitions. -/
  sources_live : ∀ {l l' t t'}, live l l' → token t t' →
    Option.Rel sources ((l.get? t.text).map (Source.ofDefs t.text))
      ((l'.get? t'.text).map (Source.ofDefs t'.text))

namespace WalkRelation

variable (R : WalkRelation)

/-- Lists of places that are read. -/
abbrev Evaluated : List Place → List Place → Prop :=
  Aligned R.place R.extra

/-- Lists of places that are assigned to. -/
abbrev Assigned : List Place → List Place → Prop :=
  Aligned R.target R.extra

/-- The values draw from corresponding sources, and both are copies or none is. -/
def Values (v v' : Value Source) : Prop :=
  R.sources v.sources v'.sources ∧ v.isReference = v'.isReference

/-- The parameters have corresponding names and fallbacks. -/
def Parameters (q q' : Parameter) : Prop :=
  R.target q.name q'.name ∧ List.Forall₂ R.place q.fallback.toList q'.fallback.toList

/-- The patterns are of one kind and have corresponding parts.  A binding pairs its targets
with its values by their numbers, so none of these may lack a counterpart. -/
inductive Patterns : Pattern → Pattern → Prop
  | binding {b b' : Binding} (hkind : b.kind = b'.kind)
      (htargets : List.Forall₂ R.target b.targets b'.targets)
      (hvalues : List.Forall₂ R.place b.values b'.values) : Patterns (.binding b) (.binding b')
  | update {p q : Place} (h : R.target p q) : Patterns (.update p) (.update q)
  | branch {b b' : Branch} (hcondition : R.Evaluated b.condition b'.condition)
      (harms : List.Forall₂ R.Evaluated b.arms b'.arms)
      (hexhaustive : b.exhaustive = b'.exhaustive) : Patterns (.branch b) (.branch b')
  | iteration {i i' : Iteration} (htargets : R.Assigned i.targets i'.targets)
      (hiterable : R.Evaluated i.iterable.toList i'.iterable.toList)
      (hbody : R.Evaluated i.body i'.body) (htail : R.Evaluated i.tail i'.tail)
      (hscoped : i.isScoped = i'.isScoped) : Patterns (.iteration i) (.iteration i')
  | loop {l l' : Loop} (hsetup : R.Evaluated l.setup l'.setup)
      (hrepeated : R.Evaluated l.repeated l'.repeated) (htail : R.Evaluated l.tail l'.tail) :
      Patterns (.loop l) (.loop l')
  | definition {d d' : Definition} (hname : R.Assigned d.name.toList d'.name.toList)
      (hparameters : List.Forall₂ R.Parameters d.parameters d'.parameters)
      (hbody : R.Evaluated d.body d'.body) : Patterns (.definition d) (.definition d')
  | sequence {first rest first' rest' : List Place}
      (h : R.Evaluated (first ++ rest) (first' ++ rest')) :
      Patterns (.sequence first rest) (.sequence first' rest')
  | plain : Patterns .plain .plain

variable {R}

/-- A pattern of which each part corresponds to itself corresponds to itself. -/
theorem Patterns.refl {pattern : Pattern} (htargets : ∀ p ∈ pattern.assigned, R.target p p)
    (h : ∀ p ∈ pattern.evaluated, R.place p p) : R.Patterns pattern pattern := by
  cases pattern with
  | binding b => exact .binding rfl (List.forall₂_same.mpr htargets) (List.forall₂_same.mpr h)
  | update operand => exact .update (htargets operand List.mem_cons_self)
  | branch b =>
    obtain ⟨hcondition, harms⟩ := List.forall_mem_append.mp h
    have harm : ∀ arm ∈ b.arms, R.Evaluated arm arm := fun arm harm =>
      .refl fun p hp => harms p (List.mem_flatten_of_mem harm hp)
    exact .branch (.refl hcondition) (List.forall₂_same.mpr harm) rfl
  | iteration i =>
    simp only [Pattern.evaluated, List.forall_mem_append] at h
    obtain ⟨⟨hiterable, hbody⟩, htail⟩ := h
    exact .iteration (.refl htargets) (.refl hiterable) (.refl hbody) (.refl htail) rfl
  | loop l =>
    simp only [Pattern.evaluated, List.forall_mem_append] at h
    obtain ⟨⟨hsetup, hrepeated⟩, htail⟩ := h
    exact .loop (.refl hsetup) (.refl hrepeated) (.refl htail)
  | definition d =>
    simp only [Pattern.evaluated, List.forall_mem_append, List.forall_mem_flatMap] at h
    obtain ⟨hname, hnames⟩ := List.forall_mem_append.mp htargets
    refine .definition (.refl hname) (List.forall₂_same.mpr fun q hq => ?_) (.refl h.2)
    exact ⟨hnames _ (List.mem_map_of_mem hq), List.forall₂_same.mpr (h.1 q hq)⟩
  | sequence first rest => exact .sequence (.refl h)
  | plain => exact .plain

/-- Walks with the very same tokens, live definitions and sources. -/
def same (traced : {α β : Type} → (α → β → Prop) → Traced α → Traced β → Prop)
    (place : Place → Place → Prop) (extra : Place → Prop)
    (hpure : ∀ {α β : Type} {V : α → β → Prop} {a b}, V a b →
      traced V (Pure.pure a) (Pure.pure b))
    (hbind : ∀ {α β γ δ : Type} {V : α → β → Prop} {W : γ → δ → Prop} {x : Traced α}
      {y : Traced β} {f : α → Traced γ} {g : β → Traced δ}, traced V x y →
        (∀ a b, V a b → traced W (f a) (g b)) → traced W (x >>= f) (y >>= g))
    (hfold : ∀ {α β : Type} {V : α → β → Prop} {x : Traced α} {y : Traced β}, traced V x y →
      traced V (x.mapEdges Edge.fold) (y.mapEdges Edge.fold))
    (hemit : ∀ es, traced (fun _ _ => True) (Traced.emit es) (Traced.emit es)) :
    WalkRelation where
  traced := traced
  place := place
  target := place
  extra := extra
  live := Eq
  token := Eq
  sources := Eq
  pure := hpure
  bind := hbind
  fold := hfold
  emit _ ht hxs := by
    subst ht hxs
    exact hemit _
  live_empty := rfl
  live_bind h ht := by
    subst h ht
    rfl
  live_merge h := by
    rw [List.forall₂_eq_eq_eq] at h
    rw [h]
  live_restore h hk ht := by
    subst h hk ht
    rfl
  sources_nil := rfl
  sources_append hx hy := by
    subst hx hy
    rfl
  sources_token ht := by
    subst ht
    rfl
  sources_live {l l' t t'} h ht := by
    subst h ht
    cases l.get? t.text with
    | none => exact .none
    | some defs => exact .some rfl

/-! ## Computations, live definitions and sources -/

section Closure

variable {α β γ δ : Type} {V : α → β → Prop}

/-- Both walks do the same to corresponding computations and then answer what corresponds. -/
theorem map {W : γ → δ → Prop} {x : Traced α} {y : Traced β} {f : α → γ} {g : β → δ}
    (h : R.traced V x y) (hfg : ∀ a b, V a b → W (f a) (g b)) :
    R.traced W (x >>= fun a => Pure.pure (f a)) (y >>= fun b => Pure.pure (g b)) :=
  R.bind h fun a b hab => R.pure (hfg a b hab)

theorem imp {V W : α → β → Prop} {x : Traced α} {y : Traced β} (h : R.traced V x y)
    (hVW : ∀ a b, V a b → W a b) : R.traced W x y := by
  rw [← bind_pure x, ← bind_pure y]
  exact R.map h hVW

/-- The first walk does something that leaves no trace in the second. -/
theorem skip {V : α → Unit → Prop} {W : γ → δ → Prop} {x : Traced α} {f : α → Traced γ}
    {y : Traced δ} (h : R.traced V x (Pure.pure ()))
    (hf : ∀ a, V a () → R.traced W (f a) y) : R.traced W (x >>= f) y :=
  R.bind h fun a _ ha => hf a ha

theorem emitAll {ts ts' : List Token} (relation : Relation) {f f' : Token → List Source}
    (hts : List.Forall₂ R.token ts ts')
    (hf : ∀ t t', R.token t t' → R.sources (f t) (f' t')) :
    R.traced (fun _ _ => True)
      (Traced.emit (ts.map fun t => .ofSources t.text t.index relation (f t)))
      (Traced.emit (ts'.map fun t => .ofSources t.text t.index relation (f' t))) := by
  induction hts with
  | nil => exact R.pure trivial
  | cons ht _ ih => exact R.bind (R.emit relation ht (hf _ _ ht)) fun _ _ _ => ih

theorem live_bindAll {l l' : LiveDefs} {ts ts' : List Token} (h : R.live l l')
    (hts : List.Forall₂ R.token ts ts') : R.live (l.bindAll ts) (l'.bindAll ts') := by
  induction hts generalizing l l' with
  | nil => exact h
  | cons ht _ ih => exact ih (R.live_bind h ht)

theorem live_sight {l l' : LiveDefs} {t t' : Token} (h : R.live l l') (ht : R.token t t') :
    R.live (l.sight t) (l'.sight t') := by
  have hdefs := R.sources_live h ht
  unfold LiveDefs.sight
  cases hl : l.get? t.text with
  | none =>
    cases hl' : l'.get? t'.text with
    | none => exact R.live_bind h ht
    | some defs' =>
      rw [hl, hl'] at hdefs
      exact nomatch hdefs
  | some defs =>
    cases hl' : l'.get? t'.text with
    | none =>
      rw [hl, hl'] at hdefs
      exact nomatch hdefs
    | some defs' => exact h

/-- What a name draws from as a value. -/
theorem sources_sources {l l' : LiveDefs} {t t' : Token} (h : R.live l l') (ht : R.token t t') :
    R.sources (l.sources t) (l'.sources t') := by
  have hdefs := R.sources_live h ht
  unfold LiveDefs.sources
  cases hl : l.get? t.text <;> cases hl' : l'.get? t'.text <;> rw [hl, hl'] at hdefs
  · exact R.sources_token ht
  · exact nomatch hdefs
  · exact nomatch hdefs
  · cases hdefs with
    | some hdefs => exact hdefs

theorem sources_map_source {ts ts' : List Token} (hts : List.Forall₂ R.token ts ts') :
    R.sources (ts.map Token.source) (ts'.map Token.source) := by
  induction hts with
  | nil => exact R.sources_nil
  | cons ht _ ih => exact R.sources_append (R.sources_token ht) ih

theorem values_join {vs vs' : List (Value Source)} (h : List.Forall₂ R.Values vs vs') :
    R.Values (Value.join vs) (Value.join vs') := by
  have hsources : R.sources (vs.flatMap (·.sources)) (vs'.flatMap (·.sources)) := by
    induction h with
    | nil => exact R.sources_nil
    | cons hv _ ih => exact R.sources_append hv.1 ih
  refine ⟨hsources, ?_⟩
  cases h with
  | nil => rfl
  | cons hv hvs =>
    cases hvs with
    | nil => exact hv.2
    | cons _ _ => rfl

theorem pairUp {ps qs : List Place} {vs vs' : List (Value Source)}
    (hps : List.Forall₂ R.target ps qs) (hvs : List.Forall₂ R.Values vs vs') :
    List.Forall₂ (fun pair pair' => R.target pair.1 pair'.1 ∧ R.Values pair.2 pair'.2)
      (Binding.pairUp ps vs) (Binding.pairUp qs vs') := by
  unfold Binding.pairUp
  rw [hps.length_eq, hvs.length_eq]
  split
  · clear * - hps hvs
    induction hps generalizing vs vs' with
    | nil => exact .nil
    | cons hp _ ih =>
      cases hvs with
      | nil => exact .nil
      | cons hv hvs => exact .cons ⟨hp, hv⟩ (ih hvs)
  · refine List.forall₂_map_left_iff.mpr (List.forall₂_map_right_iff.mpr (hps.imp ?_))
    exact fun _ _ hp => ⟨hp, values_join hvs⟩

theorem kind_sources {kind : BindingKind} {v v' : Value Source} {l l' : LiveDefs} {t t' : Token}
    (hv : R.Values v v') (h : R.live l l') (ht : R.token t t') :
    R.sources (kind.sources v l t) (kind.sources v' l' t') := by
  cases kind with
  | assignment | declaration => exact hv.1
  | compound =>
    refine R.sources_append hv.1 ?_
    have hdefs := R.sources_live h ht
    cases hl : l.get? t.text <;> cases hl' : l'.get? t'.text <;> rw [hl, hl'] at hdefs
    · exact R.sources_nil
    · exact nomatch hdefs
    · exact nomatch hdefs
    · cases hdefs with
      | some hdefs => exact hdefs

end Closure

end WalkRelation

/-! ## Walkers -/

/-- What a walk answers to a place that is read as a value: live definitions and sources,
together with whether the place is a copy. -/
def WalkRelation.Answers (R : WalkRelation) (copies copies' : Bool)
    (r r' : LiveDefs × List Source) : Prop :=
  R.live r.1 r'.1 ∧ R.sources r.2 r'.2 ∧ copies = copies'

/-- The walkers read corresponding places alike, and a place without counterpart not at all. -/
structure Walkers.Related (R : WalkRelation) (w w' : Walkers) : Prop where
  visit : ∀ {p q l l'}, R.place p q → R.live l l' → R.traced R.live (w.visit p l) (w'.visit q l')
  resolve : ∀ {p q l l'}, R.place p q → R.live l l' →
    R.traced (R.Answers (w.isReference p) (w'.isReference q)) (w.resolve p l) (w'.resolve q l')
  targets : ∀ {p q}, R.target p q →
    R.traced (List.Forall₂ R.token) (w.targets p) (w'.targets q)
  visit_extra : ∀ {p l l'}, R.extra p → R.live l l' →
    R.traced (fun k _ => R.live k l') (w.visit p l) (pure ())
  resolve_extra : ∀ {p l l'}, R.extra p → R.live l l' →
    R.traced (fun r _ => R.live r.1 l' ∧ R.sources r.2 []) (w.resolve p l) (pure ())
  targets_extra : ∀ {p}, R.extra p → R.traced (fun ts _ => ts = []) (w.targets p) (pure ())

namespace Walkers.Related

variable {R : WalkRelation} {w w' : Walkers} (hw : w.Related R w') {live live' : LiveDefs}
include hw

/-! ### Sequences -/

theorem visitAll {ps qs : List Place} (hps : R.Evaluated ps qs) (h : R.live live live') :
    R.traced R.live (w.visitAll ps live) (w'.visitAll qs live') := by
  induction hps generalizing live live' with
  | nil => exact R.pure h
  | cons hp _ ih => exact R.bind (hw.visit hp h) fun _ _ hlive => ih hlive
  | extra hp _ ih =>
    exact R.skip (hw.visit_extra hp h) fun _ hlive => ih hlive

theorem resolveAll {ps qs : List Place} (hps : R.Evaluated ps qs) (h : R.live live live') :
    R.traced (fun r r' => R.live r.1 r'.1 ∧ R.sources r.2 r'.2)
      (w.resolveAll ps live) (w'.resolveAll qs live') := by
  induction hps generalizing live live' with
  | nil => exact R.pure ⟨h, R.sources_nil⟩
  | cons hp _ ih =>
    refine R.bind (hw.resolve hp h) fun r r' hr => ?_
    exact R.map (ih hr.1) fun _ _ hmore => ⟨hmore.1, R.sources_append hr.2.1 hmore.2⟩
  | extra hp _ ih =>
    refine R.skip (hw.resolve_extra hp h) fun r hr => ?_
    rw [← bind_pure (w'.resolveAll _ _)]
    exact R.map (ih hr.1) fun _ _ hmore => ⟨hmore.1, R.sources_append hr.2 hmore.2⟩

theorem allTargets {ps qs : List Place} (hps : R.Assigned ps qs) :
    R.traced (List.Forall₂ R.token) (w.allTargets ps) (w'.allTargets qs) := by
  induction hps with
  | nil => exact R.pure .nil
  | cons hp _ ih =>
    exact R.bind (hw.targets hp) fun _ _ hts => R.map ih fun _ _ hts' => List.rel_append hts hts'
  | extra hp _ ih =>
    refine R.skip (hw.targets_extra hp) fun ts hts => ?_
    subst hts
    rw [← bind_pure (w'.allTargets _)]
    exact R.map ih fun _ _ hts' => hts'

/-! ### Bindings and updates -/

theorem readValues {ps qs : List Place} (hps : List.Forall₂ R.place ps qs)
    (h : R.live live live') :
    R.traced (fun r r' => R.live r.1 r'.1 ∧ List.Forall₂ R.Values r.2 r'.2)
      (w.readValues ps live) (w'.readValues qs live') := by
  induction hps generalizing live live' with
  | nil => exact R.pure ⟨h, .nil⟩
  | cons hp _ ih =>
    refine R.bind (hw.resolve hp h) fun r r' hr => ?_
    exact R.map (ih hr.1) fun _ _ hmore => ⟨hmore.1, .cons hr.2 hmore.2⟩

theorem defineTargets (kind : BindingKind) {pairs pairs' : List (Place × Value Source)}
    (hpairs : List.Forall₂ (fun pair pair' => R.target pair.1 pair'.1 ∧ R.Values pair.2 pair'.2)
      pairs pairs') (h : R.live live live') :
    R.traced (List.Forall₂ R.token) (w.defineTargets kind live pairs)
      (w'.defineTargets kind live' pairs') := by
  induction hpairs with
  | nil => exact R.pure .nil
  | cons hpair _ ih =>
    obtain ⟨hp, hv⟩ := hpair
    refine R.bind (hw.targets hp) fun ts ts' hts => ?_
    rw [BindingKind.relation_congr kind hv.2]
    refine R.bind (R.emitAll _ hts fun _ _ ht => WalkRelation.kind_sources hv h ht) fun _ _ _ => ?_
    exact R.map ih fun _ _ hmore => List.rel_append hts hmore

theorem bind {b b' : Binding} (hkind : b.kind = b'.kind)
    (htargets : List.Forall₂ R.target b.targets b'.targets)
    (hvalues : List.Forall₂ R.place b.values b'.values) (h : R.live live live') :
    R.traced (fun r r' => R.live r.1 r'.1 ∧ List.Forall₂ R.token r.2 r'.2)
      (w.bind b live) (w'.bind b' live') := by
  refine R.bind (hw.readValues hvalues h) fun r r' hr => ?_
  refine R.map ?_ fun _ _ hts => ⟨R.live_bindAll hr.1 hts, hts⟩
  rw [hkind]
  exact hw.defineTargets _ (WalkRelation.pairUp htargets hr.2) hr.1

omit hw in
theorem updateTokens {ts ts' : List Token} (hts : List.Forall₂ R.token ts ts')
    (h : R.live live live') :
    R.traced R.live (Walkers.updateTokens ts live) (Walkers.updateTokens ts' live') := by
  induction hts generalizing live live' with
  | nil => exact R.pure h
  | cons ht _ ih =>
    rw [updateTokens_cons, updateTokens_cons]
    exact R.bind (R.emit _ ht (R.sources_sources h ht)) fun _ _ _ => ih (R.live_bind h ht)

theorem update {p q : Place} (hp : R.target p q) (h : R.live live live') :
    R.traced (fun r r' => R.live r.1 r'.1 ∧ List.Forall₂ R.token r.2 r'.2)
      (w.update p live) (w'.update q live') :=
  R.bind (hw.targets hp) fun _ _ hts =>
    R.map (updateTokens hts h) fun _ _ hlive => ⟨hlive, hts⟩

/-! ### Alternatives -/

theorem armOutcomes {arms arms' : List (List Place)} (harms : List.Forall₂ R.Evaluated arms arms')
    (h : R.live live live') :
    R.traced (List.Forall₂ R.live) (w.armOutcomes arms live) (w'.armOutcomes arms' live') := by
  induction harms with
  | nil => exact R.pure .nil
  | cons harm _ ih =>
    exact R.bind (hw.visitAll harm h) fun _ _ ho => R.map ih fun _ _ hos => .cons ho hos

theorem branch {b b' : Branch} (hcondition : R.Evaluated b.condition b'.condition)
    (harms : List.Forall₂ R.Evaluated b.arms b'.arms) (hexhaustive : b.exhaustive = b'.exhaustive)
    (h : R.live live live') : R.traced R.live (w.branch b live) (w'.branch b' live') := by
  refine R.bind (hw.visitAll hcondition h) fun _ _ hlive => ?_
  refine R.map (hw.armOutcomes harms hlive) fun outcomes outcomes' hos => R.live_merge ?_
  have hempty : outcomes.isEmpty = outcomes'.isEmpty := by
    cases hos <;> rfl
  refine List.rel_append hos ?_
  rw [hexhaustive, hempty]
  split
  · exact .nil
  · exact .cons hlive .nil

/-! ### Repetition -/

theorem round {i i' : Iteration} (htargets : R.Assigned i.targets i'.targets)
    (hiterable : R.Evaluated i.iterable.toList i'.iterable.toList)
    (hbody : R.Evaluated i.body i'.body) (h : R.live live live') :
    R.traced R.live (w.round i live) (w'.round i' live') := by
  refine R.bind (hw.resolveAll hiterable h) fun r r' hr => ?_
  refine R.bind (hw.allTargets htargets) fun ts ts' hts => ?_
  refine R.bind (R.emitAll .computedFrom hts fun _ _ _ => hr.2) fun _ _ _ => ?_
  exact hw.visitAll hbody (R.live_bindAll hr.1 hts)

omit hw in
theorem rounds {round round' : LiveDefs → Traced LiveDefs}
    (hround : ∀ {l l'}, R.live l l' → R.traced R.live (round l) (round' l')) (n : Nat)
    (h : R.live live live') :
    R.traced R.live (Walkers.rounds round n live) (Walkers.rounds round' n live') := by
  induction n generalizing live live' with
  | zero => exact R.pure h
  | succ n ih => exact R.bind (hround h) fun _ _ hlive => ih hlive

/-- What an iteration puts back: corresponding names, each to what it was. -/
theorem shadowed (live live' : LiveDefs) {i i' : Iteration}
    (htargets : R.Assigned i.targets i'.targets)
    (hscoped : i.isScoped = i'.isScoped) :
    R.traced (fun outer outer' => ∃ ts ts', List.Forall₂ R.token ts ts' ∧
        outer = ts.map (fun t => (t.text, live.get? t.text)) ∧
        outer' = ts'.map (fun t => (t.text, live'.get? t.text)))
      (w.shadowed i live) (w'.shadowed i' live') := by
  unfold Walkers.shadowed
  rw [hscoped]
  split
  · exact R.map (hw.allTargets htargets) fun ts ts' hts => ⟨ts, ts', hts, rfl, rfl⟩
  · exact R.pure ⟨[], [], .nil, rfl, rfl⟩

omit hw in
theorem restoreAll {ts ts' : List Token} (hts : List.Forall₂ R.token ts ts') {l l' : LiveDefs}
    (h : R.live live live') (hl : R.live l l') :
    R.live (l.restoreAll (ts.map fun t => (t.text, live.get? t.text)))
      (l'.restoreAll (ts'.map fun t => (t.text, live'.get? t.text))) := by
  induction hts generalizing l l' with
  | nil => exact hl
  | cons ht _ ih => exact ih (R.live_restore hl h ht)

theorem iterate (passes : Nat) {i i' : Iteration}
    (hi : R.Patterns (.iteration i) (.iteration i')) (h : R.live live live') :
    R.traced R.live (w.iterate passes i live) (w'.iterate passes i' live') := by
  cases hi with
  | iteration htargets hiterable hbody htail hscoped =>
    refine R.bind (hw.shadowed live live' htargets hscoped) fun outer outer' houter => ?_
    refine R.bind (R.fold (rounds (hw.round htargets hiterable hbody) passes h))
      fun _ _ hlive => ?_
    refine R.map (hw.visitAll htail hlive) fun _ _ hlive => ?_
    obtain ⟨ts, ts', hts, rfl, rfl⟩ := houter
    exact restoreAll hts h hlive

theorem loop (passes : Nat) {l l' : Loop} (hl : R.Patterns (.loop l) (.loop l'))
    (h : R.live live live') :
    R.traced R.live (w.loop passes l live) (w'.loop passes l' live') := by
  cases hl with
  | loop hsetup hrepeated htail =>
    refine R.bind (hw.visitAll hsetup h) fun _ _ hlive => ?_
    exact R.bind (R.fold (rounds (hw.visitAll hrepeated) passes hlive)) fun _ _ hlive =>
      hw.visitAll htail hlive

/-! ### Definitions -/

theorem bindParameters {qs qs' : List Parameter} (hqs : List.Forall₂ R.Parameters qs qs')
    (h : R.live live live') :
    R.traced R.live (w.bindParameters qs live) (w'.bindParameters qs' live') := by
  induction hqs generalizing live live' with
  | nil => exact R.pure h
  | cons hq _ ih => exact R.bind (hw.bind rfl (.cons hq.1 .nil) hq.2 h) fun _ _ hr => ih hr.1

theorem define {d d' : Definition} (hd : R.Patterns (.definition d) (.definition d'))
    (h : R.live live live') : R.traced R.live (w.define d live) (w'.define d' live') := by
  cases hd with
  | definition hname hparameters hbody =>
    refine R.bind (hw.allTargets hname) fun _ _ hnames => ?_
    refine R.bind (hw.bindParameters hparameters R.live_empty) fun _ _ hscope => ?_
    exact R.map (hw.visitAll hbody hscope) fun _ _ _ => R.live_bindAll h hnames

/-! ### Patterns -/

variable {passes : Nat} {pattern pattern' : Pattern} {p q : Place}
  (hpattern : R.Patterns pattern pattern') (hchildren : R.Evaluated p.children q.children)
include hpattern hchildren

/-- **Corresponding patterns are read alike as statements.** -/
theorem visitPattern (h : R.live live live') :
    R.traced R.live (w.visitPattern passes pattern p live)
      (w'.visitPattern passes pattern' q live') := by
  cases hpattern with
  | binding hkind htargets hvalues =>
    exact R.map (hw.bind hkind htargets hvalues h) fun _ _ hr => hr.1
  | update hp => exact R.map (hw.update hp h) fun _ _ hr => hr.1
  | branch hcondition harms hexhaustive => exact hw.branch hcondition harms hexhaustive h
  | iteration h₁ h₂ h₃ h₄ h₅ => exact hw.iterate passes (.iteration h₁ h₂ h₃ h₄ h₅) h
  | loop h₁ h₂ h₃ => exact hw.loop passes (.loop h₁ h₂ h₃) h
  | definition h₁ h₂ h₃ => exact hw.define (.definition h₁ h₂ h₃) h
  | sequence hparts => exact hw.visitAll hparts h
  | plain => exact hw.visitAll hchildren h

/-- **Corresponding patterns are read alike as values.** -/
theorem resolvePattern (h : R.live live live') :
    R.traced (fun r r' => R.live r.1 r'.1 ∧ R.sources r.2 r'.2)
      (w.resolvePattern passes pattern p live) (w'.resolvePattern passes pattern' q live') := by
  cases hpattern with
  | binding hkind htargets hvalues =>
    exact R.map (hw.bind hkind htargets hvalues h) fun _ _ hr => ⟨hr.1, R.sources_map_source hr.2⟩
  | update hp =>
    exact R.map (hw.update hp h) fun _ _ hr => ⟨hr.1, R.sources_map_source hr.2⟩
  | iteration h₁ h₂ h₃ h₄ h₅ =>
    exact R.map (hw.iterate passes (.iteration h₁ h₂ h₃ h₄ h₅) h) fun _ _ hlive =>
      ⟨hlive, R.sources_nil⟩
  | definition h₁ h₂ h₃ =>
    exact R.map (hw.define (.definition h₁ h₂ h₃) h) fun _ _ hlive => ⟨hlive, R.sources_nil⟩
  | sequence hparts => exact hw.resolveAll hparts h
  | branch | loop | plain => exact hw.resolveAll hchildren h

end Walkers.Related

/-! ## Single places -/

namespace Setup

variable (s : Setup)

theorem readToken_eq (p : Place) (live : LiveDefs) :
    s.readToken p live = s.leaf p >>= fun
      | .name t => Traced.emit (live.reads t) >>= fun _ => pure (live.sight t)
      | _ => pure live := by
  unfold readToken
  refine congrArg _ (funext fun leaf => ?_)
  cases leaf with
  | literal t | silent => rfl
  | name t =>
    simp only [LiveDefs.reads, LiveDefs.sight]
    cases live.get? t.text with
    | none => rfl
    | some defs =>
      by_cases h : defs = [t.index]
      · simp only [h, beq_self_eq_true, if_true]
        rfl
      · simp only [beq_iff_eq, h, if_false]

theorem resolveToken_eq (p : Place) (live : LiveDefs) :
    s.resolveToken p live = s.leaf p >>= fun
      | .name t => pure (live.sight t, live.sources t)
      | .literal t => pure (live, [t.source])
      | .silent => pure (live, []) := by
  unfold resolveToken
  refine congrArg _ (funext fun leaf => ?_)
  cases leaf with
  | literal t | silent => rfl
  | name t =>
    simp only [LiveDefs.sources, LiveDefs.sight]
    cases live.get? t.text <;> rfl

theorem targets_of_comment {p : Place} (hcomment : s.language.isComment p.kind = true)
    (budget : Nat) : s.targets (budget + 1) p = pure [] :=
  if_pos hcomment

theorem targets_of_token {p : Place} (hcomment : s.language.isComment p.kind = false)
    (htoken : s.language.isToken p.node = true) (budget : Nat) :
    s.targets (budget + 1) p = s.leaf p >>= fun
      | .name t => pure [t]
      | _ => pure [] := by
  rw [targets, hcomment, htoken]
  rfl

theorem targets_of_construct {p : Place} (hcomment : s.language.isComment p.kind = false)
    (htoken : s.language.isToken p.node = false) (budget : Nat) :
    s.targets (budget + 1) p = (s.walkers budget).allTargets p.children := by
  rw [targets, hcomment, htoken]
  rfl

end Setup

namespace WalkRelation

/-- The leaves play the same part. -/
inductive Leaves (R : WalkRelation) : Leaf → Leaf → Prop
  | name {t t'} (h : R.token t t') : Leaves R (.name t) (.name t')
  | literal {t t'} (h : R.sources [t.source] [t'.source]) : Leaves R (.literal t) (.literal t')
  | silent : Leaves R .silent .silent

theorem Leaves.refl {R : WalkRelation} {leaf : Leaf} (hname : ∀ t, leaf = .name t → R.token t t)
    (hliteral : ∀ t, leaf = .literal t → R.sources [t.source] [t.source]) : R.Leaves leaf leaf := by
  cases leaf with
  | name t => exact .name (hname t rfl)
  | literal t => exact .literal (hliteral t rfl)
  | silent => exact .silent

/-- Two walks take the places for the same: both for comments, both for constructs, or both
for leaves that play the same part. -/
structure Reads (R : WalkRelation) (s s' : Setup) (p q : Place) : Prop where
  comment : s.language.isComment p.kind = s'.language.isComment q.kind
  token : s.language.isComment p.kind = false →
    s.language.isToken p.node = s'.language.isToken q.node
  leaf : s.language.isComment p.kind = false → s.language.isToken p.node = true →
    R.traced R.Leaves (s.leaf p) (s'.leaf q)

variable {R : WalkRelation} {s s' : Setup} {p q : Place} {live live' : LiveDefs}

/-- A name that is its own only live definition in the one walk is so in the other. -/
def SeesItself (R : WalkRelation) : Prop :=
  ∀ ⦃l l' t t'⦄, R.live l l' → R.token t t' →
    (l.get? t.text = some [t.index] ↔ l'.get? t'.text = some [t'.index])

/-- It is so in particular where what corresponds is the same. -/
theorem SeesItself.of_eq (hlive : ∀ ⦃l l'⦄, R.live l l' → l = l')
    (htoken : ∀ ⦃t t'⦄, R.token t t' → t = t') : R.SeesItself := by
  intro l l' t t' hl ht
  rw [hlive hl, htoken ht]

/-- The two walks bring up corresponding edges where names are read as statements. -/
def ReadsAlike (R : WalkRelation) : Prop :=
  ∀ ⦃l l' t t'⦄, R.live l l' → R.token t t' →
    R.traced (fun _ _ => True) (Traced.emit (l.reads t)) (Traced.emit (l'.reads t'))

theorem SeesItself.readsAlike (hself : R.SeesItself) : R.ReadsAlike := by
  intro live live' t t' h ht
  have hdefs := R.sources_live h ht
  have hiff := hself h ht
  unfold LiveDefs.reads
  cases hl : live.get? t.text <;> cases hl' : live'.get? t'.text <;> rw [hl, hl'] at hdefs
  · exact R.pure trivial
  · exact nomatch hdefs
  · exact nomatch hdefs
  · rename_i defs defs'
    rw [hl, hl', Option.some.injEq, Option.some.injEq] at hiff
    by_cases hown : defs = [t.index]
    · simp only [hown, hiff.mp hown, if_true]
      exact R.pure trivial
    · simp only [hown, mt hiff.mpr hown, if_false]
      cases hdefs with
      | some hdefs => exact R.emit .comesFrom ht hdefs

theorem readToken_of_leaf (hreads : R.ReadsAlike)
    (hleaf : R.traced R.Leaves (s.leaf p) (s'.leaf q)) (h : R.live live live') :
    R.traced R.live (s.readToken p live) (s'.readToken q live') := by
  rw [Setup.readToken_eq, Setup.readToken_eq]
  refine R.bind hleaf fun _ _ hleaf => ?_
  cases hleaf with
  | name ht => exact R.map (hreads h ht) fun _ _ _ => R.live_sight h ht
  | literal _ | silent => exact R.pure h

theorem resolveToken_of_leaf (hleaf : R.traced R.Leaves (s.leaf p) (s'.leaf q))
    (h : R.live live live') :
    R.traced (fun r r' => R.live r.1 r'.1 ∧ R.sources r.2 r'.2) (s.resolveToken p live)
      (s'.resolveToken q live') := by
  rw [Setup.resolveToken_eq, Setup.resolveToken_eq]
  refine R.bind hleaf fun _ _ hleaf => ?_
  cases hleaf with
  | name ht => exact R.pure ⟨R.live_sight h ht, R.sources_sources h ht⟩
  | literal hsource => exact R.pure ⟨h, hsource⟩
  | silent => exact R.pure ⟨h, R.sources_nil⟩

namespace Reads

variable {w w' : Walkers} (hp : R.Reads s s' p q)
include hp

theorem visitStep_of_readsAlike (hreads : R.ReadsAlike) (h : R.live live live')
    (hconstruct : s.language.isComment p.kind = false → s.language.isToken p.node = false →
      R.traced R.live (w.visitPattern s.passes (s.language.pattern p) p live)
        (w'.visitPattern s'.passes (s'.language.pattern q) q live')) :
    R.traced R.live (s.visitStep w p live) (s'.visitStep w' q live') := by
  cases s.language.reads p with
  | comment hcomment =>
    rw [Setup.visitStep_of_comment hcomment, Setup.visitStep_of_comment (hp.comment ▸ hcomment)]
    exact R.pure h
  | token hcomment htoken =>
    rw [Setup.visitStep_of_token hcomment htoken,
      Setup.visitStep_of_token (hp.comment ▸ hcomment) (hp.token hcomment ▸ htoken)]
    exact readToken_of_leaf hreads (hp.leaf hcomment htoken) h
  | construct hcomment htoken =>
    rw [Setup.visitStep_of_construct hcomment htoken,
      Setup.visitStep_of_construct (hp.comment ▸ hcomment) (hp.token hcomment ▸ htoken)]
    exact hconstruct hcomment htoken

theorem visitStep (hself : R.SeesItself) (h : R.live live live')
    (hconstruct : s.language.isComment p.kind = false → s.language.isToken p.node = false →
      R.traced R.live (w.visitPattern s.passes (s.language.pattern p) p live)
        (w'.visitPattern s'.passes (s'.language.pattern q) q live')) :
    R.traced R.live (s.visitStep w p live) (s'.visitStep w' q live') :=
  hp.visitStep_of_readsAlike hself.readsAlike h hconstruct

theorem resolveStep (h : R.live live live')
    (hconstruct : s.language.isComment p.kind = false → s.language.isToken p.node = false →
      R.traced (fun r r' => R.live r.1 r'.1 ∧ R.sources r.2 r'.2)
        (w.resolvePattern s.passes (s.language.pattern p) p live)
        (w'.resolvePattern s'.passes (s'.language.pattern q) q live')) :
    R.traced (fun r r' => R.live r.1 r'.1 ∧ R.sources r.2 r'.2) (s.resolveStep w p live)
      (s'.resolveStep w' q live') := by
  cases s.language.reads p with
  | comment hcomment =>
    rw [Setup.resolveStep_of_comment hcomment, Setup.resolveStep_of_comment (hp.comment ▸ hcomment)]
    exact R.pure ⟨h, R.sources_nil⟩
  | token hcomment htoken =>
    rw [Setup.resolveStep_of_token hcomment htoken,
      Setup.resolveStep_of_token (hp.comment ▸ hcomment) (hp.token hcomment ▸ htoken)]
    exact resolveToken_of_leaf (hp.leaf hcomment htoken) h
  | construct hcomment htoken =>
    rw [Setup.resolveStep_of_construct hcomment htoken,
      Setup.resolveStep_of_construct (hp.comment ▸ hcomment) (hp.token hcomment ▸ htoken)]
    exact hconstruct hcomment htoken

theorem targets {budget budget' : Nat}
    (hconstruct : s.language.isComment p.kind = false → s.language.isToken p.node = false →
      R.traced (List.Forall₂ R.token) ((s.walkers budget).allTargets p.children)
        ((s'.walkers budget').allTargets q.children)) :
    R.traced (List.Forall₂ R.token) (s.targets (budget + 1) p) (s'.targets (budget' + 1) q) := by
  cases s.language.reads p with
  | comment hcomment =>
    rw [s.targets_of_comment hcomment, s'.targets_of_comment (hp.comment ▸ hcomment)]
    exact R.pure .nil
  | token hcomment htoken =>
    rw [s.targets_of_token hcomment htoken,
      s'.targets_of_token (hp.comment ▸ hcomment) (hp.token hcomment ▸ htoken)]
    refine R.bind (hp.leaf hcomment htoken) fun _ _ hleaf => ?_
    cases hleaf with
    | name ht => exact R.pure (.cons ht .nil)
    | literal _ | silent => exact R.pure .nil
  | construct hcomment htoken =>
    rw [s.targets_of_construct hcomment htoken,
      s'.targets_of_construct (hp.comment ▸ hcomment) (hp.token hcomment ▸ htoken)]
    exact hconstruct hcomment htoken

end Reads

end WalkRelation

end TokenFlow
