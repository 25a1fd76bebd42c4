import TokenFlow.Analysis.Graph
import TokenFlow.Proofs.Covering
import TokenFlow.Proofs.WalkEffects

/-!
# The graph covers every path

Whatever a path run draws from a literal, a nested binding or a firm definition, the
graph draws too (`Setup.graph_covers_path_runs`), however often the path goes through
its loops and whatever alternatives it takes.

Each pattern covers its paths if reading its parts does (`PathWalkers.CoveredBy`).
Merging only adds to the live definitions, and rebinding a name drops its definitions on
both sides.  A loop needs one thing more: the path may go through it many times, the
walk goes through it twice.  But the second reading of a body starts where every later
one would start, because a walk is idempotent on the live definitions, so it answers for
all later rounds of the path (`covers_repeated`).
-/
namespace TokenFlow

/-- A trail follows the live definitions, and firm sources are among those found. -/
def FollowsWithin (r : Trail × List PathSource) (r' : LiveDefs × List Source) : Prop :=
  r.1.Follows r'.1 ∧ FirmWithin r.2 r'.2

/-- Value by value, the same are copies and firm sources are among those found. -/
structure ValuesWithin (us : List (Value PathSource)) (vs : List (Value Source)) : Prop where
  isReference : vs.map (·.isReference) = us.map (·.isReference)
  sources : ∀ (i : Nat) (u : Value PathSource), us[i]? = some u →
    ∃ v : Value Source, vs[i]? = some v ∧ FirmWithin u.sources v.sources

/-- What reads a path is covered by what reads a walk. -/
structure PathWalkers.CoveredBy (pw : PathWalkers) (w : Walkers) : Prop where
  visit : ∀ p {t live}, t.Follows live → (w.visit p live).Covers (pw.visit p t) Trail.Follows
  resolve : ∀ p {t live}, t.Follows live →
    (w.resolve p live).Covers (pw.resolve p t) FollowsWithin
  targets : ∀ p, (w.targets p).value = pw.targets p
  isReference : ∀ p, w.isReference p = pw.isReference p
  silent : w.SilentTargets
  effective : w.Effective

/-! ## Rounds -/

section Rounds

variable {round : LiveDefs → Traced LiveDefs} {pround : Trail → Paths Trail}
  {t : Trail} {live : LiveDefs}

/-- Rounds of the walk that change nothing cover any number of rounds of the path. -/
theorem covers_repeated_of_value_eq
    (hround : ∀ {t}, t.Follows live → (round live).Covers (pround t) Trail.Follows)
    (hsettled : (round live).value = live) (h : t.Follows live) (n : Nat) :
    (round live).Covers (PathWalkers.repeated pround n t) Trail.Follows := by
  induction n generalizing t with
  | zero => exact .pure (hsettled.symm ▸ h)
  | succ n ih =>
    constructor
    · intro r hr
      obtain ⟨before, hbefore, after, hafter, rfl⟩ := Paths.mem_bind.mp hr
      exact (ih (hsettled ▸ (hround h).value before hbefore)).value after hafter
    · intro r hr f hf
      obtain ⟨before, hbefore, after, hafter, rfl⟩ := Paths.mem_bind.mp hr
      exact (List.mem_append.mp hf).elim ((hround h).edges before hbefore f)
        ((ih (hsettled ▸ (hround h).value before hbefore)).edges after hafter f)

/-- **Two rounds of the walk cover any number of rounds of the path**, from one on. -/
theorem covers_repeated (heffect : Transfers fun live => (round live).value)
    (hround : ∀ {t live}, t.Follows live → (round live).Covers (pround t) Trail.Follows)
    (h : t.Follows live) {passes n : Nat} (hpasses : 2 ≤ passes) (hn : 1 ≤ n) :
    ((Walkers.rounds round passes live).mapEdges Edge.fold).Covers
      (PathWalkers.repeated pround n t) Trail.Follows := by
  obtain ⟨m, rfl⟩ := Nat.exists_eq_add_of_le' hn
  obtain ⟨k, rfl⟩ := Nat.exists_eq_add_of_le' hpasses
  have hsettled := heffect.apply_apply h.ascending
  refine Traced.Covers.fold ?_
  -- the first rounds of both are compared, and all later ones of the path with the second
  show (round live >>= Walkers.rounds round (k + 1)).Covers
    (pround t >>= PathWalkers.repeated pround m) Trail.Follows
  have hlater : ∀ {t}, t.Follows (round live).value →
      (Walkers.rounds round (k + 1) (round live).value).Covers
        (PathWalkers.repeated pround m t) Trail.Follows := by
    intro t ht
    have hsecond := covers_repeated_of_value_eq hround hsettled ht m
    refine ⟨fun r hr => ?_, fun r hr f hf => ?_⟩
    · rw [heffect.value_rounds ht.ascending]
      exact hsecond.value r hr
    · exact (hsecond.edges r hr f hf).mono (List.subset_append_left _ _)
  exact (hround h).bind_value fun _ => hlater

end Rounds

/-! ## Patterns -/

namespace PathWalkers.CoveredBy

open Traced (Covers)

variable {pw : PathWalkers} {w : Walkers} {t : Trail} {live : LiveDefs}

theorem tokensOf (hw : pw.CoveredBy w) (ps : List Place) :
    w.tokensOf ps = ps.flatMap pw.targets := by
  rw [Walkers.tokensOf]
  exact congrArg (ps.flatMap ·) (funext hw.targets)

theorem value_allTargets (hw : pw.CoveredBy w) (ps : List Place) :
    (w.allTargets ps).value = ps.flatMap pw.targets := by
  rw [Walkers.value_allTargets, hw.tokensOf]

theorem visitAll (hw : pw.CoveredBy w) (ps : List Place) (h : t.Follows live) :
    (w.visitAll ps live).Covers (pw.visitAll ps t) Trail.Follows := by
  induction ps generalizing t live with
  | nil => exact .pure h
  | cons p ps ih => exact (hw.visit p h).bind fun _ _ => ih

theorem resolveAll (hw : pw.CoveredBy w) (ps : List Place) (h : t.Follows live) :
    (w.resolveAll ps live).Covers (pw.resolveAll ps t) FollowsWithin := by
  induction ps generalizing t live with
  | nil => exact .pure ⟨h, List.forall_mem_nil _⟩
  | cons p ps ih =>
    refine (hw.resolve p h).bind fun _ _ hr => (ih hr.1).bind fun _ _ hr' => .pure ⟨hr'.1, ?_⟩
    intro x hx hfirm
    rcases List.mem_append.mp hx with hx | hx
    · exact List.mem_append_left _ (hr.2 x hx hfirm)
    · exact List.mem_append_right _ (hr'.2 x hx hfirm)

theorem readValues (hw : pw.CoveredBy w) (ps : List Place) (h : t.Follows live) :
    (w.readValues ps live).Covers (pw.readValues ps t)
      fun r r' => r.1.Follows r'.1 ∧ ValuesWithin r.2 r'.2 := by
  induction ps generalizing t live with
  | nil => exact .pure ⟨h, rfl, fun _ _ hu => nomatch hu⟩
  | cons p ps ih =>
    refine (hw.resolve p h).bind fun r' r hr => (ih hr.1).bind fun rs' rs hrs =>
      .pure ⟨hrs.1, ?_, fun i u hu => ?_⟩
    · show w.isReference p :: rs'.2.map (·.isReference) = pw.isReference p :: _
      rw [hrs.2.isReference, hw.isReference]
    · cases i with
      | zero =>
        cases hu
        exact ⟨_, rfl, hr.2⟩
      | succ i => exact hrs.2.sources i u hu

/-- The edges of the targets of a binding cover those that a path brings up. -/
theorem targetEdges (hw : pw.CoveredBy w) (b : Binding) (h : t.Follows live)
    {us : List (Value PathSource)} {vs : List (Value Source)} (hvalues : ValuesWithin us vs) :
    ∀ f ∈ pw.targetEdges b.kind t (Binding.pairUp b.targets us),
      f.CoveredBy (w.targetEdges b.kind live (Binding.pairUp b.targets vs)) := by
  intro f hf x hx hfirm
  obtain ⟨⟨target, u⟩, hpair, hf⟩ := List.mem_flatMap.mp hf
  obtain ⟨k, hk, rfl⟩ := List.mem_map.mp hf
  have htoken : k ∈ (w.targets target).value := hw.targets target ▸ hk
  -- the edge of the walk for the same token, once its value is known
  have hedge : ∀ v, (target, v) ∈ Binding.pairUp b.targets vs →
      .ofSources k.text k.index (b.kind.relation v) (b.kind.sources v live k) ∈
        w.targetEdges b.kind live (Binding.pairUp b.targets vs) := fun v hv =>
    List.mem_flatMap.mpr ⟨(target, v), hv, List.mem_map_of_mem htoken⟩
  rcases BindingKind.mem_pathSources.mp hx with hx | ⟨hkind, held, hheld, hx⟩
  · obtain ⟨i, u', hu', hx, hothers⟩ := Binding.exists_of_mem_pairUp hpair hx
    obtain ⟨v', hv', hwithin⟩ := hvalues.sources i u' hu'
    obtain ⟨v, hv, hsame, hsub⟩ := hothers vs hvalues.isReference v' hv'
    refine ⟨_, hedge v hv, ?_, ?_⟩
    · rw [Edge.slot_ofSources, BindingKind.relation_congr b.kind hsame]
      rfl
    · refine Edge.mem_sources_ofSources.mpr (BindingKind.mem_sources.mpr (Or.inl ?_))
      exact hsub (hwithin x hx hfirm)
  · -- the target of a compound binding draws from what is live, whatever the value is
    have htarget : target ∈ b.targets :=
      Binding.map_fst_pairUp b.targets us ▸ List.mem_map_of_mem hpair
    obtain ⟨v, hv⟩ := Binding.exists_mem_pairUp htarget vs
    refine ⟨_, hedge v hv, ?_, ?_⟩
    · show (k.text, k.index, b.kind.relation v) = (k.text, k.index, b.kind.relation u)
      rw [hkind, BindingKind.relation_compound, BindingKind.relation_compound]
    · refine Edge.mem_sources_ofSources.mpr (BindingKind.mem_sources.mpr (Or.inr ⟨hkind, ?_⟩))
      exact h.mem_ofDefs hheld hx hfirm

theorem bind (hw : pw.CoveredBy w) (b : Binding) (h : t.Follows live) :
    (w.bind b live).Covers (pw.bind b t) fun r r' => r.1.Follows r'.1 ∧ r.2 = r'.2 := by
  refine (hw.readValues b.values h).bind fun r' r hr => ?_
  have hdefined : (w.defineTargets b.kind r'.1 (Binding.pairUp b.targets r'.2)).value =
      b.targets.flatMap pw.targets := by
    rw [Walkers.value_defineTargets, Binding.map_fst_pairUp, hw.tokensOf]
  refine .emit (fun f hf => ?_) (.after (.pure ?_))
  · refine (hw.targetEdges b hr.1 hr.2 f hf).mono ?_
    rw [← Walkers.edges_defineTargets hw.silent]
    exact List.subset_append_left _ _
  · rw [hdefined]
    exact ⟨hr.1.bindAll _, rfl⟩

theorem updateTokens (ks : List Token) (h : t.Follows live) :
    (Walkers.updateTokens ks live).Covers (PathWalkers.updateTokens ks t) Trail.Follows := by
  induction ks generalizing t live with
  | nil => exact .pure h
  | cons k ks ih =>
    rw [Walkers.updateTokens_cons]
    refine .emit (fun f hf => ?_) (.after (ih (h.bind k)))
    rw [List.mem_singleton.mp hf]
    exact .of_firmWithin (h.sources k) (List.mem_append_left _ List.mem_cons_self)

theorem update (hw : pw.CoveredBy w) (operand : Place) (h : t.Follows live) :
    (w.update operand live).Covers (pw.update operand t)
      fun r r' => r.1.Follows r'.1 ∧ r.2 = r'.2 := by
  unfold Walkers.update PathWalkers.update
  refine .after ?_
  rw [hw.targets]
  exact (updateTokens _ h).bind fun _ _ hlive => .pure ⟨hlive, rfl⟩

/-- Whatever alternative a path takes, the conditional covers it. -/
theorem branch (hw : pw.CoveredBy w) (b : Branch) (h : t.Follows live) :
    (w.branch b live).Covers (pw.branch b t) Trail.Follows := by
  have hcondition := hw.visitAll b.condition h
  constructor
  · intro r hr
    obtain ⟨before, hbefore, after, hafter, rfl⟩ := Paths.mem_bind.mp hr
    obtain ⟨arm, harm, hafter⟩ := Paths.mem_choose_bind.mp hafter
    rw [w.value_branch]
    refine Trail.Follows.merge (List.mem_map_of_mem harm) ?_
    exact (hw.visitAll arm (hcondition.value before hbefore)).value after hafter
  · intro r hr f hf
    obtain ⟨before, hbefore, after, hafter, rfl⟩ := Paths.mem_bind.mp hr
    obtain ⟨arm, harm, hafter⟩ := Paths.mem_choose_bind.mp hafter
    rw [w.edges_branch]
    rcases List.mem_append.mp hf with hf | hf
    · exact (hcondition.edges before hbefore f hf).mono (List.subset_append_left _ _)
    · have harms := hw.visitAll arm (hcondition.value before hbefore)
      refine (harms.edges after hafter f hf).mono fun e he => List.mem_append_right _ ?_
      exact List.mem_flatMap.mpr ⟨arm, harm, he⟩

theorem round (hw : pw.CoveredBy w) (i : Iteration) (h : t.Follows live) :
    (w.round i live).Covers (pw.round i t) Trail.Follows := by
  refine (hw.resolveAll i.iterable.toList h).bind fun r' r hr => .after ?_
  rw [hw.value_allTargets]
  refine .emit (fun f hf => ?_) (.after (hw.visitAll i.body (hr.1.bindAll _)))
  obtain ⟨k, hk, rfl⟩ := List.mem_map.mp hf
  refine .of_firmWithin hr.2 (List.mem_append_left _ ?_)
  exact List.mem_map_of_mem (f := fun k => Edge.ofSources k.text k.index .computedFrom r'.2) hk

theorem restoreShadowed (hw : pw.CoveredBy w) (i : Iteration) {inner : Trail} {live' : LiveDefs}
    (hinner : inner.Follows live') (h : t.Follows live) :
    (inner.restoreAll (pw.shadowed i t)).Follows
      (live'.restoreAll (w.shadowed i live).value) := by
  rw [w.value_shadowed, hw.tokensOf]
  unfold PathWalkers.shadowed
  split
  · exact hinner.restoreAll h _
  · exact hinner

section Loops

variable {passes : Nat} (hpasses : 2 ≤ passes)
include hpasses

theorem iterate (hw : pw.CoveredBy w) (i : Iteration) (h : t.Follows live) :
    (w.iterate passes i live).Covers (pw.iterate (1 ≤ ·) i t) Trail.Follows := by
  refine .choose fun n hn => .after ?_
  exact (covers_repeated (hw.effective.round i) (hw.round i) h hpasses hn).bind fun _ _ hlive =>
    (hw.visitAll i.tail hlive).bind fun _ _ hinner => .pure (hw.restoreShadowed i hinner h)

theorem loop (hw : pw.CoveredBy w) (l : Loop) (h : t.Follows live) :
    (w.loop passes l live).Covers (pw.loop (1 ≤ ·) l t) Trail.Follows := by
  refine (hw.visitAll l.setup h).bind fun _ _ hlive => .choose fun n hn => ?_
  exact (covers_repeated (hw.effective.visitAll l.repeated) (hw.visitAll l.repeated) hlive
    hpasses hn).bind fun _ _ hlive => hw.visitAll l.tail hlive

end Loops

theorem bindParameters (hw : pw.CoveredBy w) (qs : List Parameter) (h : t.Follows live) :
    (w.bindParameters qs live).Covers (pw.bindParameters qs t) Trail.Follows := by
  induction qs generalizing t live with
  | nil => exact .pure h
  | cons q qs ih => exact (hw.bind _ h).bind fun _ _ hr => ih hr.1

theorem define (hw : pw.CoveredBy w) (d : Definition) (h : t.Follows live) :
    (w.define d live).Covers (pw.define d t) Trail.Follows := by
  refine .after ?_
  rw [hw.value_allTargets]
  exact (hw.bindParameters d.parameters .empty).bind fun _ _ hscope =>
    (hw.visitAll d.body hscope).bind fun _ _ _ => .pure (h.bindAll _)

section Patterns

variable {passes : Nat} (hpasses : 2 ≤ passes)
include hpasses

theorem visitPattern (hw : pw.CoveredBy w) (pattern : Pattern) (p : Place) (h : t.Follows live) :
    (w.visitPattern passes pattern p live).Covers (pw.visitPattern (1 ≤ ·) pattern p t)
      Trail.Follows := by
  cases pattern with
  | binding b => exact (hw.bind b h).bind fun _ _ hr => .pure hr.1
  | update operand => exact (hw.update operand h).bind fun _ _ hr => .pure hr.1
  | branch b => exact hw.branch b h
  | iteration i => exact hw.iterate hpasses i h
  | loop l => exact hw.loop hpasses l h
  | definition d => exact hw.define d h
  | sequence first rest => exact hw.visitAll (first ++ rest) h
  | plain => exact hw.visitAll p.children h

theorem resolvePattern (hw : pw.CoveredBy w) (pattern : Pattern) (p : Place)
    (h : t.Follows live) :
    (w.resolvePattern passes pattern p live).Covers (pw.resolvePattern (1 ≤ ·) pattern p t)
      FollowsWithin := by
  have hnone : ∀ sources, FirmWithin [] sources := fun _ _ hx => absurd hx List.not_mem_nil
  have hdefined : ∀ ks : List Token,
      FirmWithin (ks.map fun k => ⟨k.source, true⟩) (ks.map Token.source) := by
    intro ks x hx _
    obtain ⟨k, hk, rfl⟩ := List.mem_map.mp hx
    exact List.mem_map_of_mem hk
  cases pattern with
  | binding b => exact (hw.bind b h).bind fun _ _ hr => .pure ⟨hr.1, hr.2 ▸ hdefined _⟩
  | update operand => exact (hw.update operand h).bind fun _ _ hr => .pure ⟨hr.1, hr.2 ▸ hdefined _⟩
  | iteration i => exact (hw.iterate hpasses i h).bind fun _ _ hlive => .pure ⟨hlive, hnone _⟩
  | definition d => exact (hw.define d h).bind fun _ _ hlive => .pure ⟨hlive, hnone _⟩
  | sequence first rest => exact hw.resolveAll (first ++ rest) h
  | branch | loop | plain => exact hw.resolveAll p.children h

end Patterns

end PathWalkers.CoveredBy

/-! ## Whole runs -/

namespace Setup

variable (s : Setup) {t : Trail} {live : LiveDefs}

theorem covers_readToken (p : Place) (h : t.Follows live) :
    (s.readToken p live).Covers (s.pathReadToken p t) Trail.Follows := by
  have hvalue := s.value_readToken p live
  have hedges := s.edges_readToken p live
  unfold pathReadToken
  cases hleaf : (s.leaf p).value with
  | literal k | silent =>
    rw [hleaf] at hvalue
    exact .pure (hvalue ▸ h)
  | name k =>
    rw [hleaf] at hvalue hedges
    exact .emit (hedges ▸ h.reads k) (.pure (hvalue ▸ h.sight k))

theorem covers_resolveToken (p : Place) (h : t.Follows live) :
    (s.resolveToken p live).Covers (s.pathResolveToken p t) FollowsWithin := by
  have hvalue := s.value_resolveToken p live
  unfold pathResolveToken
  cases hleaf : (s.leaf p).value with
  | silent =>
    rw [hleaf] at hvalue
    exact .pure (hvalue ▸ ⟨h, List.forall_mem_nil _⟩)
  | literal k =>
    rw [hleaf] at hvalue
    refine .pure (hvalue ▸ ⟨h, fun x hx _ => ?_⟩)
    rw [List.mem_singleton.mp hx]
    exact List.mem_cons_self
  | name k =>
    rw [hleaf] at hvalue
    exact .pure (hvalue ▸ ⟨h.sight k, h.sources k⟩)

variable {s} {pw : PathWalkers} {w : Walkers} (hpasses : 2 ≤ s.passes)
include hpasses

theorem covers_visitStep (hw : pw.CoveredBy w) (p : Place) (h : t.Follows live) :
    (s.visitStep w p live).Covers (s.pathVisitStep (1 ≤ ·) pw p t) Trail.Follows := by
  cases s.language.reads p with
  | comment hcomment =>
    rw [visitStep_of_comment hcomment, pathVisitStep_of_comment _ hcomment]
    exact .pure h
  | token hcomment htoken =>
    rw [visitStep_of_token hcomment htoken, pathVisitStep_of_token _ hcomment htoken]
    exact s.covers_readToken p h
  | construct hcomment htoken =>
    rw [visitStep_of_construct hcomment htoken, pathVisitStep_of_construct _ hcomment htoken]
    exact hw.visitPattern hpasses _ p h

theorem covers_resolveStep (hw : pw.CoveredBy w) (p : Place) (h : t.Follows live) :
    (s.resolveStep w p live).Covers (s.pathResolveStep (1 ≤ ·) pw p t) FollowsWithin := by
  cases s.language.reads p with
  | comment hcomment =>
    rw [resolveStep_of_comment hcomment, pathResolveStep_of_comment _ hcomment]
    exact .pure ⟨h, List.forall_mem_nil _⟩
  | token hcomment htoken =>
    rw [resolveStep_of_token hcomment htoken, pathResolveStep_of_token _ hcomment htoken]
    exact s.covers_resolveToken p h
  | construct hcomment htoken =>
    rw [resolveStep_of_construct hcomment htoken, pathResolveStep_of_construct _ hcomment htoken]
    exact hw.resolvePattern hpasses _ p h

theorem coveredBy_walkers (budget : Nat) :
    (s.pathWalkers (1 ≤ ·) budget).CoveredBy (s.walkers budget) := by
  induction budget with
  | zero =>
    refine ⟨fun p _ _ h => .pure h, fun p _ _ h => ?_, fun _ => rfl, fun _ => rfl,
      s.silentTargets_walkers 0, s.effective_walkers 0⟩
    exact .pure ⟨h, List.forall_mem_nil _⟩
  | succ budget ih =>
    exact ⟨fun p _ _ => covers_visitStep hpasses ih p, fun p _ _ => covers_resolveStep hpasses ih p,
      fun _ => rfl, fun _ => rfl, s.silentTargets_walkers _, s.effective_walkers _⟩

/-- **The graph covers every path.**  Whatever alternatives a path takes and however often
it goes through its loops, each source of each of its edges that is a literal, what a
nested binding defines or a firm definition is a source of an edge of the graph that
defines the same token in the same way.  Two passes over a loop, the number a setup has if
no other is given, are enough for that. -/
theorem graph_covers_path_runs (root : Place) {seed : LiveDefs} (hseed : seed.Ascending)
    {r : Run Trail} (hr : r ∈ s.pathRuns (1 ≤ ·) root seed) {f : PathEdge} (hf : f ∈ r.edges)
    {x : PathSource} (hx : x ∈ f.sources) (hfirm : x.firm = true) :
    ∃ e ∈ (s.graph root seed).edges, e.name = f.name ∧ e.index = f.index ∧
      e.relation = f.relation ∧ x.source ∈ e.sources := by
  have hcovers := (coveredBy_walkers hpasses s.budget).visit root (Trail.Follows.ofLive hseed)
  obtain ⟨e, he, hslot, hmem⟩ := hcovers.edges r hr f hf x hx hfirm
  simp only [Edge.slot, PathEdge.slot, Prod.mk.injEq] at hslot
  exact ⟨e, he, hslot.1, hslot.2.1, hslot.2.2, hmem⟩

omit hpasses in
/-- The path that goes once through a loop that copies. -/
theorem graph_covers_copyLoop :
    ∃ r ∈ CopyLoop.setup.pathRuns (1 ≤ ·) CopyLoop.root CopyLoop.seed,
      ∃ f ∈ r.edges, ∃ x ∈ f.sources, x.firm = true ∧
        ∃ e ∈ (CopyLoop.setup.graph CopyLoop.root CopyLoop.seed).edges, e.name = f.name ∧
          e.index = f.index ∧ e.relation = f.relation ∧ x.source ∈ e.sources := by
  let w := CopyLoop.setup.pathWalkers (1 ≤ ·)
  let t := Trail.ofLive CopyLoop.seed
  let t' := t.bind (CopyLoop.token 1 "a")
  let x : PathSource := ⟨⟨"a", 8⟩, true⟩
  let y : PathSource := ⟨⟨"b", 9⟩, true⟩
  let f : PathEdge := ⟨"a", 0, .comesFrom, [x]⟩
  let g : PathEdge := ⟨"a", 1, .comesFrom, [y]⟩
  have hvalue : ⟨(t, [⟨[y], true⟩]), []⟩ ∈
      (w 1).readValues [⟨some CopyLoop.assignment, CopyLoop.word 2 "right"⟩] t :=
    ⟨_, rfl, _, ⟨_, rfl, _, rfl, rfl⟩, rfl⟩
  have hcondition :
      ⟨t, [f]⟩ ∈ (w 2).visit ⟨some CopyLoop.root.node, CopyLoop.word 0 "condition"⟩ t :=
    ⟨_, rfl, _, rfl, rfl⟩
  have hbody : ⟨t', [g]⟩ ∈ (w 2).visit ⟨some CopyLoop.root.node, CopyLoop.assignment⟩ t :=
    ⟨_, ⟨_, hvalue, _, ⟨_, rfl, _, rfl, rfl⟩, rfl⟩, _, rfl, rfl⟩
  have hround : ⟨t', [f, g]⟩ ∈ (w 2).visitAll CopyLoop.root.children t :=
    ⟨_, hcondition, _, ⟨_, hbody, _, rfl, rfl⟩, rfl⟩
  have hrun : ⟨t', [f, g]⟩ ∈ CopyLoop.setup.pathRuns (1 ≤ ·) CopyLoop.root CopyLoop.seed :=
    ⟨_, rfl, _, ⟨⟨1, []⟩, ⟨Nat.le_refl 1, rfl⟩, _, ⟨_, ⟨_, hround, _, rfl, rfl⟩, _, rfl, rfl⟩, rfl⟩,
      rfl⟩
  exact ⟨_, hrun, f, List.mem_cons_self, x, List.mem_cons_self, rfl,
    graph_covers_path_runs (Nat.le_refl 2) CopyLoop.root CopyLoop.ascending_seed hrun
      List.mem_cons_self List.mem_cons_self rfl⟩

end Setup

end TokenFlow
