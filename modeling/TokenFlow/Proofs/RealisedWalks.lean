import TokenFlow.Proofs.Realising
import TokenFlow.Proofs.WalkEffects

/-!
# Patterns that paths realise

Each pattern is realised by its paths if reading its parts is (`Walkers.RealisedBy`).  Where
alternatives meet, each definition comes from one of them, and a path may take that one.
The second reading of a loop starts from what the first leaves, and so do the paths that
go through it twice; those that go through it once bind nothing else, because a walk is
idempotent on the live definitions (`realised_repeated`).
-/
namespace TokenFlow

open Paths (among)

/-! ## What is related -/

/-- The trails realise the live definitions, and each source is found on some path. -/
def ResolvedAs (U : Set (Trail × List PathSource)) (r : LiveDefs × List Source) : Prop :=
  Realises (Prod.fst '' U) r.1 ∧ ∀ x ∈ r.2, ∃ u ∈ U, ∃ y ∈ u.2, y.source = x

/-- The trails realise the live definitions, the same values are copies on every path, and
each source of a value is found on some path. -/
structure ReadAs (U : Set (Trail × List (Value PathSource))) (r : LiveDefs × List (Value Source)) :
    Prop where
  trails : Realises (Prod.fst '' U) r.1
  isReference : ∀ u ∈ U, u.2.map (·.isReference) = r.2.map (·.isReference)
  sources : ∀ (i : Nat) (v : Value Source), r.2[i]? = some v → ∀ x ∈ v.sources,
    ∃ u ∈ U, ∃ v' : Value PathSource, u.2[i]? = some v' ∧ ∃ y ∈ v'.sources, y.source = x

/-- The trails realise the live definitions, and every path defines the same tokens. -/
def DefinedAs (U : Set (Trail × List Token)) (r : LiveDefs × List Token) : Prop :=
  Realises (Prod.fst '' U) r.1 ∧ ∀ u ∈ U, u.2 = r.2

/-- What reads a walk is realised by what reads a path. -/
structure Walkers.RealisedBy (account : Nat → Source → Prop) (w : Walkers) (pw : PathWalkers) :
    Prop where
  visit : ∀ p {V live}, Realises V live →
    (w.visit p live).RealisedBy account (among V >>= pw.visit p) Realises
  resolve : ∀ p {V live}, Realises V live →
    (w.resolve p live).RealisedBy account (among V >>= pw.resolve p) ResolvedAs
  total : pw.Total
  targets : ∀ p, (w.targets p).value = pw.targets p
  isReference : ∀ p, w.isReference p = pw.isReference p
  silent : w.SilentTargets
  effective : w.Effective

/-! ## Rounds -/

/-- How often a path goes through a loop. -/
def OnceOrTwice (n : Nat) : Prop :=
  n = 1 ∨ n = 2

/-- **Two rounds of the walk are realised by paths of one or two rounds.**  Paths of one
round bind nothing that the walk does not, since its second round binds what the first
does. -/
theorem realised_repeated {account : Nat → Source → Prop} {round : LiveDefs → Traced LiveDefs}
    {pround : Trail → Paths Trail} (heffect : Transfers fun live => (round live).value)
    (hpossible : ∀ t, (pround t).Possible)
    (hround : ∀ {V live}, Realises V live →
      (round live).RealisedBy account (among V >>= pround) Realises)
    {V : Set Trail} {live : LiveDefs} (h : Realises V live) :
    ((Walkers.rounds round 2 live).mapEdges Edge.fold).RealisedBy account
      (among V >>= fun t => Paths.choose OnceOrTwice >>= fun n =>
        PathWalkers.repeated pround n t) Realises := by
  have hone : ∀ t, PathWalkers.repeated pround 1 t = pround t := fun t => bind_pure (pround t)
  have htwo : ∀ t, PathWalkers.repeated pround 2 t = pround t >>= pround := fun t =>
    congrArg (pround t >>= ·) (funext hone)
  have htwice : (Walkers.rounds round 2 live).RealisedBy account
      (among V >>= fun t => pround t >>= pround) Realises :=
    ((hround h).andThen hpossible fun _ _ => hround).congr rfl
      (congrArg (_ ++ ·) (List.append_nil _))
  have hsub : ∀ r ∈ among V >>= fun t => pround t >>= pround,
      r ∈ among V >>= fun t => Paths.choose OnceOrTwice >>= fun n =>
        PathWalkers.repeated pround n t := by
    intro r hr
    obtain ⟨t, ht, hr⟩ := Paths.mem_among_bind.mp hr
    exact Paths.mem_among_bind.mpr ⟨t, ht, Paths.mem_choose_bind.mpr ⟨2, Or.inr rfl, htwo t ▸ hr⟩⟩
  -- paths of two rounds account for everything; those of one round must do no harm
  refine Traced.RealisedBy.fold ⟨htwice.value.mono ?_ ?_, fun e he y hy haccount => ?_⟩
  · rintro _ ⟨r, hr, rfl⟩
    exact ⟨r, hsub r hr, rfl⟩
  · rintro _ ⟨r, hr, rfl⟩ name hnone
    obtain ⟨t, ht, hr⟩ := Paths.mem_among_bind.mp hr
    obtain ⟨n, rfl | rfl, hr⟩ := Paths.mem_choose_bind.mp hr
    · rw [hone] at hr
      have hfirst := hround h
      refine hfirst.value.unbound _ ⟨r, Paths.mem_among_bind.mpr ⟨t, ht, hr⟩, rfl⟩ name ?_
      refine Classical.byContradiction fun hbound => ?_
      exact heffect.get?_ne_none hfirst.value.ascending hbound hnone
    · rw [htwo] at hr
      exact htwice.value.unbound _ ⟨r, Paths.mem_among_bind.mpr ⟨t, ht, hr⟩, rfl⟩ name hnone
  · obtain ⟨r, hr, hdraws⟩ := htwice.edges e he y hy haccount
    exact ⟨r, hsub r hr, hdraws⟩

/-! ## Patterns -/

namespace Walkers.RealisedBy

variable {account : Nat → Source → Prop} {pw : PathWalkers} {w : Walkers} {V : Set Trail}
  {live : LiveDefs}

theorem tokensOf (hw : w.RealisedBy account pw) (ps : List Place) :
    w.tokensOf ps = ps.flatMap pw.targets :=
  congrArg (ps.flatMap ·) (funext hw.targets)

theorem visitAll (hw : w.RealisedBy account pw) (ps : List Place) (h : Realises V live) :
    (w.visitAll ps live).RealisedBy account (among V >>= pw.visitAll ps) Realises := by
  induction ps generalizing V live with
  | nil => exact .stay rfl h
  | cons p ps ih => exact (hw.visit p h).andThen (hw.total.visitAll ps) fun _ _ => ih

theorem resolveAll (hw : w.RealisedBy account pw) (ps : List Place) (h : Realises V live) :
    (w.resolveAll ps live).RealisedBy account (among V >>= pw.resolveAll ps) ResolvedAs := by
  induction ps generalizing V live with
  | nil => exact .pure (k := fun t => (t, [])) rfl ⟨h.answer [], List.forall_mem_nil _⟩
  | cons p ps ih =>
    refine (hw.resolve p h).andThen
      (fun u => (hw.total.resolveAll ps u.1).bind fun _ => .pure _) fun U r hU => ?_
    have htail := ih hU.1
    rw [Paths.among_image_bind] at htail
    obtain ⟨htrails, hmore⟩ := htail.value_pairs
    refine htail.keep (fun r' => (r'.1, r.2 ++ r'.2)) (fun u u' => (u'.1, u.2 ++ u'.2)) ⟨?_, ?_⟩
    · rw [Set.image_image] at htrails ⊢
      exact htrails
    · intro x hx
      rcases List.mem_append.mp hx with hx | hx
      · obtain ⟨u, hu, y, hy, rfl⟩ := hU.2 x hx
        obtain ⟨u', hpair⟩ := Paths.exists_mem_pairs (fun u => hw.total.resolveAll ps u.1) hu
        exact ⟨_, ⟨_, hpair, rfl⟩, y, List.mem_append_left _ hy, rfl⟩
      · obtain ⟨_, ⟨q, hq, rfl⟩, y, hy, rfl⟩ := hmore x hx
        exact ⟨_, ⟨q, hq, rfl⟩, y, List.mem_append_right _ hy, rfl⟩

theorem readValues (hw : w.RealisedBy account pw) (ps : List Place) (h : Realises V live) :
    (w.readValues ps live).RealisedBy account (among V >>= pw.readValues ps) ReadAs := by
  induction ps generalizing V live with
  | nil =>
    refine .pure (k := fun t => (t, [])) rfl ⟨h.answer [], ?_, fun _ _ hv => nomatch hv⟩
    rintro _ ⟨t, -, rfl⟩
    rfl
  | cons p ps ih =>
    refine (hw.resolve p h).andThen
      (fun u => (hw.total.readValues ps u.1).bind fun _ => .pure _) fun U r hU => ?_
    have htail := ih hU.1
    rw [Paths.among_image_bind] at htail
    have hmore := htail.value_pairs
    refine htail.keep (fun r' => (r'.1, Value.mk r.2 (w.isReference p) :: r'.2))
      (fun u u' => (u'.1, Value.mk u.2 (pw.isReference p) :: u'.2)) ?_
    refine ⟨?_, ?_, ?_⟩
    · have htrails := hmore.trails
      rw [Set.image_image] at htrails ⊢
      exact htrails
    · rintro _ ⟨q, hq, rfl⟩
      show pw.isReference p :: q.2.2.map _ = w.isReference p :: _
      rw [hw.isReference, hmore.isReference q.2 ⟨q, hq, rfl⟩]
    · intro i v hv x hx
      cases i with
      | zero =>
        cases hv
        obtain ⟨u, hu, y, hy, rfl⟩ := hU.2 x hx
        obtain ⟨u', hpair⟩ := Paths.exists_mem_pairs (fun u => hw.total.readValues ps u.1) hu
        exact ⟨_, ⟨_, hpair, rfl⟩, _, rfl, y, hy, rfl⟩
      | succ i =>
        obtain ⟨_, ⟨q, hq, rfl⟩, v', hv', y, hy, rfl⟩ := hmore.sources i v hv x hx
        exact ⟨_, ⟨q, hq, rfl⟩, v', hv', y, hy, rfl⟩

/-- Each source of each edge of the targets of a binding is drawn on some path. -/
theorem targetEdges (hw : w.RealisedBy account pw) (b : Binding)
    {U : Set (Trail × List (Value PathSource))} {r : LiveDefs × List (Value Source)}
    (hU : ReadAs U r) {e : Edge}
    (he : e ∈ w.targetEdges b.kind r.1 (Binding.pairUp b.targets r.2)) {x : Source}
    (hx : x ∈ e.sources) :
    ∃ u ∈ U, ∃ f ∈ pw.targetEdges b.kind u.1 (Binding.pairUp b.targets u.2),
      f.slot = e.slot ∧ ∃ y ∈ f.sources, y.source = x := by
  obtain ⟨⟨target, v⟩, hpair, he⟩ := List.mem_flatMap.mp he
  obtain ⟨k, hk, rfl⟩ := List.mem_map.mp he
  have htoken : k ∈ pw.targets target := hw.targets target ▸ hk
  -- the edge of a path for the same token, once its value is known
  have hedge : ∀ {u : Trail × List (Value PathSource)} {v'},
      (target, v') ∈ Binding.pairUp b.targets u.2 →
        ⟨k.text, k.index, b.kind.relation v', b.kind.pathSources v' u.1 k⟩ ∈
          pw.targetEdges b.kind u.1 (Binding.pairUp b.targets u.2) := fun {_ v'} hv' =>
    List.mem_flatMap.mpr ⟨(target, v'), hv', List.mem_map.mpr ⟨k, htoken, rfl⟩⟩
  rw [Edge.mem_sources_ofSources, BindingKind.mem_sources] at hx
  rcases hx with hx | ⟨hkind, defs, hdefs, hx⟩
  · obtain ⟨i, v', hv', hx, hothers⟩ := Binding.exists_of_mem_pairUp hpair hx
    obtain ⟨u, hu, u', hu', y, hy, rfl⟩ := hU.sources i v' hv' x hx
    obtain ⟨z, hz, hsame, hsub⟩ := hothers u.2 (hU.isReference u hu) u' hu'
    refine ⟨u, hu, _, hedge hz, ?_, y, ?_, rfl⟩
    · show (k.text, k.index, b.kind.relation z) = (k.text, k.index, b.kind.relation v)
      rw [BindingKind.relation_congr b.kind hsame]
    · exact BindingKind.mem_pathSources.mpr (Or.inl (hsub hy))
  · obtain ⟨_, ⟨u, hu, rfl⟩, held, hheld, -, y, hy, rfl⟩ := hU.trails.exists_held hdefs hx
    have htarget : target ∈ b.targets :=
      Binding.map_fst_pairUp b.targets r.2 ▸ List.mem_map_of_mem hpair
    obtain ⟨z, hz⟩ := Binding.exists_mem_pairUp htarget u.2
    refine ⟨u, hu, _, hedge hz, ?_, y, ?_, rfl⟩
    · show (k.text, k.index, b.kind.relation z) = (k.text, k.index, b.kind.relation v)
      rw [hkind, BindingKind.relation_compound, BindingKind.relation_compound]
    · exact BindingKind.mem_pathSources.mpr (Or.inr ⟨hkind, held, hheld, hy⟩)

theorem bind (hw : w.RealisedBy account pw) (b : Binding) (h : Realises V live) :
    (w.bind b live).RealisedBy account (among V >>= pw.bind b) DefinedAs := by
  let defined := b.targets.flatMap pw.targets
  refine (hw.readValues b.values h).andThen
    (fun _ => (Paths.Possible.emit _).bind fun _ => .pure _) fun U r hU => ?_
  have hdefined : DefinedAs ((fun t => (t, defined)) '' ((fun u => u.1.bindAll defined) '' U))
      (r.1.bindAll defined, defined) := by
    refine ⟨?_, ?_⟩
    · have hbound := hU.trails.bindAll defined
      rw [Set.image_image] at hbound ⊢
      rw [Set.image_id']
      exact hbound
    · rintro _ ⟨_, -, rfl⟩
      rfl
  have hrest : (Traced.emit (w.targetEdges b.kind r.1 (Binding.pairUp b.targets r.2)) >>= fun _ =>
      pure (r.1.bindAll defined, defined)).RealisedBy account
      (among U >>= fun u =>
        Paths.emit (pw.targetEdges b.kind u.1 (Binding.pairUp b.targets u.2)) >>= fun _ =>
          pure (u.1.bindAll defined, defined)) DefinedAs :=
    .emit (h := fun t => pure (t, defined)) (fun _ => .pure _)
      (fun e he y hy _ => hw.targetEdges b hU he hy) (.pure rfl hdefined)
  refine hrest.congr ?_ ?_
  · show (LiveDefs.bindAll _ (w.defineTargets _ _ _).value, (w.defineTargets _ _ _).value) = _
    rw [value_defineTargets, Binding.map_fst_pairUp, hw.tokensOf]
    rfl
  · show (w.defineTargets _ _ _).edges ++ [] = _
    rw [edges_defineTargets hw.silent]
    rfl

theorem updateTokens (ks : List Token) (h : Realises V live) :
    (Walkers.updateTokens ks live).RealisedBy account (among V >>= PathWalkers.updateTokens ks)
      Realises := by
  induction ks generalizing V live with
  | nil => exact .stay rfl h
  | cons k ks ih =>
    rw [updateTokens_cons]
    refine .emit (PathWalkers.Total.updateTokens ks) (fun e he x hx _ => ?_) (ih (h.bind k))
    cases List.mem_singleton.mp he
    obtain ⟨t, ht, y, hy, rfl⟩ := h.sources k (Edge.mem_sources_ofSources.mp hx)
    exact ⟨t, ht, _, List.mem_cons_self, rfl, y, hy, rfl⟩

theorem update (hw : w.RealisedBy account pw) (operand : Place) (h : Realises V live) :
    (w.update operand live).RealisedBy account (among V >>= pw.update operand) DefinedAs := by
  refine .after (hw.silent operand) ?_
  rw [hw.targets]
  have hupdated : (Walkers.updateTokens (pw.targets operand) live).RealisedBy account
      (among V >>= PathWalkers.updateTokens (pw.targets operand)) Realises :=
    updateTokens (pw.targets operand) h
  refine hupdated.keep (fun live => (live, pw.targets operand))
    (fun _ t => (t, pw.targets operand)) ?_
  refine ⟨?_, ?_⟩
  · rw [Set.image_image]
    exact hupdated.value_pairs
  · rintro _ ⟨_, -, rfl⟩
    rfl

theorem branch (hw : w.RealisedBy account pw) (b : Branch) (h : Realises V live) :
    (w.branch b live).RealisedBy account (among V >>= pw.branch b) Realises := by
  have hpossible : ∀ t,
      (Paths.choose (· ∈ b.alternatives) >>= fun arm => pw.visitAll arm t).Possible :=
    fun t => (Paths.Possible.choose (List.exists_mem_of_ne_nil _ b.alternatives_ne_nil)).bind
      fun arm => hw.total.visitAll arm t
  -- behind the condition, the outcomes are those of all alternatives together
  have hmeet : ∀ (U : Set Trail) (l : LiveDefs), Realises U l →
      Traced.RealisedBy account
        ⟨.merge (b.alternatives.map fun arm => (w.visitAll arm l).value),
          b.alternatives.flatMap fun arm => (w.visitAll arm l).edges, []⟩
        (among U >>= fun t => Paths.choose (· ∈ b.alternatives) >>= fun arm => pw.visitAll arm t)
        Realises := by
    intro U l hU
    refine ⟨?_, fun e he x hx haccount => ?_⟩
    · have hmerged := Realises.merge b.alternatives_ne_nil
        fun arm (_ : arm ∈ b.alternatives) => (hw.visitAll arm hU).value
      convert hmerged using 1
      ext t'
      rw [Paths.mem_values_among_bind]
      constructor
      · rintro ⟨t, ht, r, hr, rfl⟩
        obtain ⟨arm, harm, hr⟩ := Paths.mem_choose_bind.mp hr
        exact ⟨arm, harm, Paths.mem_values_among_bind.mpr ⟨t, ht, r, hr, rfl⟩⟩
      · rintro ⟨arm, harm, ht'⟩
        obtain ⟨t, ht, r, hr, rfl⟩ := Paths.mem_values_among_bind.mp ht'
        exact ⟨t, ht, r, Paths.mem_choose_bind.mpr ⟨arm, harm, hr⟩, rfl⟩
    · obtain ⟨arm, harm, he⟩ := List.mem_flatMap.mp he
      obtain ⟨r, hr, hdraws⟩ := (hw.visitAll arm hU).edges e he x hx haccount
      obtain ⟨t, ht, hr⟩ := Paths.mem_among_bind.mp hr
      exact ⟨r, Paths.mem_among_bind.mpr ⟨t, ht, Paths.mem_choose_bind.mpr ⟨arm, harm, hr⟩⟩, hdraws⟩
  refine ((hw.visitAll b.condition h).andThen hpossible hmeet).congr ?_ ?_
  · exact w.value_branch b live
  · exact w.edges_branch b live

theorem round (hw : w.RealisedBy account pw) (i : Iteration) (h : Realises V live) :
    (w.round i live).RealisedBy account (among V >>= pw.round i) Realises := by
  have hbody := hw.total.visitAll i.body
  refine (hw.resolveAll i.iterable.toList h).andThen
    (fun _ => (Paths.Possible.emit _).bind fun _ => hbody _) fun U r hU => ?_
  refine .after (edges_allTargets hw.silent i.targets) ?_
  rw [value_allTargets, hw.tokensOf]
  refine .emit (k := fun u : Trail × _ => u.1.bindAll (i.targets.flatMap pw.targets)) hbody ?_
    (hw.visitAll i.body ?_)
  · intro e he x hx _
    obtain ⟨k, hk, rfl⟩ := List.mem_map.mp he
    obtain ⟨u, hu, y, hy, rfl⟩ := hU.2 x (Edge.mem_sources_ofSources.mp hx)
    exact ⟨u, hu, _, List.mem_map.mpr ⟨k, hk, rfl⟩, rfl, y, hy, rfl⟩
  · have hbound := hU.1.bindAll (i.targets.flatMap pw.targets)
    rw [Set.image_image] at hbound
    exact hbound

theorem possible_rounds {pround : Trail → Paths Trail} (hround : ∀ t, (pround t).Possible)
    (t : Trail) :
    (Paths.choose OnceOrTwice >>= fun n => PathWalkers.repeated pround n t).Possible :=
  (Paths.Possible.choose (P := OnceOrTwice) ⟨1, Or.inl rfl⟩).bind fun n =>
    PathWalkers.Total.repeated hround n t

/-- What is bound in the scope of an iteration is put back on each path. -/
theorem iterate (hw : w.RealisedBy account pw) (i : Iteration) (h : Realises V live) :
    (w.iterate 2 i live).RealisedBy account (among V >>= pw.iterate OnceOrTwice i) Realises := by
  let ks := if i.isScoped then i.targets.flatMap pw.targets else []
  let inner (t : Trail) : Paths Trail :=
    (Paths.choose OnceOrTwice >>= fun n => PathWalkers.repeated (pw.round i) n t) >>=
      pw.visitAll i.tail
  have hpossible : ∀ t, (inner t).Possible := fun t =>
    (possible_rounds (hw.total.round i) t).bind (hw.total.visitAll i.tail)
  -- everything up to the end of the scope, where each trail needs the one before it again
  have hinner : ((rounds (w.round i) 2 live).mapEdges Edge.fold >>= w.visitAll i.tail).RealisedBy
      account (among V >>= inner) Realises :=
    (realised_repeated (hw.effective.round i) (hw.total.round i) (hw.round i) h).andThen
      (hw.total.visitAll i.tail) fun _ _ => hw.visitAll i.tail
  have hrestored : Realises
      ((fun q => q.2.restoreAll (ks.map fun k => (k.text, q.1 k.text))) '' Paths.pairs V inner)
      (LiveDefs.restoreAll _ (ks.map fun k => (k.text, live.get? k.text))) :=
    h.restoreAll hinner.value_pairs (fun q hq => hq.1)
      (fun t ht => Paths.exists_mem_pairs hpossible ht) ks
  have hpaths : pw.iterate OnceOrTwice i = fun t =>
      inner t >>= fun t' => pure (t'.restoreAll (ks.map fun k => (k.text, t k.text))) := by
    funext t
    simp only [PathWalkers.iterate, PathWalkers.shadowed_eq, inner, ks, bind_assoc]
  have houter : (w.shadowed i live).value = ks.map fun k => (k.text, live.get? k.text) := by
    rw [value_shadowed, hw.tokensOf]
  have hkept := hinner.keep (fun l => l.restoreAll (ks.map fun k => (k.text, live.get? k.text)))
    (fun t t' => t'.restoreAll (ks.map fun k => (k.text, t k.text))) hrestored
  rw [bind_assoc] at hkept
  rw [hpaths]
  refine .after (edges_shadowed hw.silent i live) ?_
  rw [houter]
  exact hkept

theorem loop (hw : w.RealisedBy account pw) (l : Loop) (h : Realises V live) :
    (w.loop 2 l live).RealisedBy account (among V >>= pw.loop OnceOrTwice l) Realises := by
  have hpossible := possible_rounds (hw.total.visitAll l.repeated)
  have hpaths : pw.loop OnceOrTwice l = fun t => pw.visitAll l.setup t >>= fun t =>
      (Paths.choose OnceOrTwice >>= fun n =>
        PathWalkers.repeated (pw.visitAll l.repeated) n t) >>= pw.visitAll l.tail := by
    funext t
    simp only [PathWalkers.loop, bind_assoc]
  rw [hpaths]
  refine (hw.visitAll l.setup h).andThen
    (fun t => (hpossible t).bind (hw.total.visitAll l.tail)) fun U l' hU => ?_
  exact (realised_repeated (hw.effective.visitAll l.repeated) (hw.total.visitAll l.repeated)
    (hw.visitAll l.repeated) hU).andThen (hw.total.visitAll l.tail)
      fun _ _ => hw.visitAll l.tail

theorem bindParameters (hw : w.RealisedBy account pw) (qs : List Parameter) (h : Realises V live) :
    (w.bindParameters qs live).RealisedBy account (among V >>= pw.bindParameters qs) Realises := by
  induction qs generalizing V live with
  | nil => exact .stay rfl h
  | cons q qs ih =>
    refine (hw.bind ⟨.declaration, [q.name], q.fallback.toList⟩ h).andThen
      (fun u => hw.total.bindParameters qs u.1) fun U r hU => ?_
    have hrest := ih hU.1
    rw [Paths.among_image_bind] at hrest
    exact hrest

/-- The scope of a definition is read from nothing on every path. -/
theorem define (hw : w.RealisedBy account pw) (d : Definition) (h : Realises V live) :
    (w.define d live).RealisedBy account (among V >>= pw.define d) Realises := by
  let ks := d.name.toList.flatMap pw.targets
  let scope : Paths Trail := pw.bindParameters d.parameters .empty >>= pw.visitAll d.body
  have hpossible : scope.Possible :=
    (hw.total.bindParameters d.parameters .empty).bind (hw.total.visitAll d.body)
  -- only the edges of the scope count, and each trail before it may bring them up
  have hscope : (w.bindParameters d.parameters .empty >>= w.visitAll d.body).RealisedBy account
      (among V >>= fun _ => scope) fun _ _ => True := by
    have hread := (hw.bindParameters d.parameters .empty).andThen (hw.total.visitAll d.body)
      fun _ _ => hw.visitAll d.body
    refine ⟨trivial, fun e he x hx haccount => ?_⟩
    obtain ⟨r, hr, hdraws⟩ := hread.edges e he x hx haccount
    obtain ⟨_, rfl, hr⟩ := Paths.mem_among_bind.mp hr
    obtain ⟨t, ht⟩ := h.nonempty
    exact ⟨r, Paths.mem_among_bind.mpr ⟨t, ht, hr⟩, hdraws⟩
  have hbound : Realises ((fun q => q.1.bindAll ks) '' Paths.pairs V fun _ => scope)
      (live.bindAll ks) := by
    have hall := h.bindAll ks
    rw [← Paths.fst_image_pairs (fun _ => hpossible) V, Set.image_image] at hall
    exact hall
  have hpaths : pw.define d = fun t => scope >>= fun _ => pure (t.bindAll ks) := by
    funext t
    simp only [PathWalkers.define, scope, ks, bind_assoc]
  rw [hpaths]
  refine .after (edges_allTargets hw.silent d.name.toList) ?_
  rw [value_allTargets, hw.tokensOf]
  have hkept := hscope.keep (fun _ => live.bindAll ks) (fun t _ => t.bindAll ks) hbound
  rw [bind_assoc] at hkept
  exact hkept

theorem visitPattern (hw : w.RealisedBy account pw) (pattern : Pattern) (p : Place)
    (h : Realises V live) :
    (w.visitPattern 2 pattern p live).RealisedBy account
      (among V >>= pw.visitPattern OnceOrTwice pattern p) Realises := by
  cases pattern with
  | binding b => exact (hw.bind b h).andThen (fun _ => .pure _) fun _ _ hU => .pure rfl hU.1
  | update operand =>
    exact (hw.update operand h).andThen (fun _ => .pure _) fun _ _ hU => .pure rfl hU.1
  | branch b => exact hw.branch b h
  | iteration i => exact hw.iterate i h
  | loop l => exact hw.loop l h
  | definition d => exact hw.define d h
  | sequence first rest => exact hw.visitAll (first ++ rest) h
  | plain => exact hw.visitAll p.children h

theorem resolvePattern (hw : w.RealisedBy account pw) (pattern : Pattern) (p : Place)
    (h : Realises V live) :
    (w.resolvePattern 2 pattern p live).RealisedBy account
      (among V >>= pw.resolvePattern OnceOrTwice pattern p) ResolvedAs := by
  have hnone : ∀ {U : Set Trail} {l : LiveDefs}, Realises U l →
      ResolvedAs ((fun t => (t, [])) '' U) (l, []) := fun hU =>
    ⟨hU.answer [], List.forall_mem_nil _⟩
  have hdefined : ∀ {U : Set (Trail × List Token)} {r : LiveDefs × List Token}, DefinedAs U r →
      ResolvedAs ((fun u => (u.1, u.2.map fun k => ⟨k.source, true⟩)) '' U)
        (r.1, r.2.map Token.source) := by
    intro U r hU
    refine ⟨?_, fun x hx => ?_⟩
    · rw [Set.image_image]
      exact hU.1
    · obtain ⟨k, hk, rfl⟩ := List.mem_map.mp hx
      obtain ⟨_, u, hu, rfl⟩ := hU.1.nonempty
      refine ⟨_, ⟨u, hu, rfl⟩, ⟨k.source, true⟩, ?_, rfl⟩
      exact List.mem_map.mpr ⟨k, (hU.2 u hu).symm ▸ hk, rfl⟩
  cases pattern with
  | binding b =>
    exact (hw.bind b h).andThen (fun _ => .pure _) fun _ _ hU => .pure rfl (hdefined hU)
  | update operand =>
    exact (hw.update operand h).andThen (fun _ => .pure _) fun _ _ hU => .pure rfl (hdefined hU)
  | iteration i =>
    exact (hw.iterate i h).andThen (fun _ => .pure _) fun _ _ hU => .pure rfl (hnone hU)
  | definition d =>
    exact (hw.define d h).andThen (fun _ => .pure _) fun _ _ hU => .pure rfl (hnone hU)
  | sequence first rest => exact hw.resolveAll (first ++ rest) h
  | branch | loop | plain => exact hw.resolveAll p.children h

end Walkers.RealisedBy

end TokenFlow
