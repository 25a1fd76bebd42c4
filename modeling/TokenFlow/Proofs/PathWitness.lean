import TokenFlow.Proofs.BesideReads
import TokenFlow.Proofs.RealisedWalks

/-!
# Every source is drawn on some path

The graph makes nothing up: each source of each edge is drawn on a path that goes through
every loop once or twice (`Setup.exists_path_run_of_mem_graph`).

One source is drawn on no path: a name that is read as a statement and is one of several
live definitions of itself draws from itself in the graph, but where it is the only one it
says nothing.  Its edges are told from others by `Setup.edgesBesideReads`.
-/
namespace TokenFlow

open Paths (among)

namespace Setup

variable (s : Setup) {V : Set Trail} {live : LiveDefs}

/-! ## Tokens -/

theorem realised_readToken (p : Place) (h : Realises V live) :
    (s.readToken p live).RealisedBy (fun index x => x.index ≠ index)
      (among V >>= s.pathReadToken p) Realises := by
  have hvalue := s.value_readToken p live
  have hedges := s.edges_readToken p live
  cases hleaf : (s.leaf p).value with
  | literal k | silent =>
    have hpaths : s.pathReadToken p = pure := by
      funext t
      rw [pathReadToken, hleaf]
    rw [hleaf] at hvalue hedges
    rw [hpaths]
    exact .stay hedges (hvalue ▸ h)
  | name k =>
    have hpaths : s.pathReadToken p = fun t =>
        Paths.emit (t.reads k) >>= fun _ => pure (t.sight k) := by
      funext t
      rw [pathReadToken, hleaf]
    rw [hleaf] at hvalue hedges
    have hread : (Traced.emit (live.reads k) >>= fun _ => pure (live.sight k)).RealisedBy
        (fun index x => x.index ≠ index)
        (among V >>= fun t => Paths.emit (t.reads k) >>= fun _ => pure (t.sight k)) Realises :=
      .emit (fun _ => .pure _) (fun e he x hx hother => h.reads k he hx hother)
        (.stay rfl (h.sight k))
    rw [hpaths]
    exact hread.congr hvalue (hedges.trans (List.append_nil _).symm)

theorem realised_resolveToken (account : Nat → Source → Prop) (p : Place) (h : Realises V live) :
    (s.resolveToken p live).RealisedBy account (among V >>= s.pathResolveToken p) ResolvedAs := by
  have hvalue := s.value_resolveToken p live
  cases hleaf : (s.leaf p).value with
  | silent =>
    have hpaths : s.pathResolveToken p = fun t => pure (t, []) := by
      funext t
      rw [pathResolveToken, hleaf]
    rw [hleaf] at hvalue
    rw [hpaths]
    exact .pure (s.edges_resolveToken p live) (hvalue ▸ ⟨h.answer [], List.forall_mem_nil _⟩)
  | literal k =>
    have hpaths : s.pathResolveToken p = fun t => pure (t, [⟨k.source, true⟩]) := by
      funext t
      rw [pathResolveToken, hleaf]
    rw [hleaf] at hvalue
    rw [hpaths]
    refine .pure (s.edges_resolveToken p live) (hvalue ▸ ⟨h.answer _, fun x hx => ?_⟩)
    obtain ⟨t, ht⟩ := h.nonempty
    exact ⟨_, ⟨t, ht, rfl⟩, _, List.mem_cons_self, (List.mem_singleton.mp hx).symm⟩
  | name k =>
    have hpaths : s.pathResolveToken p = fun t => pure (t.sight k, t.sources k) := by
      funext t
      rw [pathResolveToken, hleaf]
    rw [hleaf] at hvalue
    rw [hpaths]
    refine .pure (s.edges_resolveToken p live) (hvalue ▸ ⟨?_, fun x hx => ?_⟩)
    · rw [Set.image_image]
      exact h.sight k
    · obtain ⟨t, ht, y, hy, rfl⟩ := h.sources k hx
      exact ⟨_, ⟨t, ht, rfl⟩, y, hy, rfl⟩

/-! ## Both walks -/

/-- What is kept of the edges of a read is to be accounted for only where a token draws
from another one. -/
def ReadsOthers (reads : List Edge → List Edge) (account : Nat → Source → Prop) : Prop :=
  ∀ es, ∀ e ∈ reads es, e ∈ es ∧ ∀ x, account e.index x → x.index ≠ e.index

variable {s} {reads : List Edge → List Edge} {account : Nat → Source → Prop} {w : Walkers}
  {pw : PathWalkers}

theorem realised_mapReads (hreads : ReadsOthers reads account) {x : Traced LiveDefs}
    {paths : Paths Trail} (hx : x.RealisedBy (fun index x => x.index ≠ index) paths Realises) :
    (x.mapEdges reads).RealisedBy account paths Realises := by
  refine ⟨hx.value, fun e he y hy haccount => ?_⟩
  obtain ⟨hmem, hother⟩ := hreads _ e he
  exact hx.edges e hmem y hy (hother y haccount)

theorem realised_visitStepBy (hpasses : s.passes = 2) (hreads : ReadsOthers reads account)
    (hw : w.RealisedBy account pw) (p : Place) (h : Realises V live) :
    (s.visitStepBy reads w p live).RealisedBy account
      (among V >>= s.pathVisitStep OnceOrTwice pw p) Realises := by
  have hpaths : ∀ {f : Trail → Paths Trail}, (∀ t, s.pathVisitStep OnceOrTwice pw p t = f t) →
      s.pathVisitStep OnceOrTwice pw p = f := funext
  unfold visitStepBy
  cases s.language.reads p with
  | comment hcomment =>
    rw [hpaths (pathVisitStep_of_comment _ hcomment), visitStep_of_comment hcomment]
    split
    · exact realised_mapReads hreads (.stay rfl h)
    · exact .stay rfl h
  | token hcomment htoken =>
    rw [hpaths (pathVisitStep_of_token _ hcomment htoken), visitStep_of_token hcomment htoken,
      if_pos htoken]
    exact realised_mapReads hreads (s.realised_readToken p h)
  | construct hcomment htoken =>
    rw [hpaths (pathVisitStep_of_construct _ hcomment htoken),
      visitStep_of_construct hcomment htoken, if_neg (Bool.eq_false_iff.mp htoken), hpasses]
    exact hw.visitPattern _ p h

theorem realised_resolveStep (hpasses : s.passes = 2) (hw : w.RealisedBy account pw) (p : Place)
    (h : Realises V live) :
    (s.resolveStep w p live).RealisedBy account
      (among V >>= s.pathResolveStep OnceOrTwice pw p) ResolvedAs := by
  have hpaths : ∀ {f}, (∀ t, s.pathResolveStep OnceOrTwice pw p t = f t) →
      s.pathResolveStep OnceOrTwice pw p = f := funext
  cases s.language.reads p with
  | comment hcomment =>
    rw [hpaths (pathResolveStep_of_comment _ hcomment), resolveStep_of_comment hcomment]
    exact .pure rfl ⟨h.answer [], List.forall_mem_nil _⟩
  | token hcomment htoken =>
    rw [hpaths (pathResolveStep_of_token _ hcomment htoken), resolveStep_of_token hcomment htoken]
    exact s.realised_resolveToken account p h
  | construct hcomment htoken =>
    rw [hpaths (pathResolveStep_of_construct _ hcomment htoken),
      resolveStep_of_construct hcomment htoken, hpasses]
    exact hw.resolvePattern _ p h

/-- The walk is realised by its paths, whatever the budget. -/
theorem realised_walkersBy (hpasses : s.passes = 2) (hreads : ReadsOthers reads account)
    (budget : Nat) :
    (s.walkersBy reads budget).RealisedBy account (s.pathWalkers OnceOrTwice budget) := by
  induction budget with
  | zero =>
    exact ⟨fun _ _ _ h => .stay rfl h,
      fun _ _ _ h => .pure rfl ⟨h.answer [], List.forall_mem_nil _⟩,
      s.total_pathWalkers ⟨1, Or.inl rfl⟩ 0, fun _ => rfl, fun _ => rfl, s.edges_targets 0,
      s.effective_walkersBy reads 0⟩
  | succ budget ih =>
    exact ⟨fun p _ _ => realised_visitStepBy hpasses hreads ih p,
      fun p _ _ => realised_resolveStep hpasses ih p,
      s.total_pathWalkers ⟨1, Or.inl rfl⟩ (budget + 1), fun _ => rfl, fun _ => rfl,
      s.edges_targets (budget + 1), s.effective_walkersBy reads (budget + 1)⟩

theorem exists_path_run_of_mem_visitBy (hpasses : s.passes = 2)
    (hreads : ReadsOthers reads account) (root : Place) {seed : LiveDefs} (hseed : seed.Ascending)
    {e : Edge} (he : e ∈ (s.visitBy reads s.budget root seed).edges) {x : Source}
    (hx : x ∈ e.sources) (haccount : account e.index x) :
    ∃ r ∈ s.pathRuns OnceOrTwice root seed, r.Draws e x := by
  have hwalkers := realised_walkersBy hpasses hreads s.budget
  obtain ⟨r, hr, hdraws⟩ := (hwalkers.visit root (.ofLive hseed)).edges e he x hx haccount
  obtain ⟨_, rfl, hr⟩ := Paths.mem_among_bind.mp hr
  exact ⟨r, hr, hdraws⟩

/-- **The graph makes nothing up.**  Each source of each edge is drawn on some path that
goes through its loops once or twice: by an edge for the same token and relation.  The
token itself as a source of the edge of a name that is read as a statement is left out: a
path on which it is the only definition brings up no edge there.  It is accounted for as
well if some other edge has it. -/
theorem exists_path_run_of_mem_graph (hpasses : s.passes = 2) (root : Place) {seed : LiveDefs}
    (hseed : seed.Ascending) {e : Edge} (he : e ∈ (s.graph root seed).edges) {x : Source}
    (hx : x ∈ e.sources)
    (hread : x.index ≠ e.index ∨
      ∃ e' ∈ s.edgesBesideReads root seed, e'.slot = e.slot ∧ x ∈ e'.sources) :
    ∃ r ∈ s.pathRuns OnceOrTwice root seed, ∃ f ∈ r.edges, f.name = e.name ∧
      f.index = e.index ∧ f.relation = e.relation ∧ ∃ y ∈ f.sources, y.source = x := by
  have hdraws : ∃ r ∈ s.pathRuns OnceOrTwice root seed, r.Draws e x := by
    -- the walk as it is for other tokens, the walk without reads for the token itself
    rcases hread with hother | ⟨e', he', hslot, hx'⟩
    · have hreads : ReadsOthers id fun index x => x.index ≠ index :=
        fun _ _ he => ⟨he, fun _ h => h⟩
      have hid : (s.visitBy id s.budget root seed).edges = (s.graph root seed).edges :=
        congrArg (fun w : Walkers => (w.visit root seed).edges) (s.walkersBy_id s.budget)
      exact exists_path_run_of_mem_visitBy hpasses hreads root hseed (hid ▸ he) hx hother
    · have hreads : ReadsOthers (fun _ => []) fun _ _ => True :=
        fun _ _ he => absurd he List.not_mem_nil
      obtain ⟨r, hr, f, hf, hsame, hdraws⟩ :=
        exists_path_run_of_mem_visitBy hpasses hreads root hseed he' hx' trivial
      exact ⟨r, hr, f, hf, hsame.trans hslot, hdraws⟩
  obtain ⟨r, hr, f, hf, hslot, hdraws⟩ := hdraws
  simp only [Edge.slot, PathEdge.slot, Prod.mk.injEq] at hslot
  exact ⟨r, hr, f, hf, hslot.1, hslot.2.1, hslot.2.2, hdraws⟩

/-- The condition of a loop that copies draws from the copy: the path that shows it goes
through the loop twice. -/
theorem exists_path_run_copyLoop :
    ∃ e ∈ (CopyLoop.setup.graph CopyLoop.root CopyLoop.seed).edges, e.index = 0 ∧
      ⟨"a", 1⟩ ∈ e.sources ∧
      ∃ r ∈ CopyLoop.setup.pathRuns OnceOrTwice CopyLoop.root CopyLoop.seed, ∃ f ∈ r.edges,
        f.name = e.name ∧ f.index = e.index ∧ f.relation = e.relation ∧
          ∃ y ∈ f.sources, y.source = ⟨"a", 1⟩ := by
  let e : Edge := .ofSources "a" 0 .comesFrom [⟨"a", 1⟩, ⟨"a", 8⟩]
  have he : e ∈ (CopyLoop.setup.graph CopyLoop.root CopyLoop.seed).edges := by decide
  have hx : ⟨"a", 1⟩ ∈ e.sources := by decide
  exact ⟨e, he, rfl, hx, exists_path_run_of_mem_graph rfl CopyLoop.root CopyLoop.ascending_seed
    he hx (Or.inl (by decide))⟩

end Setup

end TokenFlow
