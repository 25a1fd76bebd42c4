import TokenFlow.Analysis.Graph
import TokenFlow.Proofs.WalkEffects
import TokenFlow.Proofs.WalksWithin

/-!
# Two passes over a loop are enough

A loop is read twice.  `Setup.graph_passes` shows that reading every loop of a tree any
larger number of times gives the same graph: the same edges in the same order, the same
live definitions, the same degradations.

One reading of a loop's body already leaves the live definitions where every further
one leaves them, because a walk is idempotent on them (`Transfers.apply_apply`).  From
the second reading on, the body is therefore read from the same definitions and brings
up the same edges, and edges that are repeated leave no trace in what is folded
(`Edge.fold_append_of_subset`).  This is `agrees_rounds`.  A loop inside a loop is read
more often too; but by then both readings of it agree (`Traced.Agrees`), and agreement
is kept by everything a walk does.
-/
namespace TokenFlow

/-! ## Lists without repetitions -/

theorem eraseDups_filter {α : Type} [BEq α] [LawfulBEq α] (p : α → Bool) (xs : List α) :
    (xs.filter p).eraseDups = xs.eraseDups.filter p := by
  induction hn : xs.length using Nat.strongRecOn generalizing xs with
  | ind n ih =>
    cases xs with
    | nil => rfl
    | cons x xs =>
      have hlt : (xs.filter fun y => !y == x).length < n := by
        have := List.length_filter_le (fun y => !y == x) xs
        rw [List.length_cons] at hn
        omega
      rw [List.eraseDups_cons]
      -- the first element is dropped on both sides or kept on both
      by_cases hx : p x = true
      · rw [List.filter_cons_of_pos hx, List.filter_cons_of_pos hx, List.eraseDups_cons,
          ← ih _ hlt _ rfl, List.filter_filter, List.filter_filter]
        simp only [Bool.and_comm]
      · have hsame : xs.filter p = (xs.filter fun y => !y == x).filter p := by
          rw [List.filter_filter]
          refine List.filter_congr fun y _ => ?_
          by_cases hy : y = x
          · subst hy
            simpa using hx
          · simp [hy]
        rw [List.filter_cons_of_neg hx, List.filter_cons_of_neg hx, ← ih _ hlt _ rfl, hsame]

theorem eraseDups_append_congr {α : Type} [BEq α] [LawfulBEq α] {xs xs' ys ys' : List α}
    (hx : xs.eraseDups = xs'.eraseDups) (hy : ys.eraseDups = ys'.eraseDups) :
    (xs ++ ys).eraseDups = (xs' ++ ys').eraseDups := by
  have hmem : ∀ y, xs.elem y = xs'.elem y := fun y => by
    rw [Bool.eq_iff_iff, List.elem_iff, List.elem_iff, ← List.mem_eraseDups, hx, List.mem_eraseDups]
  rw [List.eraseDups_append, List.eraseDups_append, hx, List.removeAll, List.removeAll,
    eraseDups_filter, eraseDups_filter, hy]
  simp only [hmem]

theorem eraseDups_append_of_subset {α : Type} [BEq α] [LawfulBEq α] {xs ys : List α}
    (h : ys ⊆ xs) : (xs ++ ys).eraseDups = xs.eraseDups := by
  have hnil : ys.removeAll xs = [] :=
    List.filter_eq_nil_iff.mpr fun y hy => by simpa using h hy
  rw [List.eraseDups_append, hnil, List.eraseDups_nil, List.append_nil]

/-! ## Agreement -/

/-- The same value, which meets a condition, the same edges, and the same degradations
but for repetitions. -/
structure Traced.Agrees {α : Type} (value : α → Prop) (x y : Traced α) : Prop where
  meets : value x.value
  value : x.value = y.value
  edges : x.edges = y.edges
  degradations : x.degradations.eraseDups = y.degradations.eraseDups

namespace Traced.Agrees

variable {α β : Type} {Q : α → Prop} {R : β → Prop}

theorem refl {x : Traced α} (h : Q x.value) : Agrees Q x x :=
  ⟨h, rfl, rfl, rfl⟩

theorem trans {x y z : Traced α} (hxy : Agrees Q x y) (hyz : Agrees Q y z) : Agrees Q x z :=
  ⟨hxy.meets, hxy.value.trans hyz.value, hxy.edges.trans hyz.edges,
    hxy.degradations.trans hyz.degradations⟩

theorem bind {x y : Traced α} {f g : α → Traced β} (hxy : Agrees Q x y)
    (hfg : ∀ a, Q a → Agrees R (f a) (g a)) : Agrees R (x >>= f) (y >>= g) := by
  obtain ⟨hmeets, hvalue, hedges, hdegradations⟩ := hfg x.value hxy.meets
  rw [hxy.value] at hvalue hedges hdegradations
  refine ⟨hmeets, ?_, ?_, ?_⟩
  · rw [value_bind, value_bind, ← hvalue, hxy.value]
  · rw [edges_bind, edges_bind, ← hedges, hxy.value, hxy.edges]
  · rw [degradations_bind, degradations_bind, hxy.value]
    exact eraseDups_append_congr hxy.degradations hdegradations

/-- The same is done before. -/
theorem after {x : Traced α} {f g : α → Traced β} (hfg : ∀ a, Agrees R (f a) (g a)) :
    Agrees R (x >>= f) (x >>= g) :=
  bind (Q := fun _ => True) (.refl trivial) fun a _ => hfg a

/-- Agreement on a value that meets another condition. -/
theorem of_meets {Q' : α → Prop} {x y : Traced α} (hxy : Agrees Q x y) (h : Q' x.value) :
    Agrees Q' x y :=
  { hxy with meets := h }

theorem mapEdges {x y : Traced α} (hxy : Agrees Q x y) (f : List Edge → List Edge) :
    Agrees Q (x.mapEdges f) (y.mapEdges f) :=
  ⟨hxy.meets, hxy.value, congrArg f hxy.edges, hxy.degradations⟩

end Traced.Agrees

/-! ## Rounds -/

section Rounds

variable {round : LiveDefs → Traced LiveDefs} {live : LiveDefs}

/-- Rounds that change nothing bring up the same over and over. -/
theorem edges_rounds_of_value_eq (h : (round live).value = live) (n : Nat) :
    (Walkers.rounds round n live).edges = (List.replicate n (round live).edges).flatten ∧
      (Walkers.rounds round n live).degradations =
        (List.replicate n (round live).degradations).flatten := by
  induction n with
  | zero => exact ⟨rfl, rfl⟩
  | succ n ih =>
    rw [List.replicate_succ, List.replicate_succ, List.flatten_cons, List.flatten_cons,
      ← ih.1, ← ih.2]
    show (round live).edges ++ (Walkers.rounds round n (round live).value).edges = _ ∧
      (round live).degradations ++ (Walkers.rounds round n (round live).value).degradations = _
    rw [h]
    exact ⟨rfl, rfl⟩

theorem flatten_replicate_subset {α : Type} (n : Nat) (xs : List α) :
    (List.replicate n xs).flatten ⊆ xs := by
  intro x hx
  obtain ⟨ys, hys, hx⟩ := List.mem_flatten.mp hx
  rwa [List.eq_of_mem_replicate hys] at hx

/-- **Two rounds bring up all that more rounds do.** -/
theorem agrees_rounds (heffect : Transfers fun live => (round live).value)
    (hcanonical : ∀ live, ∀ e ∈ (round live).edges, e.Canonical) (h : live.Ascending) (n : Nat) :
    Traced.Agrees LiveDefs.Ascending ((Walkers.rounds round (n + 2) live).mapEdges Edge.fold)
      ((Walkers.rounds round 2 live).mapEdges Edge.fold) := by
  let second := (round live).value
  have hsettled : (round second).value = second := heffect.apply_apply h
  have hmore := edges_rounds_of_value_eq hsettled
  have hunfold : ∀ m, Walkers.rounds round (m + 2) live =
      round live >>= fun _ => round second >>= fun _ => Walkers.rounds round m second := fun m => by
    calc Walkers.rounds round (m + 2) live
      _ = round live >>= fun _ =>
          round second >>= fun _ => Walkers.rounds round m (round second).value := rfl
      _ = _ := by rw [hsettled]
  -- each further round is the second one again: all it brings up is there already
  refine ⟨?_, ?_, ?_, ?_⟩
  · exact ((heffect.rounds (n + 2)).ascending h)
  · show (Walkers.rounds round (n + 1 + 1) live).value = (Walkers.rounds round (1 + 1) live).value
    rw [heffect.value_rounds h, heffect.value_rounds h]
  · rw [hunfold n, hunfold 0]
    show Edge.fold ((round live).edges ++ ((round second).edges ++ _)) =
      Edge.fold ((round live).edges ++ ((round second).edges ++ []))
    rw [List.append_nil, ← List.append_assoc, (hmore n).1]
    refine Edge.fold_append_of_subset ?_ ?_
    · exact List.forall_mem_append.mpr ⟨hcanonical live, hcanonical second⟩
    · exact fun e he => List.mem_append_right _ (flatten_replicate_subset n _ he)
  · rw [hunfold n, hunfold 0]
    show List.eraseDups ((round live).degradations ++ ((round second).degradations ++ _)) =
      List.eraseDups ((round live).degradations ++ ((round second).degradations ++ []))
    rw [List.append_nil, ← List.append_assoc, (hmore n).2]
    exact eraseDups_append_of_subset fun d hd =>
      List.mem_append_right _ (flatten_replicate_subset n _ hd)

end Rounds

/-! ## Walks with different numbers of passes -/

namespace Walkers

/-- Two walkers agree on ascending live definitions, and on operands altogether. -/
structure Alike (w w' : Walkers) : Prop where
  visit : ∀ p {live}, live.Ascending → (w.visit p live).Agrees LiveDefs.Ascending (w'.visit p live)
  resolve : ∀ p {live}, live.Ascending →
    (w.resolve p live).Agrees (fun r => r.1.Ascending) (w'.resolve p live)
  targets : w.targets = w'.targets
  isReference : w.isReference = w'.isReference

namespace Alike

open Traced (Agrees)

variable {w w' : Walkers} (hw : w.Alike w') {live : LiveDefs}
include hw

theorem visitAll (ps : List Place) (h : live.Ascending) :
    (w.visitAll ps live).Agrees LiveDefs.Ascending (w'.visitAll ps live) := by
  induction ps generalizing live with
  | nil => exact .refl h
  | cons p ps ih => exact (hw.visit p h).bind fun _ hlive => ih hlive

theorem resolveAll (ps : List Place) (h : live.Ascending) :
    (w.resolveAll ps live).Agrees (fun r => r.1.Ascending) (w'.resolveAll ps live) := by
  induction ps generalizing live with
  | nil => exact .refl h
  | cons p ps ih =>
    exact (hw.resolve p h).bind fun _ hr => (ih hr).bind fun _ hr' => .refl hr'

theorem readValues (ps : List Place) (h : live.Ascending) :
    (w.readValues ps live).Agrees (fun r => r.1.Ascending) (w'.readValues ps live) := by
  induction ps generalizing live with
  | nil => exact .refl h
  | cons p ps ih =>
    refine (hw.resolve p h).bind fun _ hr => (ih hr).bind fun _ hr' => ?_
    rw [hw.isReference]
    exact .refl hr'

theorem bind (b : Binding) (h : live.Ascending) :
    (w.bind b live).Agrees (fun r => r.1.Ascending) (w'.bind b live) := by
  refine (hw.readValues b.values h).bind fun r hr => ?_
  obtain ⟨live, values⟩ := r
  simp only [defineTargets_congr hw.targets]
  exact .after fun ts => .refl ((Transfers.bindAll ts).ascending hr)

theorem update (operand : Place) (h : live.Ascending) :
    (w.update operand live).Agrees (fun r => r.1.Ascending) (w'.update operand live) := by
  rw [Walkers.update, Walkers.update, hw.targets]
  refine .after fun ts =>
    Agrees.bind (Q := LiveDefs.Ascending) (.refl ?_) fun _ hlive => .refl hlive
  rw [value_updateTokens]
  exact (Transfers.bindAll ts).ascending h

theorem armOutcomes (arms : List (List Place)) (h : live.Ascending) :
    (w.armOutcomes arms live).Agrees (fun _ => True) (w'.armOutcomes arms live) := by
  induction arms with
  | nil => exact .refl trivial
  | cons arm arms ih =>
    exact (hw.visitAll arm h).bind fun _ _ => ih.bind fun _ _ => .refl trivial

theorem branch (b : Branch) (h : live.Ascending) :
    (w.branch b live).Agrees LiveDefs.Ascending (w'.branch b live) :=
  (hw.visitAll b.condition h).bind fun _ hlive => (hw.armOutcomes b.arms hlive).bind fun _ _ =>
    .refl (LiveDefs.ascending_merge _)

theorem round (i : Iteration) (h : live.Ascending) :
    (w.round i live).Agrees LiveDefs.Ascending (w'.round i live) := by
  refine (hw.resolveAll i.iterable.toList h).bind fun _ hr => ?_
  rw [allTargets_congr hw.targets]
  exact .after fun ts => .after fun _ =>
    hw.visitAll i.body ((Transfers.bindAll ts).ascending hr)

omit hw in
theorem rounds {round round' : LiveDefs → Traced LiveDefs}
    (hround : ∀ {live}, live.Ascending → (round live).Agrees LiveDefs.Ascending (round' live))
    (n : Nat) (h : live.Ascending) :
    (Walkers.rounds round n live).Agrees LiveDefs.Ascending (Walkers.rounds round' n live) := by
  induction n generalizing live with
  | zero => exact .refl h
  | succ n ih => exact (hround h).bind fun _ hlive => ih hlive

omit hw in
/-- Rounds that agree do so whatever their numbers are, from two on. -/
theorem rounds_passes (round : Walkers → LiveDefs → Traced LiveDefs)
    (hround : ∀ {live}, live.Ascending → (round w live).Agrees LiveDefs.Ascending (round w' live))
    (heffect : Transfers fun live => (round w live).value)
    (hcanonical : ∀ live, ∀ e ∈ (round w live).edges, e.Canonical) {k : Nat} (hk : 2 ≤ k)
    (h : live.Ascending) :
    ((Walkers.rounds (round w) k live).mapEdges Edge.fold).Agrees LiveDefs.Ascending
      ((Walkers.rounds (round w') 2 live).mapEdges Edge.fold) := by
  obtain ⟨n, rfl⟩ := Nat.exists_eq_add_of_le' hk
  -- first drop the further rounds of the one walk, then compare two rounds with two
  exact (agrees_rounds heffect hcanonical h n).trans ((rounds hround 2 h).mapEdges _)

theorem bindParameters (qs : List Parameter) (h : live.Ascending) :
    (w.bindParameters qs live).Agrees LiveDefs.Ascending (w'.bindParameters qs live) := by
  induction qs generalizing live with
  | nil => exact .refl h
  | cons q qs ih => exact (hw.bind _ h).bind fun _ hr => ih hr

theorem define (d : Definition) (h : live.Ascending) :
    (w.define d live).Agrees LiveDefs.Ascending (w'.define d live) := by
  rw [Walkers.define, Walkers.define, allTargets_congr hw.targets]
  refine .after fun names =>
    (hw.bindParameters d.parameters LiveDefs.ascending_empty).bind fun _ hscope =>
      (hw.visitAll d.body hscope).bind fun _ _ => .refl ?_
  exact (Transfers.bindAll names).ascending h

/-! ### Loops -/

variable {s : Setup} {k : Nat} (hk : 2 ≤ k) (heffect : w.Effective) (hkeeps : w.Keeps s.anything)
include hk heffect hkeeps

theorem iterate (i : Iteration) (h : live.Ascending) :
    (w.iterate k i live).Agrees LiveDefs.Ascending (w'.iterate 2 i live) := by
  have hcanonical : ∀ live, ∀ e ∈ (w.round i live).edges, e.Canonical := fun live =>
    Setup.canonical_of_traced (hkeeps.round (Setup.evaluated_anything _)
      (Setup.evaluated_anything _) (Setup.evaluated_anything _) (Setup.live_anything live))
  refine Agrees.of_meets (Q := fun _ => True) ?_ ((heffect.iterate k i).ascending h)
  rw [Walkers.iterate, Walkers.iterate, shadowed_congr hw.targets]
  refine .after fun outer =>
    (rounds_passes (fun w => w.round i) (hw.round i) (heffect.round i) hcanonical hk h).bind
      fun _ hlive => (hw.visitAll i.tail hlive).bind fun _ _ => .refl trivial

theorem loop (l : Loop) (h : live.Ascending) :
    (w.loop k l live).Agrees LiveDefs.Ascending (w'.loop 2 l live) := by
  have hcanonical : ∀ live, ∀ e ∈ (w.visitAll l.repeated live).edges, e.Canonical := fun live =>
    Setup.canonical_of_traced (hkeeps.visitAll (Setup.evaluated_anything _)
      (Setup.live_anything live))
  exact (hw.visitAll l.setup h).bind fun _ hlive =>
    (rounds_passes (fun w => w.visitAll l.repeated) (hw.visitAll l.repeated)
      (heffect.visitAll l.repeated) hcanonical hk hlive).bind
      fun _ hlive => hw.visitAll l.tail hlive

theorem visitPattern (pattern : Pattern) (p : Place) (h : live.Ascending) :
    (w.visitPattern k pattern p live).Agrees LiveDefs.Ascending
      (w'.visitPattern 2 pattern p live) := by
  cases pattern with
  | binding b => exact (hw.bind b h).bind fun _ hr => .refl hr
  | update operand => exact (hw.update operand h).bind fun _ hr => .refl hr
  | branch b => exact hw.branch b h
  | iteration i => exact hw.iterate hk heffect hkeeps i h
  | loop l => exact hw.loop hk heffect hkeeps l h
  | definition d => exact hw.define d h
  | sequence first rest => exact hw.visitAll (first ++ rest) h
  | plain => exact hw.visitAll p.children h

theorem resolvePattern (pattern : Pattern) (p : Place) (h : live.Ascending) :
    (w.resolvePattern k pattern p live).Agrees (fun r => r.1.Ascending)
      (w'.resolvePattern 2 pattern p live) := by
  cases pattern with
  | binding b => exact (hw.bind b h).bind fun _ hr => .refl hr
  | update operand => exact (hw.update operand h).bind fun _ hr => .refl hr
  | iteration i => exact (hw.iterate hk heffect hkeeps i h).bind fun _ hlive => .refl hlive
  | definition d => exact (hw.define d h).bind fun _ hlive => .refl hlive
  | sequence first rest => exact hw.resolveAll (first ++ rest) h
  | branch | loop | plain => exact hw.resolveAll p.children h

end Alike

end Walkers

namespace Setup

variable (s : Setup) (k : Nat)

/-- The setup in which every loop is read so many times. -/
def withPasses : Setup := { s with passes := k }

theorem targets_withPasses (budget : Nat) : (s.withPasses k).targets budget = s.targets budget := by
  induction budget with
  | zero => rfl
  | succ budget ih =>
    funext p
    rw [targets, targets, ih]
    rfl

variable {s k} {w w' : Walkers} {live : LiveDefs}

theorem agrees_visitStep (hk : 2 ≤ k) (hw : w.Alike w') (heffect : w.Effective)
    (hkeeps : w.Keeps s.anything) (p : Place) (h : live.Ascending) :
    ((s.withPasses k).visitStep w p live).Agrees LiveDefs.Ascending
      ((s.withPasses 2).visitStep w' p live) := by
  cases s.language.reads p with
  | comment hcomment =>
    rw [visitStep_of_comment (s := s.withPasses k) hcomment,
      visitStep_of_comment (s := s.withPasses 2) hcomment]
    exact .refl h
  | token hcomment htoken =>
    rw [visitStep_of_token (s := s.withPasses k) hcomment htoken,
      visitStep_of_token (s := s.withPasses 2) hcomment htoken]
    exact .refl ((s.transfers_readToken p).ascending h)
  | construct hcomment htoken =>
    rw [visitStep_of_construct (s := s.withPasses k) hcomment htoken,
      visitStep_of_construct (s := s.withPasses 2) hcomment htoken]
    exact hw.visitPattern hk heffect hkeeps _ p h

theorem agrees_resolveStep (hk : 2 ≤ k) (hw : w.Alike w') (heffect : w.Effective)
    (hkeeps : w.Keeps s.anything) (p : Place) (h : live.Ascending) :
    ((s.withPasses k).resolveStep w p live).Agrees (fun r => r.1.Ascending)
      ((s.withPasses 2).resolveStep w' p live) := by
  cases s.language.reads p with
  | comment hcomment =>
    rw [resolveStep_of_comment (s := s.withPasses k) hcomment,
      resolveStep_of_comment (s := s.withPasses 2) hcomment]
    exact .refl h
  | token hcomment htoken =>
    rw [resolveStep_of_token (s := s.withPasses k) hcomment htoken,
      resolveStep_of_token (s := s.withPasses 2) hcomment htoken]
    exact .refl ((s.transfers_resolveToken p).ascending h)
  | construct hcomment htoken =>
    rw [resolveStep_of_construct (s := s.withPasses k) hcomment htoken,
      resolveStep_of_construct (s := s.withPasses 2) hcomment htoken]
    exact hw.resolvePattern hk heffect hkeeps _ p h

/-- With any number of passes from two on, both walks agree with those of two passes. -/
theorem alike_walkers (hk : 2 ≤ k) (budget : Nat) :
    ((s.withPasses k).walkers budget).Alike ((s.withPasses 2).walkers budget) := by
  have htargets : ∀ budget, (s.withPasses k).targets budget = (s.withPasses 2).targets budget :=
    fun budget => (s.targets_withPasses k budget).trans (s.targets_withPasses 2 budget).symm
  have hreference : ∀ budget,
      (s.withPasses k).isReference budget = (s.withPasses 2).isReference budget :=
    isReference_congr rfl
  induction budget with
  | zero => exact ⟨fun _ _ h => .refl h, fun _ _ h => .refl h, htargets 0, hreference 0⟩
  | succ budget ih =>
    have heffect := (s.withPasses k).effective_walkers budget
    have hkeeps := keeps_walkers (v := (s.withPasses k).anything) budget
    exact ⟨fun p _ h => agrees_visitStep hk ih heffect hkeeps p h,
      fun p _ h => agrees_resolveStep hk ih heffect hkeeps p h, htargets _, hreference _⟩

/-- **Two passes over every loop reach the fixed point.**  More passes over every loop of
a tree, nested loops included, give the very same graph: the same edges in the same order
with the same sources, the same live definitions, and the same degradations. -/
theorem graph_passes (s : Setup) (root : Place) {live : LiveDefs} (h : live.Ascending) {k : Nat}
    (hk : 2 ≤ k) : (s.withPasses k).graph root live = (s.withPasses 2).graph root live := by
  have hagrees := (alike_walkers (s := s) hk s.budget).visit root h
  show Graph.mk _ _ _ = Graph.mk _ _ _
  exact congr (congrArg₂ Graph.mk hagrees.edges hagrees.value) hagrees.degradations

/-- A loop that draws from its own second reading gains nothing by a third. -/
theorem graph_passes_copyLoop :
    CopyLoop.seed.Ascending ∧ 2 ≤ 3 ∧
      (CopyLoop.setup.withPasses 3).graph CopyLoop.root CopyLoop.seed =
        (CopyLoop.setup.withPasses 2).graph CopyLoop.root CopyLoop.seed :=
  ⟨CopyLoop.ascending_seed, by decide,
    graph_passes CopyLoop.setup CopyLoop.root CopyLoop.ascending_seed (by decide)⟩

end Setup

end TokenFlow
