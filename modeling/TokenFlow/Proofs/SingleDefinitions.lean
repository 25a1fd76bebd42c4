import TokenFlow.Edge.Assemble
import TokenFlow.Proofs.RepeatedReadings

/-!
# Every token is defined once

The body of a loop is read several times over, and each time its edges are brought up again.
Folding makes one edge of those that define a token in the same way; two ways of defining one
token would stay two edges.  `Setup.nodup_index_of_graph` says that this does not happen: the
edges of a graph define different tokens, if the table names no place twice and no two names
are the same token.  The final list has then nothing to leave out as a repetition.

Each pattern defines once if its parts do (`Walkers.DefineOnce`): the slot of a target is up to
the target and to which of the values are copies, and not to what is live.
-/
namespace TokenFlow

open Place

/-! ## Slots of bindings and updates -/

namespace Binding

/-- How the targets relate to their values depends only on which values are copies. -/
theorem map_relation_pairUp (kind : BindingKind) (targets : List Place)
    {values values' : List (Value Source)}
    (h : values.map (·.isReference) = values'.map (·.isReference)) :
    (pairUp targets values).map (fun x => (x.1, kind.relation x.2)) =
      (pairUp targets values').map fun x => (x.1, kind.relation x.2) := by
  have hlength : values.length = values'.length := by
    simpa using congrArg List.length h
  have hrelations : ∀ vs : List (Value Source), vs.map kind.relation =
      (vs.map (·.isReference)).map fun copies => kind.relation (⟨[], copies⟩ : Value Source) := by
    intro vs
    rw [List.map_map]
    rfl
  have hzip : ∀ vs : List (Value Source),
      (targets.zip vs).map (fun x => (x.1, kind.relation x.2)) =
        targets.zip (vs.map kind.relation) := by
    intro vs
    rw [List.zip_map_right]
    rfl
  have hjoin : kind.relation (Value.join values) = kind.relation (Value.join values') :=
    kind.relation_congr (by rw [isReference_join, isReference_join, h])
  unfold pairUp
  rw [hlength]
  split
  · rw [hzip, hzip, hrelations, hrelations, h]
  · rw [List.map_map, List.map_map]
    exact List.map_congr_left fun target _ => congrArg (target, ·) hjoin

end Binding

namespace Walkers

variable (w : Walkers)

/-- Reading values brings up what reading the parts of one value does. -/
theorem edges_readValues (ps : List Place) (live : LiveDefs) :
    (w.readValues ps live).edges = (w.resolveAll ps live).edges := by
  induction ps generalizing live with
  | nil => rfl
  | cons p ps ih =>
    show _ ++ ((w.readValues ps _).edges ++ []) = _ ++ ((w.resolveAll ps _).edges ++ [])
    rw [ih]

theorem map_isReference_readValues (ps : List Place) (live : LiveDefs) :
    (w.readValues ps live).value.2.map (·.isReference) = ps.map w.isReference := by
  induction ps generalizing live with
  | nil => rfl
  | cons p ps ih => exact congrArg (w.isReference p :: ·) (ih _)

theorem map_index_targetEdges (kind : BindingKind) (live : LiveDefs)
    (pairs : List (Place × Value Source)) :
    (w.targetEdges kind live pairs).map (·.index) =
      (w.tokensOf (pairs.map Prod.fst)).map (·.index) := by
  simp only [targetEdges, tokensOf, List.map_flatMap, List.map_map, List.flatMap_map]
  rfl

/-- The slots that the targets fill depend only on which values are copies. -/
theorem map_slot_targetEdges (kind : BindingKind) (targets : List Place)
    {values values' : List (Value Source)}
    (h : values.map (·.isReference) = values'.map (·.isReference)) (live live' : LiveDefs) :
    (w.targetEdges kind live (Binding.pairUp targets values)).map Edge.slot =
      (w.targetEdges kind live' (Binding.pairUp targets values')).map Edge.slot := by
  have hslots : ∀ live pairs, (w.targetEdges kind live pairs).map Edge.slot =
      (pairs.map fun x => (x.1, kind.relation x.2)).flatMap fun x =>
        (w.targets x.1).value.map fun t => (t.text, t.index, x.2) := by
    intro live pairs
    simp only [targetEdges, List.map_flatMap, List.map_map, List.flatMap_map]
    rfl
  rw [hslots, hslots, Binding.map_relation_pairUp kind targets h]

theorem map_slot_updateTokens (tokens : List Token) (live : LiveDefs) :
    (updateTokens tokens live).edges.map Edge.slot =
      tokens.map fun t => (t.text, t.index, .computedFrom) := by
  induction tokens generalizing live with
  | nil => rfl
  | cons t ts ih =>
    rw [updateTokens_cons, Traced.edges_bind, List.map_append, ih]
    rfl

end Walkers

/-! ## Walks that define once -/

/-- However a place of the tree is read, it defines once, and it assigns to different names. -/
structure Walkers.DefineOnce (w : Walkers) (s : Setup) (root : Place) : Prop where
  visit : ∀ p : Place, p.Within root → s.DefinesOnce [p] fun live => (w.visit p live).edges
  resolve : ∀ p : Place, p.Within root → s.DefinesOnce [p] fun live => (w.resolve p live).edges
  targets : ∀ p : Place, p.Within root →
    s.DifferentNames [p] ((w.targets p).value.map (·.index))
  silent : w.SilentTargets

namespace Walkers.DefineOnce

variable {w : Walkers} {s : Setup} {root p : Place} {ps : List Place} (hw : w.DefineOnce s root)
  (hnames : s.NamesApart root)
include hw hnames

theorem tokensOf (h : root.Scattered ps) :
    s.DifferentNames ps ((w.tokensOf ps).map (·.index)) := by
  induction ps with
  | nil => exact .nil s []
  | cons p ps ih =>
    have hsplit : root.Scattered ([p] ++ ps) := h
    have hp := hw.targets p (h.within p List.mem_cons_self)
    rw [Walkers.tokensOf, List.flatMap_cons, List.map_append]
    exact hp.append hnames hsplit (ih h.tail)

theorem visitAll (h : root.Scattered ps) :
    s.DefinesOnce ps fun live => (w.visitAll ps live).edges := by
  induction ps with
  | nil => exact .nil s []
  | cons p ps ih =>
    have hsplit : root.Scattered ([p] ++ ps) := h
    have hp := hw.visit p (h.within p List.mem_cons_self)
    exact hp.append hnames hsplit ((ih h.tail).comp fun live => (w.visit p live).value)

theorem resolveAll (h : root.Scattered ps) :
    s.DefinesOnce ps fun live => (w.resolveAll ps live).edges := by
  induction ps with
  | nil => exact .nil s []
  | cons p ps ih =>
    have hsplit : root.Scattered ([p] ++ ps) := h
    have hp := hw.resolve p (h.within p List.mem_cons_self)
    have hps := (ih h.tail).comp fun live => (w.resolve p live).value.1
    refine (hp.append hnames hsplit hps).of_eq fun live => ?_
    show _ ++ ((w.resolveAll ps _).edges ++ []) = _
    rw [List.append_nil]

/-- The targets of a binding fill the same slots whatever is live: how a target relates to its
value is up to which of the values are copies. -/
theorem targetEdges (b : Binding) (h : root.Scattered b.targets) :
    s.DefinesOnce b.targets fun live =>
      w.targetEdges b.kind (w.readValues b.values live).value.1
        (Binding.pairUp b.targets (w.readValues b.values live).value.2) := by
  -- what is known of the values before anything is live
  let bare : List (Value Source) := b.values.map fun p => ⟨[], w.isReference p⟩
  have hbare : bare.map (·.isReference) = b.values.map w.isReference := List.map_map
  let slots := (w.targetEdges b.kind .empty (Binding.pairUp b.targets bare)).map Edge.slot
  have hslots : slots.map (·.2.1) = (w.tokensOf b.targets).map (·.index) := by
    have hindex := w.map_index_targetEdges b.kind .empty (Binding.pairUp b.targets bare)
    rw [Binding.map_fst_pairUp] at hindex
    exact List.map_map.trans hindex
  refine .of_slots slots (fun live => ?_) (hslots ▸ hw.tokensOf hnames h)
  have hsame := (w.map_isReference_readValues b.values live).trans hbare.symm
  rw [w.map_slot_targetEdges b.kind b.targets hsame _ .empty]

theorem bind (b : Binding) (h : root.Scattered (b.targets ++ b.values)) :
    s.DefinesOnce (b.targets ++ b.values) fun live => (w.bind b live).edges := by
  have hvalues := hw.resolveAll hnames h.right
  have htargets := hw.targetEdges hnames b h.left
  have hboth := hvalues.append hnames (h.perm List.perm_append_comm) htargets
  refine (hboth.of_eq fun live => ?_).mono fun p hp => ⟨p, ?_, Or.inl rfl⟩
  · rw [edges_bind hw.silent, w.edges_readValues b.values live]
  · exact List.perm_append_comm.mem_iff.mp hp

omit hnames in
theorem update (operand : Place) (h : operand.Within root) :
    s.DefinesOnce [operand] fun live => (w.update operand live).edges := by
  refine .of_tokens (w.targets operand).value .computedFrom (hw.targets operand h) fun live => ?_
  have hedges : (w.update operand live).edges =
      (updateTokens (w.targets operand).value live).edges := by
    show (w.targets operand).edges ++ (_ ++ []) = _
    rw [hw.silent operand, List.append_nil, List.nil_append]
  rw [hedges, map_slot_updateTokens]

/-! ### Alternatives -/

theorem armOutcomes (arms : List (List Place)) (h : root.Scattered arms.flatten) :
    s.DefinesOnce arms.flatten fun live => (w.armOutcomes arms live).edges := by
  induction arms with
  | nil => exact .nil s []
  | cons arm arms ih =>
    have hsplit : root.Scattered (arm ++ arms.flatten) := h
    have hboth := (hw.visitAll hnames hsplit.left).append hnames hsplit (ih hsplit.right)
    refine hboth.of_eq fun live => ?_
    show _ ++ ((w.armOutcomes arms live).edges ++ []) = _
    rw [List.append_nil]

theorem branch (b : Branch) (h : root.Scattered (b.condition ++ b.arms.flatten)) :
    s.DefinesOnce (b.condition ++ b.arms.flatten) fun live => (w.branch b live).edges := by
  have hcondition := hw.visitAll hnames h.left
  have harms := (hw.armOutcomes hnames b.arms h.right).comp fun live =>
    (w.visitAll b.condition live).value
  refine (hcondition.append hnames h harms).of_eq fun live => ?_
  show _ ++ ((w.armOutcomes b.arms _).edges ++ []) = _
  rw [List.append_nil]

/-! ### Repetition -/

omit hw hnames in
/-- The edges of several rounds are edges of single ones. -/
theorem exists_of_mem_edges_rounds {round : LiveDefs → Traced LiveDefs} (n : Nat)
    (live : LiveDefs) : ∀ e ∈ (rounds round n live).edges, ∃ live', e ∈ (round live').edges := by
  induction n generalizing live with
  | zero => exact List.forall_mem_nil _
  | succ n ih => exact List.forall_mem_append.mpr ⟨fun e he => ⟨live, he⟩, ih _⟩

omit hw hnames in
/-- **Folded rounds define what a single one defines.** -/
theorem rounds {round : LiveDefs → Traced LiveDefs}
    (h : s.DefinesOnce ps fun live => (round live).edges) (n : Nat) :
    s.DefinesOnce ps fun live => ((Walkers.rounds round n live).mapEdges Edge.fold).edges :=
  (h.toDefinesAlike.of_mem (exists_of_mem_edges_rounds n)).fold

theorem round (i : Iteration) (h : root.Scattered (i.targets ++ i.iterable.toList ++ i.body)) :
    s.DefinesOnce (i.targets ++ i.iterable.toList ++ i.body) fun live =>
      (w.round i live).edges := by
  have hperm : (i.targets ++ i.iterable.toList ++ i.body).Perm
      (i.iterable.toList ++ i.targets ++ i.body) := List.perm_append_comm.append_right i.body
  have hswapped := h.perm hperm
  have hiterable := hw.resolveAll hnames hswapped.left.left
  have htargets : s.DefinesOnce i.targets fun live => (w.allTargets i.targets).value.map fun t =>
      Edge.ofSources t.text t.index .computedFrom
        (w.resolveAll i.iterable.toList live).value.2 := by
    rw [value_allTargets]
    have hdifferent := hw.tokensOf hnames hswapped.left.right
    refine .of_tokens (w.tokensOf i.targets) .computedFrom hdifferent fun live => ?_
    rw [List.map_map]
    exact List.Sublist.refl _
  have hbody := (hw.visitAll hnames hswapped.right).comp fun live =>
    (w.resolveAll i.iterable.toList live).value.1.bindAll (w.allTargets i.targets).value
  have hparts := (hiterable.append hnames hswapped.left htargets).append hnames hswapped hbody
  refine (hparts.of_eq fun live => ?_).mono fun p hp => ⟨p, hperm.mem_iff.mpr hp, Or.inl rfl⟩
  show _ ++ ((w.allTargets i.targets).edges ++ _) = _
  rw [edges_allTargets hw.silent, List.nil_append, List.append_assoc]
  rfl

theorem iterate (passes : Nat) (i : Iteration)
    (h : root.Scattered (i.targets ++ i.iterable.toList ++ i.body ++ i.tail)) :
    s.DefinesOnce (i.targets ++ i.iterable.toList ++ i.body ++ i.tail) fun live =>
      (w.iterate passes i live).edges := by
  have hrounds := rounds (hw.round hnames i h.left) passes
  have htail := (hw.visitAll hnames h.right).comp fun live =>
    (Walkers.rounds (w.round i) passes live).value
  refine (hrounds.append hnames h htail).of_eq fun live => ?_
  show (w.shadowed i live).edges ++ (_ ++ ((w.visitAll i.tail _).edges ++ [])) = _
  rw [edges_shadowed hw.silent, List.append_nil]
  rfl

theorem loop (passes : Nat) (l : Loop) (h : root.Scattered (l.setup ++ l.repeated ++ l.tail)) :
    s.DefinesOnce (l.setup ++ l.repeated ++ l.tail) fun live => (w.loop passes l live).edges := by
  have hsetup := hw.visitAll hnames h.left.left
  have hrounds := (rounds (hw.visitAll hnames h.left.right) passes).comp fun live =>
    (w.visitAll l.setup live).value
  have htail := (hw.visitAll hnames h.right).comp fun live =>
    (Walkers.rounds (w.visitAll l.repeated) passes (w.visitAll l.setup live).value).value
  have hparts := (hsetup.append hnames h.left hrounds).append hnames h htail
  refine hparts.of_eq fun live => ?_
  rw [List.append_assoc]
  rfl

/-! ### Definitions -/

theorem bindParameters (qs : List Parameter) (h : root.Scattered (qs.flatMap Parameter.parts)) :
    s.DefinesOnce (qs.flatMap Parameter.parts) fun scope => (w.bindParameters qs scope).edges := by
  induction qs with
  | nil => exact .nil s []
  | cons q qs ih =>
    have hsplit : root.Scattered (q.parts ++ qs.flatMap Parameter.parts) := h
    have hq := hw.bind hnames ⟨.declaration, [q.name], q.fallback.toList⟩ hsplit.left
    have hqs := (ih hsplit.right).comp fun scope =>
      (w.bind ⟨.declaration, [q.name], q.fallback.toList⟩ scope).value.1
    exact hq.append hnames hsplit hqs

theorem define (d : Definition)
    (h : root.Scattered (d.name.toList ++ d.parameters.flatMap Parameter.parts ++ d.body)) :
    s.DefinesOnce (d.name.toList ++ d.parameters.flatMap Parameter.parts ++ d.body) fun live =>
      (w.define d live).edges := by
  have hinside : root.Scattered (d.parameters.flatMap Parameter.parts ++ d.body) := by
    rw [List.append_assoc] at h
    exact h.right
  have hparameters := (hw.bindParameters hnames d.parameters hinside.left).comp
    fun _ : LiveDefs => .empty
  have hbody := (hw.visitAll hnames hinside.right).comp
    fun _ : LiveDefs => (w.bindParameters d.parameters .empty).value
  refine ((hparameters.append hnames hinside hbody).of_eq fun live => ?_).mono fun p hp => ?_
  · show (w.allTargets d.name.toList).edges ++ (_ ++ ((w.visitAll d.body _).edges ++ [])) = _
    rw [edges_allTargets hw.silent, List.append_nil, List.nil_append]
  · rw [List.append_assoc]
    exact ⟨p, List.mem_append_right _ hp, Or.inl rfl⟩

/-! ### Patterns -/

section Patterns

variable (passes : Nat) {pattern : Pattern} (hparts : root.Scattered pattern.parts)
  (hbelow : ∀ q ∈ pattern.parts, q.Within p) (hchildren : root.Scattered p.children)
include hparts hbelow hchildren

theorem visitPattern :
    s.DefinesOnce [p] fun live => (w.visitPattern passes pattern p live).edges := by
  have hwithin : ∀ q ∈ p.children, q.Within p := fun q hq => Or.inr (.child hq)
  cases pattern with
  | binding b => exact (hw.bind hnames b hparts).append_nil.under hbelow
  | update operand =>
    have hoperand := hparts.within operand List.mem_cons_self
    exact (hw.update operand hoperand).append_nil.under hbelow
  | branch b => exact (hw.branch hnames b hparts).under hbelow
  | iteration i => exact (hw.iterate hnames passes i hparts).under hbelow
  | loop l => exact (hw.loop hnames passes l hparts).under hbelow
  | definition d => exact (hw.define hnames d hparts).under hbelow
  | sequence first rest => exact (hw.visitAll hnames hparts).under hbelow
  | plain => exact (hw.visitAll hnames hchildren).under hwithin

theorem resolvePattern :
    s.DefinesOnce [p] fun live => (w.resolvePattern passes pattern p live).edges := by
  have hwithin : ∀ q ∈ p.children, q.Within p := fun q hq => Or.inr (.child hq)
  cases pattern with
  | binding b => exact (hw.bind hnames b hparts).append_nil.under hbelow
  | update operand =>
    have hoperand := hparts.within operand List.mem_cons_self
    exact (hw.update operand hoperand).append_nil.under hbelow
  | iteration i => exact (hw.iterate hnames passes i hparts).append_nil.under hbelow
  | definition d => exact (hw.define hnames d hparts).append_nil.under hbelow
  | sequence first rest => exact (hw.resolveAll hnames hparts).under hbelow
  | branch | loop | plain => exact (hw.resolveAll hnames hchildren).under hwithin

end Patterns

end Walkers.DefineOnce

/-! ## The walk over a tree -/

theorem LiveDefs.map_slot_reads (live : LiveDefs) (t : Token) :
    ((live.reads t).map Edge.slot).Sublist [(t.text, t.index, .comesFrom)] := by
  unfold reads
  split
  · exact List.nil_sublist _
  · split
    · exact List.nil_sublist _
    · exact List.Sublist.refl _

namespace Setup

variable {s : Setup} {root p : Place}

/-- A name has its own number. -/
theorem differentNames_leaf {t : Token} (htoken : s.language.isToken p.node = true)
    (hleaf : (s.leaf p).value = .name t) : s.DifferentNames [p] [t.index] := by
  obtain ⟨hkind, -, hfind⟩ := of_leaf_eq_name hleaf
  refine ⟨List.forall_mem_singleton.mpr ?_, List.nodup_singleton _⟩
  exact ⟨p, t, ⟨p, List.mem_singleton.mpr rfl, Or.inl rfl⟩, htoken, hkind, hfind, rfl⟩

theorem definesOnce_readToken (htoken : s.language.isToken p.node = true) :
    s.DefinesOnce [p] fun live => (s.readToken p live).edges := by
  simp only [edges_readToken]
  cases hleaf : (s.leaf p).value with
  | name t =>
    exact .of_tokens [t] .comesFrom (differentNames_leaf htoken hleaf) fun live =>
      live.map_slot_reads t
  | literal t => exact .nil s [p]
  | silent => exact .nil s [p]

/-- What makes a walk over a tree define each token once. -/
structure ReadsApart (s : Setup) (root : Place) : Prop where
  staysBelow : ∀ p : Place, (s.language.pattern p).StaysBelow p
  numbered : root.Numbered
  lists : s.language.ListsApart root
  names : s.NamesApart root

namespace ReadsApart

variable (h : s.ReadsApart root)
include h

theorem children (hp : p.Within root) : root.Scattered p.children :=
  ⟨fun _ hq => hp.below (.child hq), h.numbered.apart_children hp⟩

theorem parts (hp : p.Within root) (hcomment : s.language.isComment p.kind = false)
    (htoken : s.language.isToken p.node = false) :
    root.Scattered (s.language.pattern p).parts :=
  ⟨fun q hq => hp.below (h.staysBelow p q hq), h.lists p hp hcomment htoken⟩

theorem within_of_mem_parts {q : Place} (hq : q ∈ (s.language.pattern p).parts) : q.Within p :=
  Or.inr (h.staysBelow p q hq)

section Steps

variable {w : Walkers} (hw : w.DefineOnce s root) (hp : p.Within root)
include hw hp

theorem visitStep : s.DefinesOnce [p] fun live => (s.visitStep w p live).edges := by
  cases s.language.reads p with
  | comment hcomment =>
    simp only [visitStep_of_comment hcomment]
    exact .nil s [p]
  | token hcomment htoken =>
    simp only [visitStep_of_token hcomment htoken]
    exact definesOnce_readToken htoken
  | construct hcomment htoken =>
    simp only [visitStep_of_construct hcomment htoken]
    exact hw.visitPattern h.names s.passes (h.parts hp hcomment htoken)
      (fun _ => h.within_of_mem_parts) (h.children hp)

theorem resolveStep : s.DefinesOnce [p] fun live => (s.resolveStep w p live).edges := by
  cases s.language.reads p with
  | comment hcomment =>
    simp only [resolveStep_of_comment hcomment]
    exact .nil s [p]
  | token hcomment htoken =>
    simp only [resolveStep_of_token hcomment htoken, edges_resolveToken]
    exact .nil s [p]
  | construct hcomment htoken =>
    simp only [resolveStep_of_construct hcomment htoken]
    exact hw.resolvePattern h.names s.passes (h.parts hp hcomment htoken)
      (fun _ => h.within_of_mem_parts) (h.children hp)

end Steps

theorem targets {budget : Nat} (hw : (s.walkers budget).DefineOnce s root) (hp : p.Within root) :
    s.DifferentNames [p] ((s.targets (budget + 1) p).value.map (·.index)) := by
  cases s.language.reads p with
  | comment hcomment =>
    rw [s.targets_of_comment hcomment]
    exact .nil s [p]
  | token hcomment htoken =>
    rw [s.targets_of_token hcomment htoken, Traced.value_bind]
    cases hleaf : (s.leaf p).value with
    | name t => exact differentNames_leaf htoken hleaf
    | literal t => exact .nil s [p]
    | silent => exact .nil s [p]
  | construct hcomment htoken =>
    rw [s.targets_of_construct hcomment htoken, Walkers.value_allTargets]
    refine (hw.tokensOf h.names (h.children hp)).mono fun q hq => ?_
    exact ⟨p, List.mem_singleton.mpr rfl, Or.inr (.child hq)⟩

/-- **Both walks define each token once**, wherever the limit cuts them. -/
theorem walkers (budget : Nat) : (s.walkers budget).DefineOnce s root := by
  induction budget with
  | zero =>
    refine ⟨?_, ?_, ?_, s.silentTargets_walkers 0⟩
    · exact fun p _ => .nil s [p]
    · exact fun p _ => .nil s [p]
    · exact fun p _ => .nil s [p]
  | succ budget ih =>
    refine ⟨?_, ?_, ?_, s.silentTargets_walkers (budget + 1)⟩
    · exact fun p hp => h.visitStep ih hp
    · exact fun p hp => h.resolveStep ih hp
    · exact fun p hp => h.targets ih hp

end ReadsApart

end Setup

/-! ## The final list -/

namespace Edge

theorem index_eq_of_sameFlow {e f : Edge} (h : e.sameFlow f = true) : e.index = f.index := by
  simp only [sameFlow, Bool.and_eq_true, beq_iff_eq] at h
  exact h.1.1.2

/-- Edges of different tokens repeat nothing. -/
theorem withoutRepeats_eq_self {seen edges : List Edge} (hnodup : (edges.map (·.index)).Nodup)
    (hseen : ∀ e ∈ edges, ∀ f ∈ seen, e.index ≠ f.index) :
    withoutRepeats seen edges = edges := by
  induction edges generalizing seen with
  | nil => rfl
  | cons e es ih =>
    obtain ⟨hfirst, hes⟩ := List.nodup_cons.mp hnodup
    obtain ⟨hnew, hseen⟩ := List.forall_mem_cons.mp hseen
    have hfresh : ¬ seen.any e.sameFlow = true := by
      intro hany
      obtain ⟨f, hf, hsame⟩ := List.any_eq_true.mp hany
      exact hnew f hf (index_eq_of_sameFlow hsame)
    rw [withoutRepeats, if_neg hfresh, ih hes]
    intro f hf
    have hmem : f.index ∈ es.map (·.index) := List.mem_map_of_mem hf
    refine List.forall_mem_cons.mpr ⟨fun heq => ?_, hseen f hf⟩
    rw [heq] at hmem
    exact hfirst hmem

/-- Where the edges define different tokens, there are no repetitions to leave out. -/
theorem assemble_eq_of_nodup {edges : List Edge} (h : (edges.map (·.index)).Nodup) :
    assemble true edges = assemble false edges := by
  have hinformative : ((edges.filter hasSources).map (·.index)).Nodup :=
    (List.filter_sublist.map _).nodup h
  exact withoutRepeats_eq_self hinformative fun _ _ _ hf => absurd hf List.not_mem_nil

end Edge

namespace Setup

variable {s : Setup} {root : Place}

/-- Among the tokens that are listed from a tree, names with different spans are different
tokens. -/
theorem namesApart_of_distinctSpans {source : ByteArray} {n : Node}
    (htokens : s.tokens = .ofTree s.language source n) (h : s.language.DistinctSpans root) :
    s.NamesApart root := by
  intro p q hp hq hptoken hqtoken _ _ t u ht hu hindex
  have hsame : t = u := by
    have htoken := Tokens.token?_of_find? ht
    rw [hindex, Tokens.token?_of_find? hu] at htoken
    exact (Option.some.inj htoken).symm
  have hspan : p.node.span = q.node.span := by
    rw [← Tokens.span_of_find? ht, ← Tokens.span_of_find? hu, hsame]
  rw [htokens] at ht
  exact h p q hp hq hptoken hqtoken (Tokens.isEmpty_span_of_find? ht) hspan

/-- **Every token is defined once.**  If the table names no place twice, as the table of Python
never does, and no two names are the same token, then the edges of the graph of a tree define
different tokens, whatever is live before and wherever the walk is cut.  Whether repetitions
are left out of the final list then makes no difference. -/
theorem nodup_index_of_graph (s : Setup) (root : Place) (hnumbered : root.Numbered) :
    (s.language = Language.python → s.language.ListsApart root) ∧
    (((∃ tag : Tag, s.language = tag.language) ∨
        ∀ p : Place, (s.language.pattern p).StaysBelow p) →
      s.language.ListsApart root → s.NamesApart root → ∀ seed : LiveDefs,
        ((s.graph root seed).edges.map (·.index)).Nodup ∧
        Edge.assemble true (s.graph root seed).edges =
          Edge.assemble false (s.graph root seed).edges) := by
  constructor
  · intro hpython
    rw [hpython]
    exact Language.listsApart_python hnumbered
  · intro hs hlists hnames seed
    have hapart : s.ReadsApart root := ⟨Language.staysBelow_of hs, hnumbered, hlists, hnames⟩
    have honce := (hapart.walkers s.budget).visit root (Or.inl rfl)
    have hnodup : ((s.graph root seed).edges.map (·.index)).Nodup := honce.nodup seed
    exact ⟨hnodup, Edge.assemble_eq_of_nodup hnodup⟩

end Setup

/-! ## A loop that feeds itself -/

namespace FeedbackLoop

/-- `for a in b: b = a` -/
def root : Place :=
  .root <| .onLine 0 "module" true none 0 17 [
    .onLine 1 "for_statement" true none 0 17 [
      .onLine 2 "for" false none 0 3 [],
      .onLine 3 "identifier" true (some "left") 4 5 [],
      .onLine 4 "in" false none 6 8 [],
      .onLine 5 "identifier" true (some "right") 9 10 [],
      .onLine 6 ":" false none 10 11 [],
      .onLine 7 "block" true (some "body") 12 17 [
        .onLine 8 "expression_statement" true none 12 17 [
          .onLine 9 "assignment" true none 12 17 [
            .onLine 10 "identifier" true (some "left") 12 13 [],
            .onLine 11 "=" false none 14 15 [],
            .onLine 12 "identifier" true (some "right") 16 17 []]]]]]

def setup : Setup where
  language := Language.python
  tokens := .ofTree Language.python "for a in b: b = a".toUTF8 root.node

end FeedbackLoop

namespace Setup

/-- Each reading of the loop defines both names, from other tokens than the reading before. -/
theorem nodup_index_feedbackLoop :
    FeedbackLoop.root.Numbered ∧ FeedbackLoop.setup.NamesApart FeedbackLoop.root ∧
    FeedbackLoop.setup.language.ListsApart FeedbackLoop.root ∧
    (FeedbackLoop.setup.graph FeedbackLoop.root .empty).edges.map Edge.text =
      ["a@1 computedFrom [b@3, b@5]", "b@5 comesFrom [a@1]"] ∧
    ((FeedbackLoop.setup.graph FeedbackLoop.root .empty).edges.map (·.index)).Nodup := by
  have hnumbered : FeedbackLoop.root.Numbered := by
    unfold Place.Numbered
    decide
  have hspans : Language.python.DistinctSpans FeedbackLoop.root :=
    .of_numbers hnumbered (by decide)
  have hnames : FeedbackLoop.setup.NamesApart FeedbackLoop.root :=
    namesApart_of_distinctSpans (s := FeedbackLoop.setup) rfl hspans
  obtain ⟨hpython, honce⟩ := nodup_index_of_graph FeedbackLoop.setup FeedbackLoop.root hnumbered
  have hlists := hpython rfl
  have hgraph := honce (.inl ⟨.python, rfl⟩) hlists hnames .empty
  exact ⟨hnumbered, hnames, hlists, by decide +kernel, hgraph.1⟩

end Setup

end TokenFlow
