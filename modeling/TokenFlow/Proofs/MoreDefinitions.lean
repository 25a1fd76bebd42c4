import Mathlib.Data.List.Forall2
import Mathlib.Data.List.Nodup
import TokenFlow.Analysis.Graph
import TokenFlow.Proofs.EdgeSlots
import TokenFlow.Proofs.WalkEffects
import TokenFlow.Proofs.WalkRelation

/-!
# More definitions never lose a flow

Two walks over one tree start from live definitions that bind the same names, those of the
first to fewer tokens than those of the second (`LiveDefs.Below`).  They stay so related
(`Setup.related_moreDefined`), and for each edge of the first there is one edge of the second
that defines the same token in the same way and has all its sources (`Edge.Covered`).

Two things could come in the way.  An edge of the first walk may be folded with others than
in the second; but the edges of a slot are folded into one in both walks, and that of the
second covers whatever its parts cover (`Edge.covered_fold_of_covered`).  And a name that is
its own only live definition has no edge; but if it is so in the second walk, then it is so
in the first, which has no fewer definitions than one (`WalkRelation.readsAlike_moreDefined`).
-/
namespace TokenFlow

namespace Edge

theorem Covered.mono {es es' : List Edge} {e : Edge} (h : Covered es e) (hsub : es ⊆ es') :
    Covered es' e :=
  h.trans fun _ hd => covered_of_mem (hsub hd)

/-- Folded edges have different slots, so what covers two edges of one slot covers their
union. -/
theorem covered_unite {es : List Edge} {f e : Edge} (hf : Covered (fold es) f)
    (he : Covered (fold es) e) (hslot : f.slot = e.slot) : Covered (fold es) (f.unite e) := by
  obtain ⟨f', hf', hslotf, hsubf⟩ := hf
  obtain ⟨e', he', hslote, hsube⟩ := he
  have hsame : f' = e' := List.inj_on_of_nodup_map (nodup_slots_fold es) hf' he'
    (hslotf.trans (hslot.trans hslote.symm))
  subst hsame
  refine ⟨f', hf', hslotf, fun x hx => ?_⟩
  exact (mem_sources_unite.mp hx).elim (hsubf ·) (hsube ·)

/-- **Folding keeps edges covered.** -/
theorem covered_fold_of_covered {ds es : List Edge} (h : ∀ d ∈ ds, Covered es d) :
    ∀ d ∈ fold ds, Covered (fold es) d :=
  forall_fold (fun _ _ => covered_unite) fun d hd => (h d hd).trans fun _ => covered_fold

end Edge

/-! ## Live definitions with more tokens -/

/-- Two ascending lists, of which the second has all that the first has, and that is
something. -/
structure Enlarges (defs defs' : List Nat) : Prop where
  ascending : defs.Pairwise (· < ·)
  ascending' : defs'.Pairwise (· < ·)
  nonempty : defs ≠ []
  subset : defs ⊆ defs'

theorem Enlarges.singleton (index : Nat) : Enlarges [index] [index] :=
  ⟨List.pairwise_singleton _ _, List.pairwise_singleton _ _, List.cons_ne_nil _ _,
    List.Subset.refl _⟩

/-- Nothing but the single token is enlarged to it. -/
theorem Enlarges.eq_singleton {defs : List Nat} {index : Nat} (h : Enlarges defs [index]) :
    defs = [index] := by
  refine Ascending.eq_of_mem_iff h.ascending h.ascending' fun d => ⟨(h.subset ·), fun hd => ?_⟩
  obtain ⟨d', hd'⟩ := List.exists_mem_of_ne_nil defs h.nonempty
  rw [List.mem_singleton.mp hd, ← List.mem_singleton.mp (h.subset hd')]
  exact hd'

theorem Enlarges.flatten_subset {xs ys : List (List Nat)} (h : List.Forall₂ Enlarges xs ys) :
    xs.flatten ⊆ ys.flatten := by
  induction h with
  | nil => exact List.Subset.refl _
  | cons hdefs _ ih =>
    intro d hd
    rw [List.flatten_cons, List.mem_append] at hd ⊢
    exact hd.imp (hdefs.subset ·) (ih ·)

/-- United, lists are enlarged if they are so one by one and there are any. -/
theorem Enlarges.ofList_flatten {xs ys : List (List Nat)} (h : List.Forall₂ Enlarges xs ys)
    (hne : xs ≠ []) : Enlarges (Ascending.ofList xs.flatten) (Ascending.ofList ys.flatten) where
  ascending := Ascending.pairwise_ofList _
  ascending' := Ascending.pairwise_ofList _
  nonempty := by
    cases h with
    | nil => exact absurd rfl hne
    | @cons defs _ rest _ hdefs _ =>
      obtain ⟨d, hd⟩ := List.exists_mem_of_ne_nil _ hdefs.nonempty
      have hmem : d ∈ (defs :: rest).flatten := List.mem_append_left _ hd
      exact List.ne_nil_of_mem (Ascending.mem_ofList.mpr hmem)
  subset _ hd := Ascending.mem_ofList.mpr (flatten_subset h (Ascending.mem_ofList.mp hd))

/-- Both tables bind the same names, each in the second to at least the tokens to which it is
bound in the first. -/
def LiveDefs.Below (l l' : LiveDefs) : Prop :=
  ∀ name, Option.Rel Enlarges (l.get? name) (l'.get? name)

/-- Every bound name has a definition. -/
def LiveDefs.Grounded (live : LiveDefs) : Prop :=
  ∀ name defs, live.get? name = some defs → defs ≠ []

namespace LiveDefs.Below

variable {l l' : LiveDefs}

theorem of_subset (h : l.Ascending) (h' : l'.Ascending)
    (hbound : ∀ name, l.get? name = none ↔ l'.get? name = none) (hgrounded : l.Grounded)
    (hsub : ∀ name defs defs', l.get? name = some defs → l'.get? name = some defs' →
      defs ⊆ defs') : l.Below l' := by
  intro name
  cases hl : l.get? name with
  | none =>
    rw [(hbound name).mp hl]
    exact .none
  | some defs =>
    cases hl' : l'.get? name with
    | none => exact absurd ((hbound name).mpr hl') (hl ▸ Option.some_ne_none defs)
    | some defs' =>
      exact .some ⟨h name defs hl, h' name defs' hl', hgrounded name defs hl,
        hsub name defs defs' hl hl'⟩

theorem self (h : l.Ascending) (hgrounded : l.Grounded) : l.Below l :=
  of_subset h h (fun _ => Iff.rfl) hgrounded fun _ _ _ hdefs hdefs' => by
    rw [Option.some.inj (hdefs.symm.trans hdefs')]
    exact List.Subset.refl _

/-- A name is bound in neither, or in both and in the second to more. -/
theorem get?_cases (h : l.Below l') (name : String) :
    (l.get? name = none ∧ l'.get? name = none) ∨
      ∃ defs defs', l.get? name = some defs ∧ l'.get? name = some defs' ∧ Enlarges defs defs' := by
  have hrel := h name
  generalize l.get? name = own, l'.get? name = own' at hrel ⊢
  cases hrel with
  | none => exact Or.inl ⟨rfl, rfl⟩
  | some henlarges => exact Or.inr ⟨_, _, rfl, rfl, henlarges⟩

theorem exists_enlarges (h : l.Below l') {name : String} {defs : List Nat}
    (hdefs : l.get? name = some defs) :
    ∃ defs', l'.get? name = some defs' ∧ Enlarges defs defs' := by
  obtain ⟨hnone, -⟩ | ⟨own, defs', hown, hdefs', henlarges⟩ := h.get?_cases name
  · cases hnone.symm.trans hdefs
  · cases hown.symm.trans hdefs
    exact ⟨defs', hdefs', henlarges⟩

theorem grounded (h : l.Below l') : l.Grounded := by
  intro name defs hdefs
  obtain ⟨_, -, henlarges⟩ := h.exists_enlarges hdefs
  exact henlarges.nonempty

theorem empty : Below .empty .empty :=
  fun _ => .none

theorem bind (h : l.Below l') (t : Token) :
    (l.bind t.text t.index).Below (l'.bind t.text t.index) := by
  intro name
  rw [get?_bind, get?_bind]
  split
  · exact .some (.singleton t.index)
  · exact h name

theorem restore {k k' : LiveDefs} (h : l.Below l') (hk : k.Below k') (name : String) :
    (l.restore name (k.get? name)).Below (l'.restore name (k'.get? name)) := by
  intro other
  rw [get?_restore, get?_restore]
  split
  · exact hk name
  · exact h other

/-- United lists of the first walk are enlarged to those of the second. -/
theorem unionOf {os os' : List (Option (List Nat))}
    (h : List.Forall₂ (Option.Rel Enlarges) os os') :
    Option.Rel Enlarges (LiveDefs.unionOf os) (LiveDefs.unionOf os') := by
  have hfound : List.Forall₂ Enlarges (os.filterMap id) (os'.filterMap id) :=
    List.rel_filterMap (fun _ _ ho => ho) h
  unfold LiveDefs.unionOf
  generalize os.filterMap id = xs, os'.filterMap id = ys at hfound
  cases hfound with
  | nil => exact .none
  | cons hdefs hrest => exact .some (.ofList_flatten (.cons hdefs hrest) (List.cons_ne_nil _ _))

theorem merge {ls ls' : List LiveDefs} (h : List.Forall₂ Below ls ls') :
    (LiveDefs.merge ls).Below (.merge ls') := by
  intro name
  rw [get?_merge, get?_merge]
  refine unionOf (List.forall₂_map_left_iff.mpr (List.forall₂_map_right_iff.mpr (h.imp ?_)))
  exact fun _ _ hl => hl name

/-- What a bound name draws from. -/
theorem sources (h : l.Below l') (t : Token) :
    Option.Rel (· ⊆ ·) ((l.get? t.text).map (Source.ofDefs t.text))
      ((l'.get? t.text).map (Source.ofDefs t.text)) := by
  obtain ⟨hl, hl'⟩ | ⟨defs, defs', hl, hl', hdefs⟩ := h.get?_cases t.text <;> rw [hl, hl']
  · exact .none
  · exact .some (List.map_subset _ hdefs.subset)

end LiveDefs.Below

/-! ## Walks with more tokens -/

/-- Walks over the same places, of which the second has more live definitions and covers each
edge of the first. -/
def WalkRelation.moreDefined : WalkRelation where
  traced V x y := V x.value y.value ∧ ∀ e ∈ x.edges, Edge.Covered y.edges e
  place := Eq
  target := Eq
  extra _ := False
  live := LiveDefs.Below
  token := Eq
  sources xs ys := xs ⊆ ys
  pure h := ⟨h, List.forall_mem_nil _⟩
  bind hx hf := by
    obtain ⟨hvalue, hedges⟩ := hx
    obtain ⟨hvalue', hedges'⟩ := hf _ _ hvalue
    refine ⟨hvalue', List.forall_mem_append.mpr ⟨fun e he => ?_, fun e he => ?_⟩⟩
    · exact (hedges e he).mono (List.subset_append_left _ _)
    · exact (hedges' e he).mono (List.subset_append_right _ _)
  fold hx := ⟨hx.1, Edge.covered_fold_of_covered hx.2⟩
  emit := by
    rintro t _ xs xs' relation rfl hsub
    refine ⟨trivial, List.forall_mem_singleton.mpr ⟨_, List.mem_singleton.mpr rfl, rfl, ?_⟩⟩
    exact fun x hx => Edge.mem_sources_ofSources.mpr (hsub (Edge.mem_sources_ofSources.mp hx))
  live_empty := .empty
  live_bind := by
    rintro l l' t _ h rfl
    exact h.bind t
  live_merge := .merge
  live_restore := by
    rintro l l' k k' t _ h hk rfl
    exact h.restore hk t.text
  sources_nil := List.Subset.refl _
  sources_append hx hy _ h :=
    List.mem_append.mpr ((List.mem_append.mp h).imp (hx ·) (hy ·))
  sources_token := by
    rintro t _ rfl
    exact List.Subset.refl _
  sources_live := by
    rintro l l' t _ h rfl
    exact h.sources t

/-- A walk with the definitions of another and more has an edge wherever that has one. -/
theorem WalkRelation.readsAlike_moreDefined : moreDefined.ReadsAlike := by
  rintro l l' t _ h rfl
  unfold LiveDefs.reads
  obtain ⟨hl, hl'⟩ | ⟨defs, defs', hl, hl', hdefs⟩ := h.get?_cases t.text <;> rw [hl, hl']
  · exact moreDefined.pure trivial
  · by_cases hown : defs = [t.index]
    · simp only [hown, if_true]
      exact ⟨trivial, List.forall_mem_nil _⟩
    · -- the token is not all that the second walk has either
      have hown' : defs' ≠ [t.index] := by
        rintro rfl
        exact hown hdefs.eq_singleton
      simp only [hown, hown', if_false]
      exact moreDefined.emit .comesFrom rfl (List.map_subset _ hdefs.subset)

namespace Setup

variable {s : Setup}

theorem reads_moreDefined (p : Place) : WalkRelation.moreDefined.Reads s s p p where
  comment := rfl
  token _ := rfl
  leaf _ _ := ⟨.refl (fun _ _ => rfl) fun _ _ => List.Subset.refl _,
    fun _ => Edge.covered_of_mem⟩

/-- **A walk that starts with more definitions keeps more, and covers what it would draw with
fewer.** -/
theorem related_moreDefined (budget : Nat) :
    (s.walkers budget).Related .moreDefined (s.walkers budget) := by
  induction budget with
  | zero =>
    refine ⟨?_, ?_, ?_, fun h => h.elim, fun h => h.elim, fun h => h.elim⟩
    · exact fun _ hl => ⟨hl, List.forall_mem_nil _⟩
    · rintro p _ l l' rfl hl
      exact ⟨⟨hl, List.Subset.refl _, rfl⟩, List.forall_mem_nil _⟩
    · exact fun _ => ⟨.nil, List.forall_mem_nil _⟩
  | succ budget ih =>
    have hpattern : ∀ p : Place, WalkRelation.moreDefined.Patterns (s.language.pattern p)
        (s.language.pattern p) := fun _ => .refl (fun _ _ => rfl) fun _ _ => rfl
    have hchildren : ∀ p : Place, WalkRelation.moreDefined.Evaluated p.children p.children :=
      fun _ => .refl fun _ _ => rfl
    refine ⟨?_, ?_, ?_, fun h => h.elim, fun h => h.elim, fun h => h.elim⟩
    · rintro p _ l l' rfl hl
      exact (reads_moreDefined p).visitStep_of_readsAlike WalkRelation.readsAlike_moreDefined hl
        fun _ _ => ih.visitPattern (hpattern p) (hchildren p) hl
    · rintro p _ l l' rfl hl
      exact WalkRelation.imp ((reads_moreDefined p).resolveStep hl fun _ _ =>
        ih.resolvePattern (hpattern p) (hchildren p) hl) fun _ _ hr => ⟨hr.1, hr.2, rfl⟩
    · rintro p _ rfl
      exact (reads_moreDefined p).targets fun _ _ => ih.allTargets (hchildren p)

/-- **More live definitions never lose a flow.**  If two seeds bind the same names, each to
some tokens and in the second to no fewer than in the first, then for each edge from the first
there is one from the second that defines the same token in the same way and has all its
sources, and what is live at the end from the first is live from the second. -/
theorem graph_mono (s : Setup) (root : Place) {seed seed' : LiveDefs} (h : seed.Ascending)
    (h' : seed'.Ascending) (hbound : ∀ name, seed.get? name = none ↔ seed'.get? name = none)
    (hgrounded : seed.Grounded)
    (hsub : ∀ name defs defs', seed.get? name = some defs → seed'.get? name = some defs' →
      defs ⊆ defs') :
    (∀ e ∈ (s.graph root seed).edges, ∃ e' ∈ (s.graph root seed').edges,
      e'.slot = e.slot ∧ e.sources ⊆ e'.sources) ∧
    ∀ name defs, (s.graph root seed).live.get? name = some defs →
      ∃ defs', (s.graph root seed').live.get? name = some defs' ∧ defs ⊆ defs' := by
  obtain ⟨hlive, hedges⟩ := (related_moreDefined (s := s) s.budget).visit (p := root) rfl
    (.of_subset h h' hbound hgrounded hsub)
  refine ⟨hedges, fun name defs hdefs => ?_⟩
  obtain ⟨defs', hdefs', henlarges⟩ := hlive.exists_enlarges hdefs
  exact ⟨defs', hdefs', henlarges.subset⟩

end Setup

/-! ## A loop that copies, from two seeds -/

namespace CopyLoop

/-- What is live before the loop, with these definitions of `a`. -/
def seedWith (defs : List Nat) : LiveDefs :=
  seed.set "a" defs

theorem get?_seedWith (defs : List Nat) (name : String) :
    (seedWith defs).get? name =
      if "a" = name then some defs else if "b" = name then some [9] else none := by
  rw [seedWith, LiveDefs.get?_set]
  split
  · rfl
  · rename_i hname
    show ((LiveDefs.empty.bind "a" 8).bind "b" 9).get? name = _
    rw [LiveDefs.get?_bind, LiveDefs.get?_bind, if_neg hname, LiveDefs.get?_empty]

theorem eq_of_get?_seedWith {defs own : List Nat} {name : String}
    (h : (seedWith defs).get? name = some own) : own = defs ∨ own = [9] := by
  rw [get?_seedWith] at h
  split at h
  · exact Or.inl (Option.some.inj h).symm
  · split at h
    · exact Or.inr (Option.some.inj h).symm
    · cases h

theorem ascending_seedWith {defs : List Nat} (h : defs.Pairwise (· < ·)) :
    (seedWith defs).Ascending := by
  intro name own hown
  rcases eq_of_get?_seedWith hown with rfl | rfl
  · exact h
  · exact List.pairwise_singleton _ _

theorem grounded_seedWith {defs : List Nat} (h : defs ≠ []) : (seedWith defs).Grounded := by
  intro name own hown
  rcases eq_of_get?_seedWith hown with rfl | rfl
  · exact h
  · exact List.cons_ne_nil _ _

end CopyLoop

namespace Setup

open CopyLoop (seedWith)

/-- Where `a` is its own token before the loop, it draws from nothing in the first reading and
from its copy in the second.  With the token 8 as well it still draws from its copy. -/
theorem graph_mono_copyLoop :
    .ofSources "a" 0 .comesFrom [⟨"a", 1⟩] ∈
        (CopyLoop.setup.graph CopyLoop.root (seedWith [0])).edges ∧
      ∃ e ∈ (CopyLoop.setup.graph CopyLoop.root (seedWith [0, 8])).edges,
        e.slot = ("a", 0, .comesFrom) ∧ ⟨"a", 1⟩ ∈ e.sources := by
  have he : .ofSources "a" 0 .comesFrom [⟨"a", 1⟩] ∈
      (CopyLoop.setup.graph CopyLoop.root (seedWith [0])).edges := by decide
  have hbound : ∀ name, (seedWith [0]).get? name = none ↔ (seedWith [0, 8]).get? name = none := by
    intro name
    rw [CopyLoop.get?_seedWith, CopyLoop.get?_seedWith]
    split <;> simp
  have hsub : ∀ name defs defs', (seedWith [0]).get? name = some defs →
      (seedWith [0, 8]).get? name = some defs' → defs ⊆ defs' := by
    intro name defs defs' hdefs hdefs'
    rw [CopyLoop.get?_seedWith] at hdefs hdefs'
    by_cases ha : "a" = name
    · rw [if_pos ha] at hdefs hdefs'
      cases hdefs
      cases hdefs'
      decide
    · rw [if_neg ha] at hdefs hdefs'
      rw [Option.some.inj (hdefs.symm.trans hdefs')]
      exact List.Subset.refl _
  obtain ⟨hedges, -⟩ := graph_mono CopyLoop.setup CopyLoop.root
    (CopyLoop.ascending_seedWith (List.pairwise_singleton _ _))
    (CopyLoop.ascending_seedWith (by decide)) hbound
    (CopyLoop.grounded_seedWith (List.cons_ne_nil _ _)) hsub
  obtain ⟨e, hmem, hslot, hsources⟩ := hedges _ he
  exact ⟨he, e, hmem, hslot, hsources (Edge.mem_sources_ofSources.mpr List.mem_cons_self)⟩

end Setup

end TokenFlow
