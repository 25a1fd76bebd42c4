import TokenFlow.Analysis.Graph
import TokenFlow.Language.Tag
import TokenFlow.Proofs.WalkEffects
import TokenFlow.Proofs.WalkRelation

/-!
# A limit matters only where it is reported

Where nesting is too deep, a walk reports the place and leaves it out.  But the limit is
asked a second time, in silence: whether a value is a copy is decided by `Setup.isChain`,
which takes a chain that is nested too deep for none.  `Setup.graph_withLimit` shows that
the silent question never decides anything by itself: an analysis that reports no cut has
the very graph that every larger limit gives.

A computation that was not cut is `Intact`, and an intact walk is followed step by step by
every walk with a larger budget (`WalkRelation.unlessCut`).  The silent question is settled
by `Setup.isChain_eq_of_intact`: a table has no pattern for member access, so whatever
`isChain` looks at, reading the value as a value looks at too, and reports.
-/
namespace TokenFlow

/-! ## Cuts -/

/-- Whether something was left out because it is nested too deep. -/
def Degradation.isCut : Degradation → Bool
  | tooDeep .. => true
  | unknownToken _ => false

namespace Traced

variable {α β : Type}

/-- Nothing was left out because it is nested too deep. -/
def Intact (x : Traced α) : Prop :=
  ∀ d ∈ x.degradations, d.isCut = false

theorem Intact.of_bind {x : Traced α} {f : α → Traced β} (h : (x >>= f).Intact) :
    x.Intact ∧ (f x.value).Intact :=
  List.forall_mem_append.mp h

end Traced

theorem Setup.not_intact_cut {s : Setup} {p : Place} {α : Type} {x : Traced α} :
    ¬ (s.cut p >>= fun _ => x).Intact := by
  intro h
  have hcut := h.of_bind.1 (.tooDeep s.limit p.kind p.node.span) List.mem_cons_self
  exact nomatch hcut

/-- Walks that do the same as long as the first is not cut. -/
def WalkRelation.unlessCut (place : Place → Place → Prop) (extra : Place → Prop) : WalkRelation :=
  .same (fun V x y =>
      x.Intact → V x.value y.value ∧ x.edges = y.edges ∧ x.degradations = y.degradations)
    place extra (fun h _ => ⟨h, rfl, rfl⟩)
    (fun hx hf h => by
      obtain ⟨hfirst, hsecond⟩ := h.of_bind
      obtain ⟨hvalue, hedges, hdegradations⟩ := hx hfirst
      obtain ⟨hvalue', hedges', hdegradations'⟩ := hf _ _ hvalue hsecond
      exact ⟨hvalue', congr (congrArg _ hedges) hedges',
        congr (congrArg _ hdegradations) hdegradations'⟩)
    (fun hx h => by
      obtain ⟨hvalue, hedges, hdegradations⟩ := hx h
      exact ⟨hvalue, congrArg Edge.fold hedges, hdegradations⟩)
    fun _ _ => ⟨trivial, rfl, rfl⟩

theorem WalkRelation.seesItself_unlessCut {place : Place → Place → Prop} {extra : Place → Prop} :
    (unlessCut place extra).SeesItself :=
  .of_eq (fun _ _ h => h) fun _ _ h => h

/-! ## Chains -/

/-- The table reads member access for what it holds. -/
def Language.ReadsThroughChains (l : Language) : Prop :=
  ∀ p : Place, l.memberAccess.contains p.kind = true →
    l.isComment p.kind = false ∧ l.pattern p = .plain

theorem Language.ReadsThroughChains.of_kind {l : Language} {kind : String}
    (haccess : l.memberAccess = [kind]) (hcomment : l.isComment kind = false)
    (hplain : ∀ p : Place, p.kind = kind → l.pattern p = .plain) : l.ReadsThroughChains := by
  intro p h
  rw [haccess, List.contains_iff_mem, List.mem_singleton] at h
  exact ⟨h ▸ hcomment, hplain p h⟩

theorem Tag.readsThroughChains (tag : Tag) : tag.language.ReadsThroughChains := by
  cases tag with
  | python =>
    exact .of_kind rfl (by decide) fun p h => by
      simp [language, Language.python, Language.Python.pattern, h]
  | java =>
    exact .of_kind rfl (by decide) fun p h => by
      simp [language, Language.java, Language.Java.pattern, h]
  | cSharp =>
    exact .of_kind rfl (by decide) fun p h => by
      simp [language, Language.cSharp, Language.CSharp.pattern, h]
  | javaScript =>
    exact .of_kind rfl (by decide) fun p h => by
      simp [language, Language.javaScript, Language.JavaScript.pattern, h]
  | php =>
    exact .of_kind rfl (by decide) fun p h => by
      simp [language, Language.php, Language.Php.pattern, h]
  | ruby =>
    exact .of_kind rfl (by decide) fun p h => by
      simp [language, Language.ruby, Language.Ruby.pattern, h]
  | go =>
    exact .of_kind rfl (by decide) fun p h => by
      simp [language, Language.go, Language.Go.pattern, h]

namespace Setup

variable {s : Setup}

theorem exists_intact_of_resolveAll {w : Walkers} {ps : List Place} {live : LiveDefs}
    (h : (w.resolveAll ps live).Intact) : ∀ p ∈ ps, ∃ live, (w.resolve p live).Intact := by
  induction ps generalizing live with
  | nil => exact List.forall_mem_nil _
  | cons p ps ih =>
    obtain ⟨hfirst, hrest⟩ := h.of_bind
    exact List.forall_mem_cons.mpr ⟨⟨live, hfirst⟩, ih hrest.of_bind.1⟩

/-- **A chain that is read as a value without a cut is a chain for every larger budget, and
what is none stays none.** -/
theorem isChain_eq_of_intact (hs : s.language.ReadsThroughChains) {budget budget' : Nat}
    (hle : budget ≤ budget') {p : Place} {live : LiveDefs}
    (h : (s.resolve budget p live).Intact) : s.isChain budget p = s.isChain budget' p := by
  induction budget generalizing budget' p live with
  | zero => exact absurd h not_intact_cut
  | succ budget ih =>
    obtain ⟨budget', rfl⟩ := Nat.exists_eq_add_of_le' (Nat.le_of_add_left_le hle)
    have hle : budget ≤ budget' := by omega
    rw [isChain, isChain]
    split
    · rfl
    · rename_i htoken
      cases haccess : s.language.memberAccess.contains p.kind with
      | false => rfl
      | true =>
        -- member access is read child by child, so no child of it was cut
        obtain ⟨hcomment, hplain⟩ := hs p haccess
        rw [resolve_succ, resolveStep_of_construct hcomment (Bool.eq_false_iff.mpr htoken),
          hplain] at h
        have hchildren : ∀ q ∈ p.children, s.isChain budget q = s.isChain budget' q := by
          intro q hq
          obtain ⟨live, hlive⟩ := exists_intact_of_resolveAll h q hq
          exact ih hle hlive
        rw [Bool.true_and, Bool.true_and]
        rw [Bool.eq_iff_iff, List.all_eq_true, List.all_eq_true]
        exact forall₂_congr fun q hq => by rw [hchildren q hq]

theorem isReference_eq_of_intact (hs : s.language.ReadsThroughChains) {budget budget' : Nat}
    (hle : budget ≤ budget') {p : Place} {live : LiveDefs}
    (h : (s.resolve budget p live).Intact) :
    s.isReference budget p = s.isReference budget' p := by
  rw [isReference, isReference, isChain_eq_of_intact hs hle h]

/-! ## Larger limits -/

variable (s) in
/-- The setup with another limit. -/
def withLimit (limit : Nat) : Setup := { s with limit }

/-- The walks with a smaller and a larger limit, as long as the first is not cut. -/
abbrev sameUnlessCut : WalkRelation :=
  .unlessCut Eq fun _ => False

/-- At a single place, the limit makes no difference. -/
theorem reads_withLimit (d d' : Nat) (p : Place) :
    sameUnlessCut.Reads (s.withLimit d) (s.withLimit d') p p where
  comment := rfl
  token _ := rfl
  leaf _ _ _ := ⟨.refl (fun _ _ => rfl) fun _ _ => rfl, rfl, rfl⟩

/-- **A walk that is not cut does what it does with every larger limit.** -/
theorem related_withLimit (hs : s.language.ReadsThroughChains) (d d' : Nat) {budget budget' : Nat}
    (hle : budget ≤ budget') :
    ((s.withLimit d).walkers budget).Related sameUnlessCut ((s.withLimit d').walkers budget') := by
  induction budget generalizing budget' with
  | zero =>
    exact ⟨fun _ _ h => absurd h not_intact_cut, fun _ _ h => absurd h not_intact_cut,
      fun _ h => absurd h not_intact_cut, fun h => h.elim, fun h => h.elim, fun h => h.elim⟩
  | succ budget ih =>
    obtain ⟨budget', rfl⟩ := Nat.exists_eq_add_of_le' (Nat.le_of_add_left_le hle)
    have ih := @ih budget' (by omega)
    have hpattern : ∀ p, sameUnlessCut.Patterns (s.language.pattern p) (s.language.pattern p) :=
      fun _ => .refl (fun _ _ => rfl) fun _ _ => rfl
    refine ⟨fun {p q l l'} hpq h => ?_, fun {p q l l'} hpq h => ?_, fun {p q} hpq => ?_,
      fun h => h.elim, fun h => h.elim, fun h => h.elim⟩
    · subst hpq
      exact (reads_withLimit d d' p).visitStep WalkRelation.seesItself_unlessCut h fun _ _ =>
        ih.visitPattern (hpattern p) (.refl fun _ _ => rfl) h
    · subst hpq
      intro hintact
      obtain ⟨hvalue, hsame⟩ := (reads_withLimit d d' p).resolveStep h (fun _ _ =>
        ih.resolvePattern (hpattern p) (.refl fun _ _ => rfl) h) hintact
      refine ⟨⟨hvalue.1, hvalue.2, ?_⟩, hsame⟩
      have hreference := isReference_eq_of_intact (s := s.withLimit d) hs hle hintact
      have hlanguage : (s.withLimit d).language = (s.withLimit d').language := rfl
      exact hreference.trans (congrFun (isReference_congr hlanguage _) p)
    · subst hpq
      exact (reads_withLimit d d' p).targets fun _ _ => ih.allTargets (.refl fun _ _ => rfl)

/-- **A limit matters only where it is reported.**  If an analysis reports nothing nested
too deep, then every larger limit gives the very same graph: the same edges with the same
relations, the same live definitions, the same degradations. -/
theorem graph_withLimit (s : Setup) (hs : ∃ tag : Tag, s.language = tag.language) (root : Place)
    (live : LiveDefs) {d d' : Nat} (hd : d ≤ d')
    (h : ∀ x ∈ ((s.withLimit d).graph root live).degradations, x.isCut = false) :
    (s.withLimit d').graph root live = (s.withLimit d).graph root live := by
  obtain ⟨tag, htag⟩ := hs
  have hchains : s.language.ReadsThroughChains := htag ▸ tag.readsThroughChains
  have hbudget : (s.withLimit d).budget ≤ (s.withLimit d').budget := Nat.succ_le_succ hd
  have hintact : ((s.withLimit d).visit (s.withLimit d).budget root live).Intact :=
    fun x hx => h x (List.mem_eraseDups.mpr hx)
  obtain ⟨hvalue, hedges, hdegradations⟩ :=
    (related_withLimit hchains d d' hbudget).visit (p := root) rfl (rfl : live = live) hintact
  show Graph.mk _ _ _ = Graph.mk _ _ _
  exact (congr (congrArg₂ Graph.mk hedges hvalue) (congrArg List.eraseDups hdegradations)).symm

end Setup

/-! ## A copy at the limit -/

namespace ChainCopy

/-- `x = o.p`, of which the two names of the chain are nested deepest. -/
def root : Place :=
  .root <| .onLine 0 "assignment" true none 0 7 [
    .onLine 1 "identifier" true (some "left") 0 1 [],
    .onLine 2 "=" false none 2 3 [],
    .onLine 3 "attribute" true (some "right") 4 7 [
      .onLine 4 "identifier" true (some "object") 4 5 [],
      .onLine 5 "." false none 5 6 [],
      .onLine 6 "identifier" true (some "attribute") 6 7 []]]

def setup : Setup where
  language := Language.python
  tokens := .ofList [(⟨⟨0, 0⟩, ⟨0, 1⟩⟩, "x"), (⟨⟨0, 4⟩, ⟨0, 5⟩⟩, "o"), (⟨⟨0, 6⟩, ⟨0, 7⟩⟩, "p")]

end ChainCopy

namespace Setup

/-- A limit that is just met gives the graph of the usual limit: `x` copies a chain. -/
theorem graph_withLimit_chainCopy :
    (∀ x ∈ ((ChainCopy.setup.withLimit 2).graph ChainCopy.root .empty).degradations,
      x.isCut = false) ∧
    ((ChainCopy.setup.withLimit 512).graph ChainCopy.root .empty).edges =
      [.ofSources "x" 0 .comesFrom [⟨"o", 1⟩, ⟨"p", 2⟩]] := by
  have hwhole : ∀ x ∈ ((ChainCopy.setup.withLimit 2).graph ChainCopy.root .empty).degradations,
      x.isCut = false := by decide
  have hsame := graph_withLimit ChainCopy.setup ⟨.python, rfl⟩ ChainCopy.root .empty
    (show 2 ≤ 512 by decide) hwhole
  refine ⟨hwhole, ?_⟩
  rw [hsame]
  decide

-- with a lower limit `x` is computed, and the cut is reported
example : ((ChainCopy.setup.withLimit 1).graph ChainCopy.root .empty).edges =
      [.ofSources "x" 0 .computedFrom []] ∧
    ((ChainCopy.setup.withLimit 1).graph ChainCopy.root .empty).degradations.any (·.isCut) := by
  decide

end Setup

end TokenFlow
