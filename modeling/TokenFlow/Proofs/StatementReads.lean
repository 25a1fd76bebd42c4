import TokenFlow.Analysis.Graph
import TokenFlow.Proofs.EdgeSlots
import TokenFlow.Proofs.WalkEffects
import TokenFlow.Proofs.WalkSpecs

/-!
# Names that are read as statements

Trees that are read one after the other, each with tokens of its own, are linked by the live
definitions that one leaves to the next.  `Graph.chain_linked` says when a name gets its link: a
name that is read as a statement, wherever in its tree, has an edge from the definitions that the
trees before left, *unless its number is the only one of these*.  Numbers of different trees say
nothing of each other, so that exception is met by accident (`Graph.chain_not_linked`).

Which names a walk comes to read as statements, and with which live definitions, is said by the
walk itself: a pattern reads its parts in some order, each from what the part before it leaves
(`Walkers.inStatement`, `Walkers.inValue`), and so on down the tree (`Setup.ReadsToken`).  Edges
are only ever put behind others or folded, so those of a part are covered by those of the whole
(`Walkers.Performs`), and so are those of a name that is read far below.
-/
namespace TokenFlow

/-! ## The readings that a construct makes -/

/-- A place that is read, as a statement or as a value, while some definitions are live. -/
inductive Reading where
  | statement (p : Place) (live : LiveDefs)
  | value (p : Place) (live : LiveDefs)

namespace Walkers

variable (w : Walkers)

/-- The edges that a reading brings up. -/
def edgesOf : Reading → List Edge
  | .statement p live => (w.visit p live).edges
  | .value p live => (w.resolve p live).edges

/-- Places that are read as statements, each from what the one before it leaves. -/
def statements : List Place → LiveDefs → List Reading
  | [], _ => []
  | p :: ps, live => .statement p live :: statements ps (w.visit p live).value

/-- Places that are read as values, each from what the one before it leaves. -/
def values : List Place → LiveDefs → List Reading
  | [], _ => []
  | p :: ps, live => .value p live :: values ps (w.resolve p live).value.1

/-- What so many rounds read, each from what the one before it leaves. -/
def inRounds (readings : LiveDefs → List Reading) (round : LiveDefs → Traced LiveDefs) :
    Nat → LiveDefs → List Reading
  | 0, _ => []
  | n + 1, live => readings live ++ inRounds readings round n (round live).value

/-- What a conditional reads: every arm from what the condition leaves. -/
def inBranch (b : Branch) (live : LiveDefs) : List Reading :=
  w.statements b.condition live ++
    b.arms.flatMap fun arm => w.statements arm (w.visitAll b.condition live).value

/-- What one round of an iteration reads. -/
def inRound (i : Iteration) (live : LiveDefs) : List Reading :=
  w.values i.iterable.toList live ++
    w.statements i.body ((w.resolveAll i.iterable.toList live).value.1.bindAll
      (w.tokensOf i.targets))

/-- What an iteration reads. -/
def inIteration (passes : Nat) (i : Iteration) (live : LiveDefs) : List Reading :=
  inRounds (w.inRound i) (w.round i) passes live ++
    w.statements i.tail (rounds (w.round i) passes live).value

/-- What a loop reads. -/
def inLoop (passes : Nat) (l : Loop) (live : LiveDefs) : List Reading :=
  let start := (w.visitAll l.setup live).value
  w.statements l.setup live ++
    (inRounds (w.statements l.repeated) (w.visitAll l.repeated) passes start ++
      w.statements l.tail (rounds (w.visitAll l.repeated) passes start).value)

/-- What parameters read: their fallbacks, each with the parameters before it bound. -/
def inParameters : List Parameter → LiveDefs → List Reading
  | [], _ => []
  | q :: qs, scope =>
    w.values q.fallback.toList scope ++
      inParameters qs (w.bind ⟨.declaration, [q.name], q.fallback.toList⟩ scope).value.1

/-- What a definition reads, in a scope of its own. -/
def inDefinition (d : Definition) : List Reading :=
  w.inParameters d.parameters .empty ++
    w.statements d.body (w.bindParameters d.parameters .empty).value

/-- What a pattern reads where it is met as a statement. -/
def inStatement (passes : Nat) (pattern : Pattern) (p : Place) (live : LiveDefs) : List Reading :=
  match pattern with
  | .binding b => w.values b.values live
  | .update _ => []
  | .branch b => w.inBranch b live
  | .iteration i => w.inIteration passes i live
  | .loop l => w.inLoop passes l live
  | .definition d => w.inDefinition d
  | .sequence first rest => w.statements (first ++ rest) live
  | .plain => w.statements p.children live

/-- What a pattern reads where it is met as a value. -/
def inValue (passes : Nat) (pattern : Pattern) (p : Place) (live : LiveDefs) : List Reading :=
  match pattern with
  | .binding b => w.values b.values live
  | .update _ => []
  | .iteration i => w.inIteration passes i live
  | .definition d => w.inDefinition d
  | .sequence first rest => w.values (first ++ rest) live
  | _ => w.values p.children live

/-! ## The edges of what is read -/

/-- The edges of a computation cover those of some readings. -/
def Performs {α : Type} (x : Traced α) (readings : List Reading) : Prop :=
  ∀ r ∈ readings, ∀ e ∈ w.edgesOf r, Edge.Covered x.edges e

namespace Performs

variable {w} {α β : Type} {x : Traced α} {f : α → Traced β} {rs rs' : List Reading}

theorem nil (x : Traced α) : w.Performs x [] :=
  fun _ hr => nomatch hr

theorem visit (p : Place) (live : LiveDefs) : w.Performs (w.visit p live) [.statement p live] := by
  intro r hr e he
  rw [List.mem_singleton.mp hr] at he
  exact Edge.covered_of_mem he

theorem resolve (p : Place) (live : LiveDefs) :
    w.Performs (w.resolve p live) [.value p live] := by
  intro r hr e he
  rw [List.mem_singleton.mp hr] at he
  exact Edge.covered_of_mem he

theorem of_subset {y : Traced β} (h : w.Performs x rs) (hsub : x.edges ⊆ y.edges) :
    w.Performs y rs := fun r hr e he =>
  (h r hr e he).trans fun _ hd => Edge.covered_of_mem (hsub hd)

/-- What is done first is done by the whole. -/
theorem before (h : w.Performs x rs) : w.Performs (x >>= f) rs :=
  h.of_subset (List.subset_append_left _ _)

/-- What is done next is done by the whole. -/
theorem after (h : w.Performs (f x.value) rs) : w.Performs (x >>= f) rs :=
  h.of_subset (List.subset_append_right _ _)

theorem append (h : w.Performs x rs) (h' : w.Performs x rs') : w.Performs x (rs ++ rs') :=
  fun r hr => (List.mem_append.mp hr).elim (h r) (h' r)

theorem bind (h : w.Performs x rs) (h' : w.Performs (f x.value) rs') :
    w.Performs (x >>= f) (rs ++ rs') :=
  h.before.append h'.after

/-- Folding loses nothing that is read. -/
theorem fold (h : w.Performs x rs) : w.Performs (x.mapEdges Edge.fold) rs :=
  fun r hr e he => (h r hr e he).trans fun _ hd => Edge.covered_fold hd

end Performs

variable {w}

theorem performs_visitAll (ps : List Place) (live : LiveDefs) :
    w.Performs (w.visitAll ps live) (w.statements ps live) := by
  induction ps generalizing live with
  | nil => exact .nil _
  | cons p ps ih => exact (Performs.visit p live).bind (ih _)

theorem performs_resolveAll (ps : List Place) (live : LiveDefs) :
    w.Performs (w.resolveAll ps live) (w.values ps live) := by
  induction ps generalizing live with
  | nil => exact .nil _
  | cons p ps ih => exact (Performs.resolve p live).bind (ih _).before

theorem performs_readValues (ps : List Place) (live : LiveDefs) :
    w.Performs (w.readValues ps live) (w.values ps live) := by
  induction ps generalizing live with
  | nil => exact .nil _
  | cons p ps ih => exact (Performs.resolve p live).bind (ih _).before

theorem performs_bind (b : Binding) (live : LiveDefs) :
    w.Performs (w.bind b live) (w.values b.values live) :=
  (performs_readValues b.values live).before

theorem performs_armOutcomes (arms : List (List Place)) (live : LiveDefs) :
    w.Performs (w.armOutcomes arms live) (arms.flatMap fun arm => w.statements arm live) := by
  induction arms with
  | nil => exact .nil _
  | cons arm arms ih => exact (performs_visitAll arm live).bind ih.before

theorem performs_branch (b : Branch) (live : LiveDefs) :
    w.Performs (w.branch b live) (w.inBranch b live) :=
  (performs_visitAll b.condition live).bind (performs_armOutcomes b.arms _).before

theorem performs_rounds {readings : LiveDefs → List Reading} {round : LiveDefs → Traced LiveDefs}
    (hround : ∀ live, w.Performs (round live) (readings live)) (n : Nat) (live : LiveDefs) :
    w.Performs (rounds round n live) (inRounds readings round n live) := by
  induction n generalizing live with
  | zero => exact .nil _
  | succ n ih => exact (hround live).bind (ih _)

theorem performs_round (i : Iteration) (live : LiveDefs) :
    w.Performs (w.round i live) (w.inRound i live) := by
  rw [inRound, ← value_allTargets]
  refine (performs_resolveAll _ live).bind ?_
  -- finding the targets and bringing up their edges reads nothing
  refine .after (.after ?_)
  exact performs_visitAll i.body _

theorem performs_iterate (passes : Nat) (i : Iteration) (live : LiveDefs) :
    w.Performs (w.iterate passes i live) (w.inIteration passes i live) := by
  refine .after ?_
  exact (performs_rounds (performs_round i) passes live).fold.bind
    (performs_visitAll i.tail _).before

theorem performs_loop (passes : Nat) (l : Loop) (live : LiveDefs) :
    w.Performs (w.loop passes l live) (w.inLoop passes l live) :=
  (performs_visitAll l.setup live).bind
    ((performs_rounds (performs_visitAll l.repeated) passes _).fold.bind
      (performs_visitAll l.tail _))

theorem performs_bindParameters (qs : List Parameter) (scope : LiveDefs) :
    w.Performs (w.bindParameters qs scope) (w.inParameters qs scope) := by
  induction qs generalizing scope with
  | nil => exact .nil _
  | cons q qs ih => exact (performs_bind _ scope).bind (ih _)

theorem performs_define (d : Definition) (live : LiveDefs) :
    w.Performs (w.define d live) (w.inDefinition d) := by
  refine .after ?_
  exact (performs_bindParameters d.parameters .empty).bind (performs_visitAll d.body _).before

/-- A pattern that is met as a statement performs all that it reads. -/
theorem performs_visitPattern (passes : Nat) (pattern : Pattern) (p : Place) (live : LiveDefs) :
    w.Performs (w.visitPattern passes pattern p live) (w.inStatement passes pattern p live) := by
  cases pattern with
  | binding b => exact (performs_bind b live).before
  | update => exact .nil _
  | branch b => exact performs_branch b live
  | iteration i => exact performs_iterate passes i live
  | loop l => exact performs_loop passes l live
  | definition d => exact performs_define d live
  | sequence first rest => exact performs_visitAll (first ++ rest) live
  | plain => exact performs_visitAll p.children live

/-- A pattern that is met as a value performs all that it reads. -/
theorem performs_resolvePattern (passes : Nat) (pattern : Pattern) (p : Place)
    (live : LiveDefs) :
    w.Performs (w.resolvePattern passes pattern p live) (w.inValue passes pattern p live) := by
  cases pattern with
  | binding b => exact (performs_bind b live).before
  | update => exact .nil _
  | branch | loop | plain => exact performs_resolveAll p.children live
  | iteration i => exact (performs_iterate passes i live).before
  | definition d => exact (performs_define d live).before
  | sequence first rest => exact performs_resolveAll (first ++ rest) live

end Walkers

/-! ## Tokens that are read as statements -/

namespace Setup

variable (s : Setup)

/-- What a reading reads on the next level, with a budget left for it. -/
def nested (budget : Nat) : Reading → List Reading
  | .statement p live =>
    if s.language.isComment p.kind || s.language.isToken p.node then []
    else (s.walkers budget).inStatement s.passes (s.language.pattern p) p live
  | .value p live =>
    if s.language.isComment p.kind || s.language.isToken p.node then []
    else (s.walkers budget).inValue s.passes (s.language.pattern p) p live

/-- Some reading with a budget comes to read a token as a statement while some definitions are
live. -/
inductive ReadsToken : Nat → Reading → Place → LiveDefs → Prop
  | here {budget : Nat} {p : Place} {live : LiveDefs}
      (hcomment : s.language.isComment p.kind = false) (htoken : s.language.isToken p.node = true) :
      ReadsToken (budget + 1) (.statement p live) p live
  | deeper {budget : Nat} {r r' : Reading} {p : Place} {live : LiveDefs}
      (hnested : r' ∈ s.nested budget r) (h : ReadsToken budget r' p live) :
      ReadsToken (budget + 1) r p live

variable {s}

/-- **One level down.**  The edges of a reading cover those of what it reads on the next level. -/
theorem covered_of_nested {budget : Nat} {r r' : Reading} (h : r' ∈ s.nested budget r) :
    ∀ e ∈ (s.walkers budget).edgesOf r', Edge.Covered ((s.walkers (budget + 1)).edgesOf r) e := by
  cases r with
  | statement p live =>
    show ∀ e ∈ _, Edge.Covered (s.visit (budget + 1) p live).edges e
    rw [nested] at h
    split at h
    case isTrue => exact nomatch h
    case isFalse hconstruct =>
      rw [Bool.not_eq_true, Bool.or_eq_false_iff] at hconstruct
      rw [visit_succ, visitStep_of_construct hconstruct.1 hconstruct.2]
      exact Walkers.performs_visitPattern s.passes (s.language.pattern p) p live r' h
  | value p live =>
    show ∀ e ∈ _, Edge.Covered (s.resolve (budget + 1) p live).edges e
    rw [nested] at h
    split at h
    case isTrue => exact nomatch h
    case isFalse hconstruct =>
      rw [Bool.not_eq_true, Bool.or_eq_false_iff] at hconstruct
      rw [resolve_succ, resolveStep_of_construct hconstruct.1 hconstruct.2]
      exact Walkers.performs_resolvePattern s.passes (s.language.pattern p) p live r' h

/-- The edges of a reading cover those of every token that it comes to read as a statement. -/
theorem covered_of_readsToken {budget : Nat} {r : Reading} {p : Place} {live : LiveDefs}
    (h : s.ReadsToken budget r p live) :
    ∀ e ∈ (s.readToken p live).edges, Edge.Covered ((s.walkers budget).edgesOf r) e := by
  induction h with
  | @here budget p live hcomment htoken =>
    show ∀ e ∈ _, Edge.Covered (s.visit (budget + 1) p live).edges e
    rw [visit_succ, visitStep_of_token hcomment htoken]
    exact fun _ => Edge.covered_of_mem
  | deeper hnested _ ih => exact fun e he => (ih e he).trans (covered_of_nested hnested)

/-- A name that is read as a statement is linked to its live definitions, unless it is its own
only one. -/
theorem linked_of_readsToken {root p : Place} {start live : LiveDefs} {t : Token}
    {defs : List Nat} (hread : s.ReadsToken s.budget (.statement root start) p live)
    (hname : (s.leaf p).value = .name t) (hlive : live.get? t.text = some defs)
    (hdefs : defs ≠ [t.index]) :
    ∃ e ∈ (s.graph root start).edges, e.slot = (t.text, t.index, .comesFrom) ∧
      ∀ d ∈ defs, ⟨t.text, d⟩ ∈ e.sources := by
  have hedge : (s.readToken p live).edges =
      [.ofSources t.text t.index .comesFrom (Source.ofDefs t.text defs)] := by
    rw [edges_readToken, hname]
    simp only [LiveDefs.reads, hlive, if_neg hdefs]
  obtain ⟨e, he, hslot, hsources⟩ :=
    covered_of_readsToken hread _ (hedge ▸ List.mem_singleton_self _)
  refine ⟨e, he, hslot, fun d hd => hsources ?_⟩
  rw [Edge.mem_sources_ofSources]
  exact List.mem_map.mpr ⟨d, hd, rfl⟩

end Setup

/-! ## Chains -/

namespace Graph

/-- The live definitions that a chain of trees leaves. -/
def leftBy : List (Setup × Place) → LiveDefs → LiveDefs
  | [], live => live
  | (s, root) :: rest, live => leftBy rest (s.graph root live).live

/-- A chain goes on from what its first trees leave. -/
theorem chain_append (before after : List (Setup × Place)) (live : LiveDefs) :
    chain (before ++ after) live = chain before live ++ chain after (leftBy before live) := by
  induction before generalizing live with
  | nil => rfl
  | cons step before ih => exact congrArg (_ :: ·) (ih _)

theorem length_chain (steps : List (Setup × Place)) (live : LiveDefs) :
    (chain steps live).length = steps.length := by
  induction steps generalizing live with
  | nil => rfl
  | cons step steps ih => exact congrArg (· + 1) (ih _)

/-- **Chains keep their links.**  In every tree of a chain, whatever its tokens, a name that is
read as a statement while its live definitions are those that the trees before left has an edge
from all of them, unless its number is the only one of these. -/
theorem chain_linked (before after : List (Setup × Place)) (s : Setup) (root : Place)
    (seed : LiveDefs) :
    ∃ g, (chain (before ++ (s, root) :: after) seed)[before.length]? = some g ∧
      ∀ p live t defs, s.ReadsToken s.budget (.statement root (leftBy before seed)) p live →
        (s.leaf p).value = .name t → (leftBy before seed).get? t.text = some defs →
        live.get? t.text = (leftBy before seed).get? t.text → defs ≠ [t.index] →
        ∃ e ∈ g.edges, e.slot = (t.text, t.index, .comesFrom) ∧
          ∀ d ∈ defs, ⟨t.text, d⟩ ∈ e.sources := by
  refine ⟨s.graph root (leftBy before seed), ?_, ?_⟩
  · rw [chain_append, List.getElem?_append_right (Nat.le_of_eq (length_chain before seed)),
      length_chain, Nat.sub_self]
    rfl
  · intro p live t defs hread hname hinherited hlive hdefs
    exact Setup.linked_of_readsToken hread hname (hlive.trans hinherited) hdefs

end Graph

namespace LinkedLines

/-- A line with its own tokens. -/
def line (source : String) (root : Place) : Setup × Place :=
  ({ language := Language.python, tokens := .ofTree Language.python source.toUTF8 root.node }, root)

/-- `x = 1`, which leaves `x` with the token 0. -/
def define : Setup × Place :=
  line "x = 1" <| .root <| .onLine 0 "module" true none 0 5 [
    .onLine 1 "expression_statement" true none 0 5 [
      .onLine 2 "assignment" true none 0 5 [
        .onLine 3 "identifier" true (some "left") 0 1 [],
        .onLine 4 "=" false none 2 3 [],
        .onLine 5 "integer" true (some "right") 4 5 []]]]

/-- `1 + x`, which leaves `x` with the token 2. -/
def add : Setup × Place :=
  line "1 + x" <| .root <| .onLine 0 "module" true none 0 5 [
    .onLine 1 "expression_statement" true none 0 5 [
      .onLine 2 "binary_operator" true none 0 5 [
        .onLine 3 "integer" true (some "left") 0 1 [],
        .onLine 4 "+" false (some "operator") 2 3 [],
        .onLine 5 "identifier" true (some "right") 4 5 []]]]

/-- `x`, which is the token 0. -/
def name : Setup × Place :=
  line "x" <| .root <| .onLine 0 "module" true none 0 1 [
    .onLine 1 "expression_statement" true none 0 1 [
      .onLine 2 "identifier" true none 0 1 []]]

/-- The place of the name. -/
def place : Place := name.2.children[0].children[0]

def token : Token := ⟨0, "x", ⟨⟨0, 0⟩, ⟨0, 1⟩⟩⟩

theorem leaf_place : (name.1.leaf place).value = .name token := by
  have hfound : name.1.tokens.find? place.node.span = some token := by decide +kernel
  rw [Setup.value_leaf, hfound]
  rfl

/-- Whatever is live before the line, the name is read as a statement with that. -/
theorem readsToken_place (start : LiveDefs) :
    name.1.ReadsToken name.1.budget (.statement name.2 start) place start := by
  have hline : .statement name.2.children[0] start ∈ name.1.nested 512 (.statement name.2 start) :=
    List.mem_singleton.mpr rfl
  have hname : .statement place start ∈
      name.1.nested 511 (.statement name.2.children[0] start) :=
    List.mem_singleton.mpr rfl
  exact .deeper hline (.deeper hname (.here rfl rfl))

end LinkedLines

namespace Graph

open LinkedLines

/-- After `1 + x` the name in `x` is linked to the token 2. -/
theorem chain_linked_add :
    ∃ g, (chain [add, name] .empty)[1]? = some g ∧
      ∃ e ∈ g.edges, e.slot = ("x", 0, .comesFrom) ∧ ⟨"x", 2⟩ ∈ e.sources := by
  obtain ⟨g, hg, hlinked⟩ := chain_linked [add] [] name.1 name.2 .empty
  obtain ⟨e, he, hslot, hsources⟩ := hlinked place _ token [2] (readsToken_place _) leaf_place
    (by decide +kernel) rfl (by decide)
  exact ⟨g, hg, e, he, hslot, hsources 2 List.mem_cons_self⟩

/-- After `x = 1` the name in `x` is not linked to anything, as its own number is that of the
token it should be linked to. -/
theorem chain_not_linked :
    name.1.ReadsToken name.1.budget (.statement name.2 (leftBy [define] .empty)) place
        (leftBy [define] .empty) ∧
      (name.1.leaf place).value = .name token ∧
      (leftBy [define] .empty).get? token.text = some [0] ∧
      (chain [define, name] .empty)[1]?.map (·.edges) = some [] :=
  ⟨readsToken_place _, leaf_place, by decide +kernel, by decide +kernel⟩

end Graph

end TokenFlow
