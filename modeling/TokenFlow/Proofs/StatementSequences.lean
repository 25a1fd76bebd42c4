import TokenFlow.Proofs.DepthLimit
import TokenFlow.Proofs.Passes

/-!
# Statements one by one

A node without a pattern of its own is read child by child.  `Setup.graph_eq_joined` says that
the children may as well be analysed one after the other, each from what the one before it
leaves: joined, their graphs are the graph of the whole.

Analysed by itself, a child stands at the root, one level higher than in the whole.  That it
is read alike from there is `Setup.related_withLimit`, with the same limit on both sides and
one more level to spend: a limit matters only where it is reported.
-/
namespace TokenFlow

/-- Repetitions that were removed do not come back. -/
theorem eraseDups_eraseDups {α : Type} [BEq α] [LawfulBEq α] (xs : List α) :
    xs.eraseDups.eraseDups = xs.eraseDups := by
  induction hn : xs.length using Nat.strongRecOn generalizing xs with
  | ind n ih =>
    cases xs with
    | nil => rfl
    | cons x xs =>
      have hlt : (xs.filter fun y => !y == x).length < n := by
        have := List.length_filter_le (fun y => !y == x) xs
        rw [List.length_cons] at hn
        omega
      have hfree : (xs.filter fun y => !y == x).eraseDups.filter (fun y => !y == x) =
          (xs.filter fun y => !y == x).eraseDups := by
        rw [← eraseDups_filter, List.filter_filter]
        simp only [Bool.and_self]
      rw [List.eraseDups_cons, List.eraseDups_cons, hfree, ih _ hlt _ rfl]

namespace Graph

/-- What a finished walk found. -/
def ofWalk (walked : Traced LiveDefs) : Graph where
  edges := walked.edges
  live := walked.value
  degradations := walked.degradations.eraseDups

/-- The graphs of several trees as one: their edges in order, the live definitions that the
last one leaves, and what any of them could not do. -/
def joined (seed : LiveDefs) (graphs : List Graph) : Graph where
  edges := graphs.flatMap (·.edges)
  live := (graphs.getLast?.map (·.live)).getD seed
  degradations := (graphs.flatMap (·.degradations)).eraseDups

/-- The graphs that follow the first one start from what it leaves. -/
theorem joined_ofWalk_cons (seed : LiveDefs) {first rest : Traced LiveDefs} {graphs : List Graph}
    (h : joined first.value graphs = ofWalk rest) :
    joined seed (ofWalk first :: graphs) = ofWalk (first >>= fun _ => rest) := by
  simp only [joined, ofWalk, Graph.mk.injEq] at h ⊢
  obtain ⟨hedges, hlive, hdegradations⟩ := h
  refine ⟨?_, ?_, ?_⟩
  · rw [List.flatMap_cons, hedges, Traced.edges_bind]
  · rw [List.getLast?_cons, Traced.value_bind, ← hlive]
    cases graphs.getLast? <;> rfl
  · rw [List.flatMap_cons, Traced.degradations_bind]
    exact eraseDups_append_congr (eraseDups_eraseDups _) hdegradations

end Graph

namespace Setup

variable {s : Setup}

/-- A place that is read without a cut is read alike from the root. -/
theorem graph_of_intact (hs : s.language.ReadsThroughChains) {budget : Nat}
    (hle : budget ≤ s.budget) {p : Place} {live : LiveDefs}
    (h : (s.visit budget p live).Intact) :
    s.graph p live = .ofWalk (s.visit budget p live) := by
  have hsame := (related_withLimit (s := s) hs s.limit s.limit hle).visit (p := p) rfl
    (rfl : live = live) h
  obtain ⟨hvalue, hedges, hdegradations⟩ := hsame
  show Graph.mk _ _ _ = Graph.mk _ _ _
  exact (congr (congrArg₂ Graph.mk hedges hvalue) (congrArg List.eraseDups hdegradations)).symm

/-- **A sequence that is read without a cut is analysed place by place.** -/
theorem joined_chain_of_intact (hs : s.language.ReadsThroughChains) {budget : Nat}
    (hle : budget ≤ s.budget) (ps : List Place) (live : LiveDefs)
    (h : ((s.walkers budget).visitAll ps live).Intact) :
    Graph.joined live (Graph.chain (ps.map (s, ·)) live) =
      .ofWalk ((s.walkers budget).visitAll ps live) := by
  induction ps generalizing live with
  | nil => rfl
  | cons p ps ih =>
    obtain ⟨hfirst, hrest⟩ := h.of_bind
    have hp : s.graph p live = .ofWalk ((s.walkers budget).visit p live) :=
      graph_of_intact hs hle hfirst
    rw [List.map_cons, Graph.chain, hp]
    exact Graph.joined_ofWalk_cons live (ih _ hrest)

/-- **Chaining is analysing together.**  If nothing is reported as nested too deep, the graph
of a node without a pattern of its own is that of its children, analysed one after the other. -/
theorem graph_eq_joined (s : Setup) (hs : ∃ tag : Tag, s.language = tag.language) (root : Place)
    (seed : LiveDefs) (hcomment : s.language.isComment root.kind = false)
    (htoken : s.language.isToken root.node = false)
    (hplain : s.language.pattern root = .plain)
    (hwhole : ∀ d ∈ (s.graph root seed).degradations, d.isCut = false) :
    s.graph root seed = Graph.joined seed (Graph.chain (root.children.map (s, ·)) seed) := by
  obtain ⟨tag, htag⟩ := hs
  have hchains : s.language.ReadsThroughChains := htag ▸ tag.readsThroughChains
  have hwalk : s.visit s.budget root seed = (s.walkers s.limit).visitAll root.children seed := by
    rw [budget, visit_succ, visitStep_of_construct hcomment htoken, hplain]
    rfl
  have hintact : ((s.walkers s.limit).visitAll root.children seed).Intact := by
    intro d hd
    rw [← hwalk] at hd
    exact hwhole d (List.mem_eraseDups.mpr hd)
  have hle : s.limit ≤ s.budget := Nat.le_succ s.limit
  calc s.graph root seed
    _ = .ofWalk (s.visit s.budget root seed) := rfl
    _ = .ofWalk ((s.walkers s.limit).visitAll root.children seed) := by rw [hwalk]
    _ = Graph.joined seed (Graph.chain (root.children.map (s, ·)) seed) :=
      (joined_chain_of_intact hchains hle root.children seed hintact).symm

end Setup

/-! ## Two copies -/

namespace TwoCopies

/-- `x = a; y = x` -/
def root : Place :=
  .root <| .onLine 0 "module" true none 0 12 [
    .onLine 1 "assignment" true none 0 5 [
      .onLine 2 "identifier" true (some "left") 0 1 [],
      .onLine 3 "=" false none 2 3 [],
      .onLine 4 "identifier" true (some "right") 4 5 []],
    .onLine 5 ";" false none 5 6 [],
    .onLine 6 "assignment" true none 7 12 [
      .onLine 7 "identifier" true (some "left") 7 8 [],
      .onLine 8 "=" false none 9 10 [],
      .onLine 9 "identifier" true (some "right") 11 12 []]]

def setup : Setup where
  language := Language.python
  tokens := .ofTree Language.python "x = a; y = x".toUTF8 root.node
  limit := 2

end TwoCopies

namespace Setup

/-- The second copy, analysed by itself, draws from what the first one leaves. -/
theorem graph_eq_joined_twoCopies :
    (∀ d ∈ (TwoCopies.setup.graph TwoCopies.root .empty).degradations, d.isCut = false) ∧
    (Graph.joined .empty
      (Graph.chain (TwoCopies.root.children.map (TwoCopies.setup, ·)) .empty)).edges =
      [.ofSources "x" 0 .comesFrom [⟨"a", 2⟩], .ofSources "y" 4 .comesFrom [⟨"x", 0⟩]] := by
  have hwhole : ∀ d ∈ (TwoCopies.setup.graph TwoCopies.root .empty).degradations,
      d.isCut = false := by decide +kernel
  have hsame := graph_eq_joined TwoCopies.setup ⟨.python, rfl⟩ TwoCopies.root .empty
    (by decide) (by decide) rfl hwhole
  refine ⟨hwhole, ?_⟩
  rw [← hsame]
  decide +kernel

end Setup

end TokenFlow
