import TokenFlow.Proofs.EdgeSlots
import TokenFlow.Proofs.PatternParts
import TokenFlow.Proofs.Alternatives
import TokenFlow.Proofs.WalkSpecs

/-!
# What a walk can speak of

A `Vocabulary` says which places a walk may reach, which tokens it may define, which
definitions may be live and which sources may be drawn from, such that no step leads
out of it.  A walk that starts within a vocabulary stays within it: the live
definitions it leaves are known (`Knows`), and each edge it brings up defines a token
of the vocabulary from sources of the vocabulary, written down canonically (`Drawn`).
-/
namespace TokenFlow

/-- What a walk may reach, define, keep live and draw from. -/
structure Vocabulary (s : Setup) where
  place : Place → Prop
  token : Token → Prop
  live : Source → Prop
  source : Source → Prop
  child : ∀ {p q}, place p → q ∈ p.children → place q
  part : ∀ {p q}, place p → q ∈ (s.language.pattern p).parts → place q
  name : ∀ {p t}, place p → s.language.isComment p.kind = false →
    s.language.isToken p.node = true → (s.leaf p).value = .name t → token t
  literal : ∀ {p t}, place p → s.language.isComment p.kind = false →
    s.language.isToken p.node = true → (s.leaf p).value = .literal t → source t.source
  live_of_token : ∀ {t}, token t → live t.source
  source_of_live : ∀ {x}, live x → source x

namespace Vocabulary

variable {s : Setup} (v : Vocabulary s)

/-- Whatever is live may be. -/
def Knows (live : LiveDefs) : Prop :=
  ∀ name defs, live.get? name = some defs → ∀ d ∈ defs, v.live ⟨name, d⟩

/-- The edge defines a token of the vocabulary from sources of the vocabulary. -/
def Drawn (e : Edge) : Prop :=
  e.Canonical ∧ (∃ t, v.token t ∧ t.text = e.name ∧ t.index = e.index) ∧
    ∀ x ∈ e.sources, v.source x

theorem knows_empty : v.Knows .empty :=
  fun _ _ h => nomatch h

variable {v}

theorem drawn_ofSources {t : Token} (ht : v.token t) (relation : Relation) {sources : List Source}
    (h : ∀ x ∈ sources, v.source x) : v.Drawn (.ofSources t.text t.index relation sources) :=
  ⟨Edge.canonical_ofSources _ _ _ _, ⟨t, ht, rfl, rfl⟩,
    fun x hx => h x (Edge.mem_sources_ofSources.mp hx)⟩

theorem drawn_unite (f e : Edge) (hf : v.Drawn f) (he : v.Drawn e) (_ : f.slot = e.slot) :
    v.Drawn (f.unite e) := by
  refine ⟨Edge.canonical_unite f e, hf.2.1, fun x hx => ?_⟩
  exact (Edge.mem_sources_unite.mp hx).elim (hf.2.2 x) (he.2.2 x)

theorem source_ofDefs {live : LiveDefs} (h : v.Knows live) {name : String} {defs : List Nat}
    (hdefs : live.get? name = some defs) : ∀ x ∈ Source.ofDefs name defs, v.source x := by
  intro x hx
  obtain ⟨d, hd, rfl⟩ := List.mem_map.mp hx
  exact v.source_of_live (h name defs hdefs d hd)

theorem Knows.bind {live : LiveDefs} (h : v.Knows live) {t : Token} (ht : v.token t) :
    v.Knows (live.bind t.text t.index) := by
  intro name defs hdefs d hd
  rw [LiveDefs.get?_bind] at hdefs
  split at hdefs
  · rename_i heq
    cases hdefs
    rw [List.mem_singleton.mp hd, ← heq]
    exact v.live_of_token ht
  · exact h name defs hdefs d hd

theorem Knows.merge {alternatives : List LiveDefs} (h : ∀ live ∈ alternatives, v.Knows live) :
    v.Knows (.merge alternatives) := by
  intro name defs hdefs d hd
  rw [LiveDefs.get?_merge] at hdefs
  obtain ⟨found, hfound, hd⟩ := (LiveDefs.mem_of_unionOf hdefs).mp hd
  obtain ⟨live, hlive, hget⟩ := List.mem_map.mp hfound
  exact h live hlive name found hget d hd

theorem Knows.restore {live : LiveDefs} (h : v.Knows live) {name : String}
    {own : Option (List Nat)} (hown : ∀ defs, own = some defs → ∀ d ∈ defs, v.live ⟨name, d⟩) :
    v.Knows (live.restore name own) := by
  intro other defs hdefs d hd
  rw [LiveDefs.get?_restore] at hdefs
  split at hdefs
  · rename_i heq
    exact heq ▸ hown defs hdefs d hd
  · exact h other defs hdefs d hd

end Vocabulary

end TokenFlow
