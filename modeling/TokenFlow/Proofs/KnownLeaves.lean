import TokenFlow.Proofs.DepthLimit
import TokenFlow.Proofs.TreePlaces

/-!
# Every leaf that is read is a known token

Two things go through a tree by themselves: `Tokens.ofTree` lists the tokens from left to
right, and the analysis jumps from a construct to the parts that its table names.  They have
to agree on what a token is.  `Setup.unknownToken_not_mem_degradations` says that they do: an
analysis with the tokens of its own tree never meets a leaf that it does not know.

What the list of tokens leaves out is what stands inside a comment or inside a node that is
one token as a whole.  A place is `Exposed` if nothing above it is of that kind; an exposed
leaf is listed (`Language.mem_leaves_of_exposed`), and from an exposed place a walk gets to
exposed places only, as long as no part is named across a comment or an atom
(`Language.PartsExposed`).
-/
namespace TokenFlow

/-! ## Exposed places -/

namespace Language

variable (l : Language)

/-- Nothing above the place is a comment or one token as a whole. -/
inductive Exposed (root : Place) : Place → Prop
  | root : Exposed root root
  | child {p q : Place} (hp : Exposed root p) (hcomment : l.isComment p.kind = false)
      (hatom : l.isAtom p.kind = false) (hq : q ∈ p.children) : Exposed root q

/-- Between a construct and a part that the table names stands no comment and no node that
is one token as a whole. -/
def PartsExposed (root : Place) : Prop :=
  ∀ p : Place, p.Within root → l.isComment p.kind = false → l.isToken p.node = false →
    ∀ q ∈ (l.pattern p).parts, ∀ r : Place, p.HasBelow r → r.HasBelow q →
      l.isComment r.kind = false ∧ l.isAtom r.kind = false

variable {l} {root p q : Place}

/-- Whether parts are exposed can be told by the numbers of the places. -/
theorem PartsExposed.of_numbers
    (h : ∀ p ∈ root.places, ∀ q ∈ (l.pattern p).parts, ∀ r ∈ p.below,
      q.node.number ∈ r.below.map (·.node.number) →
        l.isComment r.kind = false ∧ l.isAtom r.kind = false) :
    l.PartsExposed root := by
  intro p hp _ _ q hq r hr hqr
  exact h p (Place.mem_places.mpr hp) q hq r hr.mem_below (List.mem_map_of_mem hqr.mem_below)

theorem Exposed.within (h : l.Exposed root p) : p.Within root := by
  induction h with
  | root => exact Or.inl rfl
  | child _ _ _ hq ih => exact ih.below (.child hq)

/-- What lies below an exposed place is exposed if nothing on the way is closed. -/
theorem Exposed.of_hasBelow (hp : l.Exposed root p) (hcomment : l.isComment p.kind = false)
    (hatom : l.isAtom p.kind = false) (hq : p.HasBelow q)
    (hbetween : ∀ r : Place, p.HasBelow r → r.HasBelow q →
      l.isComment r.kind = false ∧ l.isAtom r.kind = false) : l.Exposed root q := by
  induction hq with
  | child hq => exact .child hp hcomment hatom hq
  | deeper hq hr ih =>
    have hopen := hbetween _ hq (.child hr)
    have hexposed := ih fun r hpr hrq => hbetween r hpr (hrq.deeper hr)
    exact .child hexposed hopen.1 hopen.2 hr

/-! ## Exposed leaves are listed -/

theorem leaves_eq (n : Node) :
    l.leaves n =
      if l.isComment n.kind then []
      else if l.isToken n then if n.span.isEmpty then [] else [n]
      else l.leavesOfAll n.children := by
  obtain ⟨number, kind, named, field, first, beyond, span, children⟩ := n
  rw [leaves]
  rfl

theorem mem_leavesOfAll {ns : List Node} {m : Node} :
    m ∈ l.leavesOfAll ns ↔ ∃ n ∈ ns, m ∈ l.leaves n := by
  induction ns with
  | nil => simp [leavesOfAll]
  | cons n ns ih => simp [leavesOfAll, ih]

theorem Exposed.leaves_subset (h : l.Exposed root p) : l.leaves p.node ⊆ l.leaves root.node := by
  induction h with
  | root => exact List.Subset.refl _
  | @child p q _ hcomment hatom hq ih =>
    intro m hm
    apply ih
    obtain ⟨n, hn, rfl⟩ := List.mem_map.mp hq
    have htoken : l.isToken p.node = false := by
      simp only [isToken, Node.isLeaf, Bool.or_eq_false_iff, List.isEmpty_eq_false_iff]
      exact ⟨List.ne_nil_of_mem hn, hatom⟩
    rw [leaves_eq, hcomment, htoken]
    exact mem_leavesOfAll.mpr ⟨n, hn, hm⟩

/-- **An exposed leaf with text is among the tokens of the tree.** -/
theorem mem_leaves_of_exposed (h : l.Exposed root p) (hcomment : l.isComment p.kind = false)
    (htoken : l.isToken p.node = true) (hspan : p.node.span.isEmpty = false) :
    p.node ∈ l.leaves root.node := by
  apply h.leaves_subset
  rw [leaves_eq, hcomment, htoken, hspan]
  exact List.mem_singleton.mpr rfl

end Language

/-! ## Listed spans are found -/

namespace Tokens

theorem find?_ne_none {tokens : Tokens} {span : Span} (h : span ∈ tokens.entries.map Prod.fst) :
    tokens.find? span ≠ none := by
  obtain ⟨entry, hentry, hspan⟩ := List.mem_map.mp h
  have hidx : (tokens.entries.findIdx? (·.1 == span)).isSome = true := by
    rw [List.findIdx?_isSome, List.any_eq_true]
    exact ⟨entry, hentry, beq_iff_eq.mpr hspan⟩
  obtain ⟨i, hi⟩ := Option.isSome_iff_exists.mp hidx
  obtain ⟨hlt, -⟩ := List.findIdx?_eq_some_iff_getElem.mp hi
  simp [find?, hi, token?, List.getElem?_eq_getElem hlt]

theorem mem_spans_push {tokens : Tokens} {span other : Span} {text : String} :
    other ∈ (tokens.push span text).2.entries.map Prod.fst ↔
      other ∈ tokens.entries.map Prod.fst ∨ other = span := by
  unfold push
  split
  · rename_i hmem
    constructor
    · exact Or.inl
    · rintro (h | rfl)
      · exact h
      · exact hmem
  · rw [List.map_append, List.mem_append]
    exact or_congr_right List.mem_singleton

/-- Each span that is listed has a token. -/
theorem mem_spans_ofList {es : List (Span × String)} {span : Span} (h : span ∈ es.map Prod.fst) :
    span ∈ (ofList es).entries.map Prod.fst := by
  suffices key : ∀ tokens : Tokens,
      span ∈ tokens.entries.map Prod.fst ∨ span ∈ es.map Prod.fst →
        span ∈ (es.foldl (fun t e => (t.push e.1 e.2).2) tokens).entries.map Prod.fst from
    key _ (Or.inr h)
  clear h
  induction es with
  | nil => exact fun _ h => h.resolve_right List.not_mem_nil
  | cons e es ih =>
    intro tokens h
    apply ih
    rcases h with h | h
    · exact Or.inl (mem_spans_push.mpr (Or.inl h))
    · rcases List.mem_cons.mp h with rfl | h
      · exact Or.inl (mem_spans_push.mpr (Or.inr rfl))
      · exact Or.inr h

theorem find?_ofTree_ne_none {l : Language} {source : ByteArray} {root n : Node}
    (h : n ∈ l.leaves root) : (ofTree l source root).find? n.span ≠ none := by
  apply find?_ne_none
  apply mem_spans_ofList
  rw [List.map_map]
  exact List.mem_map_of_mem h

end Tokens

/-! ## Walks over exposed places -/

namespace Setup

variable {s : Setup} {root : Place}

/-- A leaf is reported only if it has text and no token. -/
theorem degradations_leaf {p : Place}
    (h : p.node.span.isEmpty = false → s.tokens.find? p.node.span ≠ none) :
    (s.leaf p).degradations = [] := by
  unfold leaf
  cases hfind : s.tokens.find? p.node.span with
  | none =>
    have hempty : p.node.span.isEmpty = true := by
      by_contra hspan
      exact h (Bool.eq_false_iff.mpr hspan) hfind
    simp [hempty]
  | some t =>
    dsimp only
    split
    · rfl
    · split
      · split <;> rfl
      · rfl

/-- A walk over exposed places, compared with itself: it reports nothing but cuts. -/
def overExposed (l : Language) (root : Place) : WalkRelation :=
  .same (fun V x y => V x.value y.value ∧ ∀ d ∈ x.degradations, d.isCut = true)
    (fun p q => p = q ∧ l.Exposed root p) (fun _ => False)
    (fun h => ⟨h, List.forall_mem_nil _⟩)
    (fun hx hf => by
      obtain ⟨hvalue, hcuts⟩ := hx
      obtain ⟨hvalue', hcuts'⟩ := hf _ _ hvalue
      exact ⟨hvalue', List.forall_mem_append.mpr ⟨hcuts, hcuts'⟩⟩)
    (fun hx => hx) (fun _ => ⟨trivial, List.forall_mem_nil _⟩)

theorem evaluated_children {p : Place} (hp : s.language.Exposed root p)
    (hcomment : s.language.isComment p.kind = false)
    (htoken : s.language.isToken p.node = false) :
    (overExposed s.language root).Evaluated p.children p.children := by
  have hatom : s.language.isAtom p.kind = false := (Bool.or_eq_false_iff.mp htoken).2
  exact .refl fun q hq => ⟨rfl, .child hp hcomment hatom hq⟩

/-- What an analysis with the tokens of its own tree relies on. -/
structure KnowsTree (s : Setup) (root : Place) : Prop where
  staysBelow : ∀ p : Place, (s.language.pattern p).StaysBelow p
  exposed : s.language.PartsExposed root
  found : ∀ n ∈ s.language.leaves root.node, s.tokens.find? n.span ≠ none

namespace KnowsTree

variable (h : s.KnowsTree root) {p : Place}
include h

theorem reads (hp : s.language.Exposed root p) : (overExposed s.language root).Reads s s p p where
  comment := rfl
  token _ := rfl
  leaf hcomment htoken := by
    refine ⟨.refl (fun _ _ => rfl) (fun _ _ => rfl), ?_⟩
    have hknown := s.degradations_leaf fun hspan =>
      h.found p.node (Language.mem_leaves_of_exposed hp hcomment htoken hspan)
    rw [hknown]
    exact List.forall_mem_nil _

theorem patterns (hp : s.language.Exposed root p)
    (hcomment : s.language.isComment p.kind = false)
    (htoken : s.language.isToken p.node = false) :
    (overExposed s.language root).Patterns (s.language.pattern p) (s.language.pattern p) := by
  have hatom : s.language.isAtom p.kind = false := (Bool.or_eq_false_iff.mp htoken).2
  have hpart : ∀ q ∈ (s.language.pattern p).parts, s.language.Exposed root q := fun q hq =>
    hp.of_hasBelow hcomment hatom (h.staysBelow p q hq) (h.exposed p hp.within hcomment htoken q hq)
  exact .refl (fun q hq => ⟨rfl, hpart q (Pattern.mem_parts.mpr (Or.inl hq))⟩)
    fun q hq => ⟨rfl, hpart q (Pattern.mem_parts.mpr (Or.inr hq))⟩

/-- **A walk over exposed places reports nothing but cuts.** -/
theorem related (budget : Nat) :
    (s.walkers budget).Related (overExposed s.language root) (s.walkers budget) := by
  induction budget with
  | zero =>
    have hcut : ∀ p : Place, ∀ d ∈ (s.cut p).degradations, d.isCut = true := by
      intro p d hd
      rw [List.mem_singleton.mp hd]
      rfl
    refine ⟨?_, ?_, ?_, fun h => h.elim, fun h => h.elim, fun h => h.elim⟩
    · rintro p _ l l' ⟨rfl, -⟩ hl
      exact ⟨hl, List.forall_mem_append.mpr ⟨hcut p, List.forall_mem_nil _⟩⟩
    · rintro p _ l l' ⟨rfl, -⟩ hl
      exact ⟨⟨hl, rfl, rfl⟩, List.forall_mem_append.mpr ⟨hcut p, List.forall_mem_nil _⟩⟩
    · rintro p _ ⟨rfl, -⟩
      exact ⟨.nil, List.forall_mem_append.mpr ⟨hcut p, List.forall_mem_nil _⟩⟩
  | succ budget ih =>
    refine ⟨?_, ?_, ?_, fun h => h.elim, fun h => h.elim, fun h => h.elim⟩
    · rintro p _ l l' ⟨rfl, hp⟩ hl
      refine (h.reads hp).visitStep (.of_eq (fun _ _ h => h) fun _ _ h => h) hl ?_
      intro hcomment htoken
      exact ih.visitPattern (h.patterns hp hcomment htoken)
        (evaluated_children hp hcomment htoken) hl
    · rintro p _ l l' ⟨rfl, hp⟩ hl
      refine WalkRelation.imp ((h.reads hp).resolveStep hl ?_) fun _ _ hr => ⟨hr.1, hr.2, rfl⟩
      intro hcomment htoken
      exact ih.resolvePattern (h.patterns hp hcomment htoken)
        (evaluated_children hp hcomment htoken) hl
    · rintro p _ ⟨rfl, hp⟩
      refine (h.reads hp).targets ?_
      intro hcomment htoken
      exact ih.allTargets (evaluated_children hp hcomment htoken)

end KnowsTree

/-- **The tokens of a tree are known in it.**  With the tokens that are listed from a tree, the
analysis of the same tree reports no leaf as unknown, whatever is live before it and wherever
it is cut, if its table names no part across a comment or an atom. -/
theorem unknownToken_not_mem_degradations (s : Setup) (source : ByteArray) (root : Place)
    (hs : (∃ tag : Tag, s.language = tag.language) ∨
      ∀ p : Place, (s.language.pattern p).StaysBelow p)
    (htokens : s.tokens = .ofTree s.language source root.node)
    (hparts : s.language.PartsExposed root) (seed : LiveDefs) (span : Span) :
    .unknownToken span ∉ (s.graph root seed).degradations := by
  have hfound : ∀ n ∈ s.language.leaves root.node, s.tokens.find? n.span ≠ none := by
    intro n hn
    rw [htokens]
    exact Tokens.find?_ofTree_ne_none hn
  have hknows : s.KnowsTree root := ⟨Language.staysBelow_of hs, hparts, hfound⟩
  have hcuts := ((hknows.related s.budget).visit (p := root) ⟨rfl, .root⟩ (rfl : seed = seed)).2
  intro hmem
  exact nomatch hcuts _ (List.mem_eraseDups.mp hmem)

end Setup

/-! ## A string and a comment -/

namespace CommentedString

/-- `x = "a" # b` -/
def root : Place :=
  .root <| .onLine 0 "module" true none 0 11 [
    .onLine 1 "assignment" true none 0 7 [
      .onLine 2 "identifier" true (some "left") 0 1 [],
      .onLine 3 "=" false none 2 3 [],
      .onLine 4 "string" true (some "right") 4 7 [
        .onLine 5 "string_start" true none 4 5 [],
        .onLine 6 "string_content" true none 5 6 [],
        .onLine 7 "string_end" true none 6 7 []]],
    .onLine 8 "comment" true none 8 11 []]

def source : ByteArray := "x = \"a\" # b".toUTF8

def setup : Setup where
  language := Language.python
  tokens := .ofTree Language.python source root.node

end CommentedString

namespace Setup

/-- The parts of a string and the comment are no tokens, and none of them is missed. -/
theorem known_commentedString :
    CommentedString.setup.language.PartsExposed CommentedString.root ∧
    CommentedString.setup.tokens.texts = ["x", "=", "\"a\""] ∧
    ∀ span, .unknownToken span ∉
      (CommentedString.setup.graph CommentedString.root .empty).degradations := by
  have hparts : CommentedString.setup.language.PartsExposed CommentedString.root :=
    .of_numbers (by decide)
  refine ⟨hparts, by decide +kernel, fun span => ?_⟩
  exact unknownToken_not_mem_degradations CommentedString.setup CommentedString.source
    CommentedString.root (Or.inl ⟨.python, rfl⟩) rfl hparts .empty span

end Setup

end TokenFlow
