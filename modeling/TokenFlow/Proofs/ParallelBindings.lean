import TokenFlow.Proofs.ClosedDefinitions
import TokenFlow.Proofs.EdgeSlots
import TokenFlow.Proofs.Recoding

/-!
# Bindings of names to names

A binding reads all its values before it binds any of its targets.  So where names are bound to as
many names, each target takes what its own value had before the binding, whatever the other targets
are (`Setup.bind_names`): names may be swapped, rotated or repeated on either side.  Of the targets
of one name the last is bound.

A single target takes all values together and several targets take theirs one by one, but of one
value there is nothing to put together (`Binding.pairUp_of_length_eq`), so both are read alike.
-/
namespace TokenFlow

/-! ## Names -/

/-- What a name draws from that is bound. -/
theorem LiveDefs.mem_sources_of_contains {live : LiveDefs} {v : Token}
    (h : live.contains v.text = true) {x : Source} :
    x ∈ live.sources v ↔
      x.name = v.text ∧ ∃ defs, live.get? v.text = some defs ∧ x.index ∈ defs := by
  obtain ⟨defs, hdefs⟩ := Option.isSome_iff_exists.mp h
  rw [LiveDefs.sources, hdefs, Option.getD_some, Source.ofDefs, List.mem_map]
  constructor
  · rintro ⟨d, hd, rfl⟩
    exact ⟨rfl, defs, rfl, hd⟩
  · rintro ⟨hname, _, hdefs', hindex⟩
    cases hdefs'
    exact ⟨x.index, hindex, by rw [← hname]⟩

/-- No kind is both of names and of comments. -/
def Language.NamesNotComments (l : Language) : Prop :=
  ∀ kind, l.isIdentifier kind = true → l.isComment kind = false

theorem Tag.namesNotComments (tag : Tag) : tag.language.NamesNotComments := by
  have h : ∀ kind ∈ tag.language.identifiers, tag.language.isComment kind = false := by
    cases tag <;> decide
  exact fun kind hkind => h kind (List.contains_iff_mem.mp hkind)

/-- Names are apart from comments in the seven tables, as they may be in any that is given. -/
theorem Language.namesNotComments_of {l : Language}
    (h : (∃ tag : Tag, l = tag.language) ∨ l.NamesNotComments) : l.NamesNotComments := by
  rcases h with ⟨tag, rfl⟩ | h
  · exact tag.namesNotComments
  · exact h

/-! ## Pairing targets and values -/

/-- As many targets as values are paired element by element. -/
theorem Binding.pairUp_of_length_eq {α : Type} {targets : List Place} {values : List (Value α)}
    (h : targets.length = values.length) : pairUp targets values = targets.zip values := by
  rw [pairUp]
  split
  · rfl
  · rename_i hfew
    have hone : targets.length ≤ 1 := by simpa [h] using hfew
    match targets, values with
    | [], [] => rfl
    | [p], [v] =>
      have hv : Value.join [v] = v := by
        rw [Value.join, List.flatMap_singleton]
      rw [List.map_singleton, hv]
      rfl

namespace Walkers

variable {w : Walkers}

/-! ## Binding names to names -/

/-- A place is read as the name of a token: a binding to it binds this token alone, and as a value
it is a copy of what the name has. -/
structure ReadsName (w : Walkers) (p : Place) (t : Token) : Prop where
  targets : w.targets p = pure [t]
  isReference : w.isReference p = true
  resolve : ∀ live : LiveDefs, live.contains t.text = true →
    w.resolve p live = pure (live, live.sources t)

/-- Reading names that are bound changes nothing. -/
theorem readValues_of_readsName {places : List Place} {tokens : List Token}
    (h : List.Forall₂ w.ReadsName places tokens) {live : LiveDefs}
    (hlive : ∀ t ∈ tokens, live.contains t.text = true) :
    w.readValues places live = pure (live, tokens.map fun t => ⟨live.sources t, true⟩) := by
  induction h with
  | nil => rfl
  | cons hp _ ih =>
    obtain ⟨ht, hts⟩ := List.forall_mem_cons.mp hlive
    rw [readValues, hp.resolve live ht, pure_bind]
    dsimp only
    rw [ih hts, pure_bind, hp.isReference]
    rfl

/-- The edge of a target that is bound to a value. -/
def moveEdge (live : LiveDefs) (move : Token × Token) : Edge :=
  .ofSources move.1.text move.1.index .comesFrom (live.sources move.2)

/-- The targets are paired with what their values had before any of them is bound. -/
theorem defineTargets_of_readsName {kind : BindingKind} (hkind : kind ≠ .compound)
    {places : List Place} {moves : List (Token × Token)}
    (h : List.Forall₂ w.ReadsName places (moves.map Prod.fst)) (live : LiveDefs) :
    w.defineTargets kind live (places.zip (moves.map fun m => ⟨live.sources m.2, true⟩)) =
      (do
        Traced.emit (moves.map (moveEdge live))
        return moves.map Prod.fst) := by
  rw [List.forall₂_map_right_iff] at h
  induction h with
  | nil => rfl
  | @cons p m places moves hp _ ih =>
    have hedge : Edge.ofSources m.1.text m.1.index
        (kind.relation (⟨live.sources m.2, true⟩ : Value Source))
        (kind.sources ⟨live.sources m.2, true⟩ live m.1) = moveEdge live m := by
      cases kind with
      | compound => exact absurd rfl hkind
      | assignment => rfl
      | declaration => rfl
    rw [List.map_cons, List.zip_cons_cons, defineTargets, hp.targets, pure_bind, List.map_singleton,
      hedge, ih]
    simp only [bind_assoc, pure_bind]
    rfl

/-- **A binding of names to names that are bound**, each to its own. -/
theorem bind_of_readsName {b : Binding} (hkind : b.kind ≠ .compound)
    {moves : List (Token × Token)}
    (htargets : List.Forall₂ w.ReadsName b.targets (moves.map Prod.fst))
    (hvalues : List.Forall₂ w.ReadsName b.values (moves.map Prod.snd)) {live : LiveDefs}
    (hlive : ∀ m ∈ moves, live.contains m.2.text = true) :
    w.bind b live = (do
      Traced.emit (moves.map (moveEdge live))
      return (live.bindAll (moves.map Prod.fst), moves.map Prod.fst)) := by
  have hread := readValues_of_readsName hvalues (List.forall_mem_map.mpr hlive)
  rw [List.map_map] at hread
  have hpairs : Binding.pairUp b.targets
      (moves.map fun m => (⟨live.sources m.2, true⟩ : Value Source)) =
      b.targets.zip (moves.map fun m => ⟨live.sources m.2, true⟩) := by
    refine Binding.pairUp_of_length_eq ?_
    rw [htargets.length_eq, List.length_map, List.length_map]
  rw [bind, hread, pure_bind]
  dsimp only
  rw [Function.comp_def, hpairs, defineTargets_of_readsName hkind htargets]
  simp only [bind_assoc, pure_bind]

end Walkers

/-! ## The places of names -/

/-- What a binding does that moves values to targets, given for each target its token and that of
its value. -/
structure Binding.Moves (moves : List (Token × Token)) (live : LiveDefs)
    (run : Traced (LiveDefs × List Token)) : Prop where
  /-- There is one edge for each target, in order, and it draws from what its own value had before
  and from nothing else. -/
  edges : List.Forall₂ (fun (t, v) e => e.slot = (t.text, t.index, .comesFrom) ∧ e.Canonical ∧
    ∀ x : Source, x ∈ e.sources ↔
      x.name = v.text ∧ ∃ defs, live.get? v.text = some defs ∧ x.index ∈ defs) moves run.edges
  /-- A name is bound to the last of its tokens. -/
  bound : ∀ before t behind, moves.map Prod.fst = before ++ t :: behind →
    (∀ u ∈ behind, u.text ≠ t.text) → run.value.1.get? t.text = some [t.index]
  /-- Other names are left alone. -/
  unchanged : ∀ name, (∀ m ∈ moves, m.1.text ≠ name) → run.value.1.get? name = live.get? name
  defined : run.value.2 = moves.map Prod.fst
  degradations : run.degradations = []

namespace Setup

variable (s : Setup)

/-- A leaf or an atom that is the token of a name. -/
structure Names (p : Place) (t : Token) : Prop where
  token : s.language.isToken p.node = true
  leaf : (s.leaf p).value = .name t

/-- Whether a place is that of a name can be told without reading it. -/
theorem names_iff {p : Place} {t : Token} :
    s.Names p t ↔ s.language.isToken p.node = true ∧ s.tokens.find? p.node.span = some t ∧
      t.text ≠ "" ∧ t.text ≠ p.kind ∧ s.language.isIdentifier p.kind = true ∧
        s.language.isLabel p = false := by
  constructor
  · rintro ⟨htoken, hleaf⟩
    obtain ⟨hidentifier, hlabel, hfind⟩ := of_leaf_eq_name hleaf
    rw [leaf_of_find? hfind, Traced.value_pure] at hleaf
    have hspoken : ¬ (t.text = "" ∨ t.text = p.kind) := by
      intro h
      rw [if_pos h] at hleaf
      exact nomatch hleaf
    obtain ⟨hempty, hkind⟩ := not_or.mp hspoken
    exact ⟨htoken, hfind, hempty, hkind, hidentifier, hlabel⟩
  · rintro ⟨htoken, hfind, hempty, hkind, hidentifier, hlabel⟩
    refine ⟨htoken, ?_⟩
    rw [leaf_of_find? hfind, Traced.value_pure, if_neg (not_or.mpr ⟨hempty, hkind⟩),
      if_pos hidentifier, hlabel]
    rfl

instance (p : Place) (t : Token) : Decidable (s.Names p t) :=
  decidable_of_iff' _ s.names_iff

variable {s}

theorem leaf_of_names {p : Place} {t : Token} (h : s.Names p t) : s.leaf p = pure (.name t) := by
  have hleaf := h.leaf
  obtain ⟨-, -, hfind⟩ := of_leaf_eq_name hleaf
  rw [leaf_of_find? hfind] at hleaf ⊢
  exact congrArg pure hleaf

theorem readsName_walkers (hs : s.language.NamesNotComments) (budget : Nat) {p : Place} {t : Token}
    (h : s.Names p t) : (s.walkers (budget + 1)).ReadsName p t := by
  obtain ⟨hidentifier, -, -⟩ := of_leaf_eq_name h.leaf
  have hcomment : s.language.isComment p.kind = false := hs _ hidentifier
  refine ⟨?_, ?_, fun live hlive => ?_⟩
  · show s.targets (budget + 1) p = pure [t]
    rw [targets, hcomment, h.token, leaf_of_names h]
    rfl
  · show s.isReference (budget + 1) p = true
    rw [isReference, if_pos h.token, hidentifier]
  · obtain ⟨defs, hdefs⟩ := Option.isSome_iff_exists.mp hlive
    show s.resolve (budget + 1) p live = pure (live, live.sources t)
    rw [resolve_succ, resolveStep, hcomment, h.token, LiveDefs.sources, hdefs]
    show s.resolveToken p live = _
    rw [resolveToken, leaf_of_names h, pure_bind]
    dsimp only
    rw [hdefs]
    rfl

/-- **Names that are bound to names take what these had before.**  A binding at a depth whose
operands may still be entered, of names to as many names that are bound: whatever names are repeated
among the targets, among the values or between them, each target has one edge, from the live
definitions of its own value before the binding, and behind it each name has the last of its
tokens. -/
theorem bind_names (hs : (∃ tag : Tag, s.language = tag.language) ∨ s.language.NamesNotComments)
    {depth : Nat} (hdepth : depth < s.limit) {b : Binding} (hkind : b.kind ≠ .compound)
    {moves : List (Token × Token)}
    (htargets : List.Forall₂ s.Names b.targets (moves.map Prod.fst))
    (hvalues : List.Forall₂ s.Names b.values (moves.map Prod.snd)) {live : LiveDefs}
    (hlive : ∀ m ∈ moves, live.contains m.2.text = true) :
    Binding.Moves moves live ((s.walkers (s.limit - depth)).bind b live) := by
  obtain ⟨budget, hbudget⟩ := Nat.exists_eq_add_of_lt hdepth
  have hread {places : List Place} {tokens : List Token} (h : List.Forall₂ s.Names places tokens) :
      List.Forall₂ (s.walkers (s.limit - depth)).ReadsName places tokens := by
    rw [hbudget, Nat.add_assoc, Nat.add_sub_cancel_left]
    exact h.imp fun p t => readsName_walkers (Language.namesNotComments_of hs) budget
  rw [Walkers.bind_of_readsName hkind (hread htargets) (hread hvalues) hlive]
  refine ⟨?_, fun before t behind hmoves hbehind => ?_, fun name hname => ?_, rfl, rfl⟩
  · show List.Forall₂ _ moves (moves.map (Walkers.moveEdge live) ++ [])
    rw [List.append_nil, List.forall₂_map_right_iff, List.forall₂_same]
    exact fun m hm => ⟨rfl, Edge.canonical_ofSources _ _ _ _, fun x =>
      Edge.mem_sources_ofSources.trans (LiveDefs.mem_sources_of_contains (hlive m hm))⟩
  · show ((live.bindAll (moves.map Prod.fst)).get? t.text) = some [t.index]
    rw [hmoves]
    exact LiveDefs.get?_bindAll_of_last hbehind before live
  · exact LiveDefs.get?_bindAll_of_forall_ne (List.forall_mem_map.mpr hname) live

end Setup

namespace SwappedNames

/-- `a, b, a = b, a, b` -/
def root : Place :=
  .root <| .onLine 0 "assignment" true none 0 17 [
    .onLine 1 "pattern_list" true (some "left") 0 7 [
      .onLine 2 "identifier" true none 0 1 [],
      .onLine 3 "," false none 1 2 [],
      .onLine 4 "identifier" true none 3 4 [],
      .onLine 5 "," false none 4 5 [],
      .onLine 6 "identifier" true none 6 7 []],
    .onLine 7 "=" false none 8 9 [],
    .onLine 8 "expression_list" true (some "right") 10 17 [
      .onLine 9 "identifier" true none 10 11 [],
      .onLine 10 "," false none 11 12 [],
      .onLine 11 "identifier" true none 13 14 [],
      .onLine 12 "," false none 14 15 [],
      .onLine 13 "identifier" true none 16 17 []]]

def setup : Setup where
  language := Language.python
  tokens := .ofTree Language.python "a, b, a = b, a, b".toUTF8 root.node

def binding : Binding :=
  ⟨.assignment, (root.children[0].children.filter (·.named)),
    (root.children[2].children.filter (·.named))⟩

/-- The token of a name of one letter. -/
def token (index : Nat) (name : String) (column : Nat) : Token :=
  ⟨index, name, ⟨⟨0, column⟩, ⟨0, column + 1⟩⟩⟩

def moves : List (Token × Token) :=
  [(token 0 "a" 0, token 6 "b" 10), (token 2 "b" 3, token 8 "a" 13),
    (token 4 "a" 6, token 10 "b" 16)]

/-- What is live before the assignment. -/
def live : LiveDefs := .ofList [("a", [20]), ("b", [21, 22])]

end SwappedNames

namespace Setup

open SwappedNames

/-- Both names have what the other one had before, also where one of them is bound again. -/
theorem bind_names_swapped :
    setup.language.pattern root = .binding binding ∧
    List.Forall₂ setup.Names binding.targets (moves.map Prod.fst) ∧
    List.Forall₂ setup.Names binding.values (moves.map Prod.snd) ∧
    Binding.Moves moves live ((setup.walkers 512).bind binding live) := by
  have htargets : List.Forall₂ setup.Names binding.targets (moves.map Prod.fst) := by
    decide +kernel
  have hvalues : List.Forall₂ setup.Names binding.values (moves.map Prod.snd) := by
    decide +kernel
  have hdepth : 0 < setup.limit := by decide
  exact ⟨rfl, htargets, hvalues,
    bind_names (Or.inl ⟨.python, rfl⟩) hdepth (by decide) htargets hvalues (by decide)⟩

end Setup

end TokenFlow
