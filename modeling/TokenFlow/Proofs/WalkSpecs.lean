import Mathlib.Logic.Function.Iterate
import TokenFlow.Analysis.Walk

/-!
# What each pattern does, said once

For every walker: the live definitions it leaves, and the edges it brings up, in terms
of how its parts are read.  The tokens that a construct defines depend on its targets
alone (`tokensOf`), a conditional reads each of its `alternatives` from what the
condition leaves, and a loop leaves what its round leaves when it is iterated.  Later
modules argue from these statements and open no walker again.
-/
namespace TokenFlow

/-- The alternatives of a conditional: its arms, and passing by where no arm need run. -/
def Branch.alternatives (b : Branch) : List (List Place) :=
  b.arms ++ if b.exhaustive && !b.arms.isEmpty then [] else [[]]

theorem Branch.alternatives_ne_nil (b : Branch) : b.alternatives ≠ [] := by
  intro h
  obtain ⟨harms, hskip⟩ := List.append_eq_nil_iff.mp h
  rw [harms, List.isEmpty_nil, Bool.not_true, Bool.and_false] at hskip
  exact absurd hskip (List.cons_ne_nil _ _)

/-- Binds a token's name to it unless the name is bound. -/
def LiveDefs.sight (live : LiveDefs) (t : Token) : LiveDefs :=
  match live.get? t.text with
  | none => live.bind t.text t.index
  | some _ => live

theorem LiveDefs.sight_of_eq_none {live : LiveDefs} {t : Token} (h : live.get? t.text = none) :
    live.sight t = live.bind t.text t.index := by
  rw [LiveDefs.sight, h]

theorem LiveDefs.sight_of_eq_some {live : LiveDefs} {t : Token} {defs : List Nat}
    (h : live.get? t.text = some defs) : live.sight t = live := by
  rw [LiveDefs.sight, h]

/-- A sighted name is bound. -/
theorem LiveDefs.get?_sight_ne_none (live : LiveDefs) (t : Token) :
    (live.sight t).get? t.text ≠ none := by
  cases h : live.get? t.text with
  | none =>
    rw [LiveDefs.sight_of_eq_none h, LiveDefs.get?_bind, if_pos rfl]
    exact fun h => nomatch h
  | some defs =>
    rw [LiveDefs.sight_of_eq_some h, h]
    exact fun h => nomatch h

theorem LiveDefs.get?_sight_of_ne (live : LiveDefs) {t : Token} {name : String}
    (h : t.text ≠ name) : (live.sight t).get? name = live.get? name := by
  unfold LiveDefs.sight
  split
  · rw [LiveDefs.get?_bind, if_neg h]
  · rfl

/-- What a name draws from as a value: its live definitions, or else the token itself. -/
def LiveDefs.sources (live : LiveDefs) (t : Token) : List Source :=
  Source.ofDefs t.text ((live.get? t.text).getD [t.index])

/-- The edges of a name that is read as a statement.  A token that is its own only live
definition draws from nothing. -/
def LiveDefs.reads (live : LiveDefs) (t : Token) : List Edge :=
  match live.get? t.text with
  | none => []
  | some defs =>
    if defs = [t.index] then []
    else [.ofSources t.text t.index .comesFrom (Source.ofDefs t.text defs)]

/-- Puts names back to what they were bound to. -/
def LiveDefs.restoreAll (live : LiveDefs) (outer : List (String × Option (List Nat))) : LiveDefs :=
  outer.foldl (fun live (name, defs) => live.restore name defs) live

/-- Names that are put back to what they were bound to are bound to that; the others
are left alone. -/
theorem LiveDefs.get?_restoreAll (live before : LiveDefs) (tokens : List Token) (name : String) :
    (live.restoreAll (tokens.map fun t => (t.text, before.get? t.text))).get? name =
      if name ∈ tokens.map (·.text) then before.get? name else live.get? name := by
  induction tokens generalizing live with
  | nil => rfl
  | cons t ts ih =>
    show ((live.restore t.text (before.get? t.text)).restoreAll _).get? name = _
    rw [ih, LiveDefs.get?_restore, List.map_cons]
    by_cases hts : name ∈ ts.map (·.text)
    · rw [if_pos hts, if_pos (List.mem_cons_of_mem _ hts)]
    · rw [if_neg hts]
      by_cases ht : t.text = name
      · rw [if_pos ht, if_pos (ht ▸ List.mem_cons_self), ht]
      · rw [if_neg ht, if_neg fun h => (List.mem_cons.mp h).elim (fun h => ht h.symm) hts]

theorem Traced.edges_gather {α β : Type} {f : α → Traced (List β)} (h : ∀ a, (f a).edges = [])
    (xs : List α) : (Traced.gather f xs).edges = [] := by
  induction xs with
  | nil => rfl
  | cons x xs ih =>
    show (f x).edges ++ ((Traced.gather f xs).edges ++ []) = []
    rw [h x, ih]
    rfl

namespace Binding

theorem map_fst_pairUp {α : Type} (targets : List Place) (values : List (Value α)) :
    (pairUp targets values).map Prod.fst = targets := by
  unfold pairUp
  split
  · rename_i h
    have hlen : targets.length = values.length := beq_iff_eq.mp (Bool.and_eq_true_iff.mp h).2
    exact List.map_fst_zip (Nat.le_of_eq hlen)
  · rw [List.map_map]
    exact List.map_id _

/-- One value made of several is a copy as the one value is, if it is one. -/
theorem isReference_join {α : Type} (values : List (Value α)) :
    (Value.join values).isReference =
      match values.map (·.isReference) with
      | [copies] => copies
      | _ => false := by
  match values with
  | [] | [_] | _ :: _ :: _ => rfl

/-- A source that a target takes comes from one of the values.  Other values that are
copies where these are give the target all that they have in the place of that one. -/
theorem exists_of_mem_pairUp {α β : Type} {targets : List Place} {values : List (Value α)}
    {target : Place} {v : Value α} (h : (target, v) ∈ pairUp targets values) {x : α}
    (hx : x ∈ v.sources) :
    ∃ (i : Nat) (v' : Value α), values[i]? = some v' ∧ x ∈ v'.sources ∧
      ∀ others : List (Value β), others.map (·.isReference) = values.map (·.isReference) →
        ∀ u' : Value β, others[i]? = some u' →
          ∃ u, (target, u) ∈ pairUp targets others ∧ u.isReference = v.isReference ∧
            u'.sources ⊆ u.sources := by
  have hlength : ∀ {others : List (Value β)},
      others.map (·.isReference) = values.map (·.isReference) → others.length = values.length :=
    fun hsame => by simpa using congrArg List.length hsame
  unfold pairUp at h ⊢
  split at h
  · rename_i hzip
    obtain ⟨i, hi⟩ := List.mem_iff_getElem?.mp h
    obtain ⟨htarget, hv⟩ := List.getElem?_zip_eq_some.mp hi
    refine ⟨i, v, hv, hx, fun others hsame u' hu' => ⟨u', ?_, ?_, List.Subset.refl _⟩⟩
    · rw [hlength hsame, if_pos hzip]
      exact List.mem_iff_getElem?.mpr ⟨i, List.getElem?_zip_eq_some.mpr ⟨htarget, hu'⟩⟩
    · have hat := congrArg (·[i]?) hsame
      simp only [List.getElem?_map, hu', hv] at hat
      exact Option.some.inj hat
  · rename_i hjoin
    obtain ⟨_, htarget, heq⟩ := List.mem_map.mp h
    cases heq
    obtain ⟨v', hv', hx⟩ := List.mem_flatMap.mp hx
    obtain ⟨i, hi⟩ := List.mem_iff_getElem?.mp hv'
    refine ⟨i, v', hi, hx, fun others hsame u' hu' => ⟨Value.join others, ?_, ?_, ?_⟩⟩
    · rw [hlength hsame, if_neg hjoin]
      exact List.mem_map_of_mem htarget
    · rw [isReference_join, isReference_join, hsame]
    · exact fun y hy => List.mem_flatMap.mpr ⟨u', List.mem_iff_getElem?.mpr ⟨i, hu'⟩, hy⟩

/-- Every target is given some value. -/
theorem exists_mem_pairUp {α : Type} {targets : List Place} {target : Place}
    (h : target ∈ targets) (values : List (Value α)) :
    ∃ v, (target, v) ∈ pairUp targets values := by
  rw [← map_fst_pairUp targets values] at h
  obtain ⟨⟨_, v⟩, hmem, rfl⟩ := List.mem_map.mp h
  exact ⟨v, hmem⟩

end Binding

namespace BindingKind

theorem mem_sources {kind : BindingKind} {v : Value Source} {live : LiveDefs} {t : Token}
    {x : Source} :
    x ∈ kind.sources v live t ↔
      x ∈ v.sources ∨ kind = .compound ∧
        ∃ defs, live.get? t.text = some defs ∧ x ∈ Source.ofDefs t.text defs := by
  cases kind with
  | assignment | declaration => simp [sources]
  | compound =>
    rw [sources, List.mem_append]
    cases live.get? t.text <;> simp [Source.ofDefs]

/-- The target of a compound binding is computed, whatever the value is. -/
theorem relation_compound {α : Type} (v : Value α) :
    BindingKind.compound.relation v = .computedFrom := by
  rw [relation, bne_self_eq_false, Bool.and_false]
  rfl

theorem relation_congr {α β : Type} (kind : BindingKind) {v : Value α} {u : Value β}
    (h : v.isReference = u.isReference) : kind.relation v = kind.relation u := by
  rw [relation, relation, h]

end BindingKind

namespace Walkers

variable (w : Walkers)

/-- The tokens that several places assign to. -/
def tokensOf (places : List Place) : List Token :=
  places.flatMap fun p => (w.targets p).value

/-! ## Targets -/

theorem value_allTargets (places : List Place) :
    (w.allTargets places).value = w.tokensOf places := by
  unfold allTargets tokensOf
  induction places with
  | nil => rfl
  | cons p ps ih =>
    rw [List.flatMap_cons, ← ih]
    rfl

section Targets

variable {w} {w' : Walkers} (h : w.targets = w'.targets)
include h

theorem allTargets_congr (places : List Place) : w.allTargets places = w'.allTargets places := by
  rw [allTargets, allTargets, h]

theorem defineTargets_congr (kind : BindingKind) (live : LiveDefs)
    (pairs : List (Place × Value Source)) :
    w.defineTargets kind live pairs = w'.defineTargets kind live pairs := by
  induction pairs with
  | nil => rfl
  | cons pair pairs ih => rw [defineTargets, defineTargets, h, ih]

theorem shadowed_congr (i : Iteration) (live : LiveDefs) :
    w.shadowed i live = w'.shadowed i live := by
  rw [shadowed, shadowed, allTargets_congr h]

end Targets

/-! ## Bindings and updates -/

theorem value_defineTargets (kind : BindingKind) (live : LiveDefs)
    (pairs : List (Place × Value Source)) :
    (w.defineTargets kind live pairs).value = w.tokensOf (pairs.map Prod.fst) := by
  induction pairs with
  | nil => rfl
  | cons pair pairs ih =>
    rw [List.map_cons, tokensOf, List.flatMap_cons]
    exact congrArg ((w.targets pair.1).value ++ ·) ih

/-- A binding leaves what reading its values leaves, with its tokens bound. -/
theorem value_bind (b : Binding) (live : LiveDefs) :
    (w.bind b live).value =
      ((w.readValues b.values live).value.1.bindAll (w.tokensOf b.targets),
        w.tokensOf b.targets) := by
  have h := w.value_defineTargets b.kind (w.readValues b.values live).value.1
    (Binding.pairUp b.targets (w.readValues b.values live).value.2)
  rw [Binding.map_fst_pairUp] at h
  show (LiveDefs.bindAll _ (w.defineTargets _ _ _).value, (w.defineTargets _ _ _).value) = _
  rw [h]

/-- The edges of the targets of a binding. -/
def targetEdges (kind : BindingKind) (live : LiveDefs) (pairs : List (Place × Value Source)) :
    List Edge :=
  pairs.flatMap fun (target, v) => (w.targets target).value.map fun t =>
    .ofSources t.text t.index (kind.relation v) (kind.sources v live t)

/-- Finding the targets brings up no edges. -/
def SilentTargets : Prop :=
  ∀ p, (w.targets p).edges = []

variable {w} in
theorem edges_allTargets (hw : w.SilentTargets) (places : List Place) :
    (w.allTargets places).edges = [] :=
  Traced.edges_gather hw places

variable {w} in
theorem edges_defineTargets (hw : w.SilentTargets) (kind : BindingKind) (live : LiveDefs)
    (pairs : List (Place × Value Source)) :
    (w.defineTargets kind live pairs).edges = w.targetEdges kind live pairs := by
  induction pairs with
  | nil => rfl
  | cons pair pairs ih =>
    obtain ⟨target, v⟩ := pair
    rw [targetEdges, List.flatMap_cons, ← targetEdges, ← ih]
    show (w.targets target).edges ++ (_ ++ ((w.defineTargets kind live pairs).edges ++ [])) = _
    rw [hw target, List.append_nil]
    rfl

variable {w} in
/-- A binding brings up the edges of its values, then those of its targets. -/
theorem edges_bind (hw : w.SilentTargets) (b : Binding) (live : LiveDefs) :
    (w.bind b live).edges =
      (w.readValues b.values live).edges ++
        w.targetEdges b.kind (w.readValues b.values live).value.1
          (Binding.pairUp b.targets (w.readValues b.values live).value.2) := by
  rw [← edges_defineTargets hw]
  show _ ++ ((w.defineTargets _ _ _).edges ++ []) = _
  rw [List.append_nil]

theorem updateTokens_cons (t : Token) (ts : List Token) (live : LiveDefs) :
    updateTokens (t :: ts) live =
      Traced.emit [.ofSources t.text t.index .computedFrom (live.sources t)] >>= fun _ =>
        updateTokens ts (live.bind t.text t.index) := by
  rw [updateTokens, LiveDefs.sources]
  cases live.get? t.text <;> rfl

theorem value_updateTokens (tokens : List Token) (live : LiveDefs) :
    (updateTokens tokens live).value = live.bindAll tokens := by
  induction tokens generalizing live with
  | nil => rfl
  | cons t ts ih => exact ih (live.bind t.text t.index)

/-- An update binds its tokens. -/
theorem value_update (operand : Place) (live : LiveDefs) :
    (w.update operand live).value =
      (live.bindAll (w.targets operand).value, (w.targets operand).value) :=
  congrArg (·, (w.targets operand).value) (value_updateTokens _ live)

/-! ## Alternatives -/

theorem value_armOutcomes (arms : List (List Place)) (live : LiveDefs) :
    (w.armOutcomes arms live).value = arms.map fun arm => (w.visitAll arm live).value := by
  induction arms with
  | nil => rfl
  | cons arm arms ih => exact congrArg ((w.visitAll arm live).value :: ·) ih

/-- A conditional leaves the union of what its alternatives leave. -/
theorem value_branch (b : Branch) (live : LiveDefs) :
    (w.branch b live).value =
      .merge (b.alternatives.map fun arm =>
        (w.visitAll arm (w.visitAll b.condition live).value).value) := by
  show LiveDefs.merge (_ ++ if b.exhaustive && !List.isEmpty _ then [] else _) = _
  rw [value_armOutcomes, List.isEmpty_map, Branch.alternatives, List.map_append]
  split <;> rfl

theorem edges_armOutcomes (arms : List (List Place)) (live : LiveDefs) :
    (w.armOutcomes arms live).edges = arms.flatMap fun arm => (w.visitAll arm live).edges := by
  induction arms with
  | nil => rfl
  | cons arm arms ih =>
    rw [List.flatMap_cons, ← ih]
    show _ ++ ((w.armOutcomes arms live).edges ++ []) = _
    rw [List.append_nil]

/-- A conditional brings up the edges of its condition, then those of its alternatives. -/
theorem edges_branch (b : Branch) (live : LiveDefs) :
    (w.branch b live).edges =
      (w.visitAll b.condition live).edges ++ b.alternatives.flatMap fun arm =>
        (w.visitAll arm (w.visitAll b.condition live).value).edges := by
  have hskip : ∀ live, (if b.exhaustive && !b.arms.isEmpty then [] else [[]]).flatMap
      (fun arm => (w.visitAll arm live).edges) = [] := fun live => by
    split <;> rfl
  show _ ++ ((w.armOutcomes b.arms _).edges ++ []) = _
  rw [edges_armOutcomes, Branch.alternatives, List.flatMap_append, hskip]

/-! ## Repetition -/

theorem value_rounds (round : LiveDefs → Traced LiveDefs) (n : Nat) (live : LiveDefs) :
    (rounds round n live).value = (fun l => (round l).value)^[n] live := by
  induction n generalizing live with
  | zero => rfl
  | succ n ih => exact ih (round live).value

theorem value_shadowed (i : Iteration) (live : LiveDefs) :
    (w.shadowed i live).value =
      (if i.isScoped then w.tokensOf i.targets else []).map
        fun t => (t.text, live.get? t.text) := by
  unfold shadowed
  split
  · exact congrArg (List.map _) (w.value_allTargets i.targets)
  · rfl

variable {w} in
theorem edges_shadowed (hw : w.SilentTargets) (i : Iteration) (live : LiveDefs) :
    (w.shadowed i live).edges = [] := by
  unfold shadowed
  split
  · show (w.allTargets i.targets).edges ++ [] = []
    rw [edges_allTargets hw, List.append_nil]
  · rfl

/-- The places of an iterable are read, the targets are bound, the body is read. -/
theorem value_round (i : Iteration) (live : LiveDefs) :
    (w.round i live).value =
      (w.visitAll i.body ((w.resolveAll i.iterable.toList live).value.1.bindAll
        (w.tokensOf i.targets))).value := by
  rw [← value_allTargets]
  rfl

theorem value_iterate (passes : Nat) (i : Iteration) (live : LiveDefs) :
    (w.iterate passes i live).value =
      ((w.visitAll i.tail (rounds (w.round i) passes live).value).value).restoreAll
        (w.shadowed i live).value := rfl

theorem value_loop (passes : Nat) (l : Loop) (live : LiveDefs) :
    (w.loop passes l live).value =
      (w.visitAll l.tail
        (rounds (w.visitAll l.repeated) passes (w.visitAll l.setup live).value).value).value := rfl

/-! ## Definitions -/

/-- A definition leaves nothing behind but its name. -/
theorem value_define (d : Definition) (live : LiveDefs) :
    (w.define d live).value = live.bindAll (w.tokensOf d.name.toList) := by
  rw [← value_allTargets]
  rfl

end Walkers

/-! ## Places -/

/-- What a walk takes a place for. -/
inductive Language.Reads (l : Language) (p : Place) : Prop
  | comment (hcomment : l.isComment p.kind = true)
  | token (hcomment : l.isComment p.kind = false) (htoken : l.isToken p.node = true)
  | construct (hcomment : l.isComment p.kind = false) (htoken : l.isToken p.node = false)

theorem Language.reads (l : Language) (p : Place) : l.Reads p :=
  match hcomment : l.isComment p.kind, htoken : l.isToken p.node with
  | true, _ => .comment hcomment
  | false, true => .token hcomment htoken
  | false, false => .construct hcomment htoken

namespace Setup

variable (s : Setup)

section Steps

variable {s} {w : Walkers} {p : Place}

theorem visitStep_of_comment (hcomment : s.language.isComment p.kind = true) (live : LiveDefs) :
    s.visitStep w p live = pure live :=
  if_pos hcomment

theorem visitStep_of_token (hcomment : s.language.isComment p.kind = false)
    (htoken : s.language.isToken p.node = true) (live : LiveDefs) :
    s.visitStep w p live = s.readToken p live := by
  rw [visitStep, hcomment, htoken]
  rfl

theorem visitStep_of_construct (hcomment : s.language.isComment p.kind = false)
    (htoken : s.language.isToken p.node = false) (live : LiveDefs) :
    s.visitStep w p live = w.visitPattern s.passes (s.language.pattern p) p live := by
  rw [visitStep, hcomment, htoken]
  rfl

theorem resolveStep_of_comment (hcomment : s.language.isComment p.kind = true) (live : LiveDefs) :
    s.resolveStep w p live = pure (live, []) :=
  if_pos hcomment

theorem resolveStep_of_token (hcomment : s.language.isComment p.kind = false)
    (htoken : s.language.isToken p.node = true) (live : LiveDefs) :
    s.resolveStep w p live = s.resolveToken p live := by
  rw [resolveStep, hcomment, htoken]
  rfl

theorem resolveStep_of_construct (hcomment : s.language.isComment p.kind = false)
    (htoken : s.language.isToken p.node = false) (live : LiveDefs) :
    s.resolveStep w p live = w.resolvePattern s.passes (s.language.pattern p) p live := by
  rw [resolveStep, hcomment, htoken]
  rfl

end Steps

/-! ## Operands -/

section Language

variable {s} {s' : Setup} (h : s.language = s'.language)
include h

theorem isChain_congr (budget : Nat) : s.isChain budget = s'.isChain budget := by
  induction budget with
  | zero => rfl
  | succ budget ih =>
    funext p
    rw [isChain, isChain, ih, h]

/-- Whether a value is a copy is up to the language alone. -/
theorem isReference_congr (budget : Nat) : s.isReference budget = s'.isReference budget := by
  funext p
  rw [isReference, isReference, isChain_congr h, h]

end Language

/-! ## Tokens -/

theorem value_leaf (p : Place) :
    (s.leaf p).value =
      match s.tokens.find? p.node.span with
      | none => .silent
      | some t =>
        if t.text.isEmpty || t.text == p.kind then .silent
        else if s.language.isIdentifier p.kind then
          if s.language.isLabel p then .silent else .name t
        else .literal t := by
  unfold leaf
  cases s.tokens.find? p.node.span with
  | none =>
    dsimp only
    split <;> rfl
  | some t =>
    dsimp only
    split
    · rfl
    · split
      · split <;> rfl
      · rfl

@[simp] theorem edges_leaf (p : Place) : (s.leaf p).edges = [] := by
  unfold leaf
  split
  · split <;> rfl
  · split
    · rfl
    · split
      · split <;> rfl
      · rfl

/-- Finding the tokens that a place assigns to brings up no edges. -/
theorem edges_targets (budget : Nat) (p : Place) : (s.targets budget p).edges = [] := by
  induction budget generalizing p with
  | zero => rfl
  | succ budget ih =>
    unfold targets
    split
    · rfl
    split
    · rw [Traced.edges_bind, edges_leaf, List.nil_append]
      cases (s.leaf p).value <;> rfl
    · exact Traced.edges_gather ih p.children

theorem silentTargets_walkers (budget : Nat) : (s.walkers budget).SilentTargets :=
  s.edges_targets budget

theorem value_readToken (p : Place) (live : LiveDefs) :
    (s.readToken p live).value =
      match (s.leaf p).value with
      | .name t => live.sight t
      | _ => live := by
  rw [readToken, Traced.value_bind]
  cases (s.leaf p).value with
  | name t =>
    simp only [LiveDefs.sight]
    cases live.get? t.text with
    | none => rfl
    | some defs =>
      by_cases h : defs = [t.index] <;> simp [h]
  | literal t => rfl
  | silent => rfl

theorem edges_readToken (p : Place) (live : LiveDefs) :
    (s.readToken p live).edges =
      match (s.leaf p).value with
      | .name t => live.reads t
      | _ => [] := by
  rw [readToken, Traced.edges_bind, edges_leaf, List.nil_append]
  cases (s.leaf p).value with
  | name t =>
    simp only [LiveDefs.reads]
    cases live.get? t.text with
    | none => rfl
    | some defs =>
      by_cases h : defs = [t.index] <;> simp [h]
  | literal t => rfl
  | silent => rfl

theorem value_resolveToken (p : Place) (live : LiveDefs) :
    (s.resolveToken p live).value =
      match (s.leaf p).value with
      | .name t => (live.sight t, live.sources t)
      | .literal t => (live, [t.source])
      | .silent => (live, []) := by
  rw [resolveToken, Traced.value_bind]
  cases (s.leaf p).value with
  | name t =>
    simp only [LiveDefs.sight, LiveDefs.sources]
    cases live.get? t.text <;> rfl
  | literal t => rfl
  | silent => rfl

@[simp] theorem edges_resolveToken (p : Place) (live : LiveDefs) :
    (s.resolveToken p live).edges = [] := by
  rw [resolveToken, Traced.edges_bind, edges_leaf, List.nil_append]
  cases (s.leaf p).value with
  | name t =>
    simp only
    cases live.get? t.text <;> rfl
  | literal t => rfl
  | silent => rfl

end Setup

end TokenFlow
