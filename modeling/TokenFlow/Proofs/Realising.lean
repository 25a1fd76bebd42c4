import Mathlib.Data.Set.Image
import TokenFlow.Proofs.EdgeSlots
import TokenFlow.Proofs.Effects
import TokenFlow.Proofs.PathTotality

/-!
# Paths that realise what a walk draws

The live definitions of a walk stand for a set of trails.  The set `Realises` them if
each definition is held by some trail of the set, and if no trail binds what the walk does
not.  A computation of the walk is realised by that of a path (`Traced.RealisedBy`) if its
live definitions are realised by the trails that the path ends with, and if each source of
each of its edges is drawn by some outcome.  Different sources may be drawn by different
outcomes: nothing asks for one path that draws them all.

A path that has drawn a source must be able to go on, or it would be no path at all; so
every step of a path has an outcome (`Paths.Possible`).
-/
namespace TokenFlow

/-! ## Outcomes of paths -/

namespace Paths

variable {α β γ : Type}

/-- The values of the outcomes. -/
def values (x : Paths α) : Set α :=
  {a | ∃ r ∈ x, r.value = a}

/-- Any value of a set. -/
def among (V : Set α) : Paths α :=
  choose (· ∈ V)

theorem mem_among_bind {V : Set α} {f : α → Paths β} {r : Run β} :
    r ∈ among V >>= f ↔ ∃ a ∈ V, r ∈ f a :=
  mem_choose_bind

/-- Where a path may start, with where it may end from there. -/
def pairs (V : Set α) (f : α → Paths β) : Set (α × β) :=
  {q | q.1 ∈ V ∧ ∃ r ∈ f q.1, r.value = q.2}

theorem exists_mem_pairs {V : Set α} {f : α → Paths β} (hf : ∀ a, (f a).Possible) {a : α}
    (ha : a ∈ V) : ∃ b, (a, b) ∈ pairs V f := by
  obtain ⟨r, hr⟩ := hf a
  exact ⟨r.value, ha, r, hr, rfl⟩

theorem fst_image_pairs {f : α → Paths β} (hf : ∀ a, (f a).Possible) (V : Set α) :
    Prod.fst '' pairs V f = V := by
  ext a
  constructor
  · rintro ⟨q, hq, rfl⟩
    exact hq.1
  · intro ha
    obtain ⟨b, hb⟩ := exists_mem_pairs hf ha
    exact ⟨_, hb, rfl⟩

theorem mem_values_among_bind {V : Set α} {f : α → Paths β} {b : β} :
    b ∈ (among V >>= f).values ↔ ∃ a ∈ V, ∃ r ∈ f a, r.value = b := by
  constructor
  · rintro ⟨r, hr, rfl⟩
    obtain ⟨a, ha, hr⟩ := mem_among_bind.mp hr
    exact ⟨a, ha, r, hr, rfl⟩
  · rintro ⟨a, ha, r, hr, rfl⟩
    exact ⟨r, mem_among_bind.mpr ⟨a, ha, hr⟩, rfl⟩

theorem values_among_bind (V : Set α) (f : α → Paths β) :
    (among V >>= f).values = Prod.snd '' pairs V f := by
  ext b
  rw [mem_values_among_bind]
  constructor
  · rintro ⟨a, ha, r, hr, rfl⟩
    exact ⟨(a, r.value), ⟨ha, r, hr, rfl⟩, rfl⟩
  · rintro ⟨⟨a, _⟩, ⟨ha, r, hr, rfl⟩, rfl⟩
    exact ⟨a, ha, r, hr, rfl⟩

/-- What a path may end with depends on the values on the way, not on the edges. -/
theorem values_bind (x : Paths α) (f : α → Paths β) :
    (x >>= f).values = (among x.values >>= f).values := by
  ext b
  rw [mem_values_among_bind]
  constructor
  · rintro ⟨_, ⟨before, hbefore, after, hafter, rfl⟩, rfl⟩
    exact ⟨before.value, ⟨before, hbefore, rfl⟩, after, hafter, rfl⟩
  · rintro ⟨_, ⟨before, hbefore, rfl⟩, after, hafter, rfl⟩
    exact ⟨_, mem_bind.mpr ⟨before, hbefore, after, hafter, rfl⟩, rfl⟩

/-- To start from a part of what one starts with is to start from the parts. -/
theorem among_image_bind (V : Set γ) (h : γ → α) (f : α → Paths β) :
    among (h '' V) >>= f = among V >>= fun c => f (h c) := by
  refine ext fun r => ?_
  rw [mem_among_bind, mem_among_bind]
  constructor
  · rintro ⟨_, ⟨c, hc, rfl⟩, hr⟩
    exact ⟨c, hc, hr⟩
  · rintro ⟨c, hc, hr⟩
    exact ⟨h c, ⟨c, hc, rfl⟩, hr⟩

end Paths

open Paths (among)

/-! ## Realised computations -/

/-- The path brings up an edge for the same token and relation with the source. -/
def Run.Draws {β : Type} (r : Run β) (e : Edge) (x : Source) : Prop :=
  ∃ f ∈ r.edges, f.slot = e.slot ∧ ∃ y ∈ f.sources, y.source = x

theorem Run.Draws.append_left {β γ : Type} {r : Run β} {e : Edge} {x : Source} (h : r.Draws e x)
    (c : γ) (after : List PathEdge) : (⟨c, r.edges ++ after⟩ : Run γ).Draws e x := by
  obtain ⟨f, hf, hdraws⟩ := h
  exact ⟨f, List.mem_append_left _ hf, hdraws⟩

theorem Run.Draws.append_right {β γ : Type} {r : Run β} {e : Edge} {x : Source} (h : r.Draws e x)
    (c : γ) (before : List PathEdge) : (⟨c, before ++ r.edges⟩ : Run γ).Draws e x := by
  obtain ⟨f, hf, hdraws⟩ := h
  exact ⟨f, List.mem_append_right _ hf, hdraws⟩

/-- The values of the paths are related to the value of the walk, and each source of an
edge that is to be accounted for is drawn by some outcome.  Which sources these are
depends on the index that the edge defines. -/
structure Traced.RealisedBy {α β : Type} (account : Nat → Source → Prop) (x : Traced α)
    (paths : Paths β) (related : Set β → α → Prop) : Prop where
  value : related paths.values x.value
  edges : ∀ e ∈ x.edges, ∀ y ∈ e.sources, account e.index y → ∃ r ∈ paths, r.Draws e y

namespace Traced.RealisedBy

variable {account : Nat → Source → Prop} {α β γ δ ε : Type}
  {R : Set β → α → Prop} {S : Set δ → γ → Prop}

theorem pure {x : Traced γ} {V : Set ε} {k : ε → δ} (hx : x.edges = []) (h : S (k '' V) x.value) :
    x.RealisedBy account (among V >>= fun c => pure (k c)) S where
  value := by
    have hvalues : (among V >>= fun c => (Pure.pure (k c) : Paths δ)).values = k '' V := by
      ext d
      rw [Paths.mem_values_among_bind]
      constructor
      · rintro ⟨c, hc, _, rfl, rfl⟩
        exact ⟨c, hc, rfl⟩
      · rintro ⟨c, hc, rfl⟩
        exact ⟨c, hc, _, rfl, rfl⟩
    exact hvalues ▸ h
  edges e he := absurd (hx ▸ he) List.not_mem_nil

theorem stay {x : Traced γ} {V : Set δ} (hx : x.edges = []) (h : S V x.value) :
    x.RealisedBy account (among V >>= Pure.pure) S :=
  .pure (k := id) hx ((Set.image_id V).symm ▸ h)

/-- What the walk does without edges before it goes on does not matter. -/
theorem after {x : Traced α} {f : α → Traced γ} {paths : Paths δ} (hx : x.edges = [])
    (hf : (f x.value).RealisedBy account paths S) : (x >>= f).RealisedBy account paths S where
  value := hf.value
  edges e he := by
    rw [Traced.edges_bind, hx, List.nil_append] at he
    exact hf.edges e he

theorem bind {x : Traced α} {f : α → Traced γ} {paths : Paths β} {g : β → Paths δ}
    (hx : x.RealisedBy account paths R) (hpossible : ∀ b, (g b).Possible)
    (hf : ∀ V a, R V a → (f a).RealisedBy account (among V >>= g) S) :
    (x >>= f).RealisedBy account (paths >>= g) S where
  value := Paths.values_bind paths g ▸ (hf _ _ hx.value).value
  edges e he y hy haccount := by
    rcases List.mem_append.mp he with he | he
    · obtain ⟨before, hbefore, hdraws⟩ := hx.edges e he y hy haccount
      obtain ⟨after, hafter⟩ := hpossible before.value
      exact ⟨_, Paths.mem_bind.mpr ⟨before, hbefore, after, hafter, rfl⟩, hdraws.append_left _ _⟩
    · obtain ⟨after, hafter, hdraws⟩ := (hf _ _ hx.value).edges e he y hy haccount
      obtain ⟨_, ⟨before, hbefore, rfl⟩, hafter⟩ := Paths.mem_among_bind.mp hafter
      exact ⟨_, Paths.mem_bind.mpr ⟨before, hbefore, after, hafter, rfl⟩, hdraws.append_right _ _⟩

/-- One step of the path after another. -/
theorem andThen {x : Traced α} {f : α → Traced γ} {V : Set ε} {g : ε → Paths β}
    {h : β → Paths δ} (hx : x.RealisedBy account (among V >>= g) R)
    (hpossible : ∀ b, (h b).Possible)
    (hf : ∀ V a, R V a → (f a).RealisedBy account (among V >>= h) S) :
    (x >>= f).RealisedBy account (among V >>= fun c => g c >>= h) S :=
  bind_assoc (among V) g h ▸ hx.bind hpossible hf

theorem value_pairs {x : Traced α} {V : Set ε} {g : ε → Paths β}
    (hx : x.RealisedBy account (among V >>= g) R) : R (Prod.snd '' Paths.pairs V g) x.value :=
  Paths.values_among_bind V g ▸ hx.value

/-- The path keeps something from before. -/
theorem keep {x : Traced α} {V : Set ε} {g : ε → Paths β}
    (hx : x.RealisedBy account (among V >>= g) R) (f : α → γ) (k : ε → β → δ)
    (hS : S ((fun q => k q.1 q.2) '' Paths.pairs V g) (f x.value)) :
    (x >>= fun a => Pure.pure (f a)).RealisedBy account
      (among V >>= fun c => g c >>= fun b => Pure.pure (k c b)) S where
  value := by
    have hvalues : (among V >>= fun c => g c >>= fun b => Pure.pure (k c b)).values =
        (fun q => k q.1 q.2) '' Paths.pairs V g := by
      ext d
      rw [Paths.mem_values_among_bind]
      constructor
      · rintro ⟨c, hc, _, ⟨r, hr, _, rfl, rfl⟩, rfl⟩
        exact ⟨(c, r.value), ⟨hc, r, hr, rfl⟩, rfl⟩
      · rintro ⟨⟨c, _⟩, ⟨hc, r, hr, rfl⟩, rfl⟩
        exact ⟨c, hc, _, ⟨r, hr, _, rfl, rfl⟩, rfl⟩
    exact hvalues ▸ hS
  edges e he y hy haccount := by
    rw [Traced.edges_bind, Traced.edges_pure, List.append_nil] at he
    obtain ⟨r, hr, hdraws⟩ := hx.edges e he y hy haccount
    obtain ⟨c, hc, hr⟩ := Paths.mem_among_bind.mp hr
    exact ⟨_, Paths.mem_among_bind.mpr ⟨c, hc, Paths.mem_bind.mpr ⟨r, hr, _, rfl, rfl⟩⟩,
      hdraws.append_left _ _⟩

/-- Both bring up some edges and go on. -/
theorem emit {es : List Edge} {x : Traced γ} {V : Set ε} {fs : ε → List PathEdge} {k : ε → β}
    {h : β → Paths δ} (hpossible : ∀ b, (h b).Possible)
    (hes : ∀ e ∈ es, ∀ y ∈ e.sources, account e.index y →
      ∃ c ∈ V, ∃ f ∈ fs c, f.slot = e.slot ∧ ∃ z ∈ f.sources, z.source = y)
    (hx : x.RealisedBy account (among (k '' V) >>= h) S) :
    (Traced.emit es >>= fun _ => x).RealisedBy account
      (among V >>= fun c => Paths.emit (fs c) >>= fun _ => h (k c)) S where
  value := by
    have hvalues : (among V >>= fun c => Paths.emit (fs c) >>= fun _ => h (k c)).values =
        (among (k '' V) >>= h).values := by
      ext d
      rw [Paths.among_image_bind, Paths.mem_values_among_bind, Paths.mem_values_among_bind]
      constructor
      · rintro ⟨c, hc, _, ⟨_, rfl, r, hr, rfl⟩, rfl⟩
        exact ⟨c, hc, r, hr, rfl⟩
      · rintro ⟨c, hc, r, hr, rfl⟩
        exact ⟨c, hc, _, ⟨_, rfl, r, hr, rfl⟩, rfl⟩
    exact hvalues ▸ hx.value
  edges e he y hy haccount := by
    rcases List.mem_append.mp he with he | he
    · obtain ⟨c, hc, f, hf, hdraws⟩ := hes e he y hy haccount
      obtain ⟨r, hr⟩ := hpossible (k c)
      exact ⟨_, Paths.mem_among_bind.mpr ⟨c, hc, Paths.mem_emit_bind.mpr ⟨r, hr, rfl⟩⟩,
        f, List.mem_append_left _ hf, hdraws⟩
    · obtain ⟨r, hr, hdraws⟩ := hx.edges e he y hy haccount
      obtain ⟨_, ⟨c, hc, rfl⟩, hr⟩ := Paths.mem_among_bind.mp hr
      exact ⟨_, Paths.mem_among_bind.mpr ⟨c, hc, Paths.mem_emit_bind.mpr ⟨r, hr, rfl⟩⟩,
        hdraws.append_right _ _⟩

/-- Only the value and the edges matter. -/
theorem congr {x y : Traced α} {paths : Paths β} (hx : x.RealisedBy account paths R)
    (hvalue : y.value = x.value) (hedges : y.edges = x.edges) : y.RealisedBy account paths R :=
  ⟨hvalue ▸ hx.value, fun e he => hx.edges e (hedges ▸ he)⟩

/-- Folding makes up no source. -/
theorem fold {x : Traced α} {paths : Paths β} (hx : x.RealisedBy account paths R) :
    (x.mapEdges Edge.fold).RealisedBy account paths R where
  value := hx.value
  edges e he y hy haccount := by
    obtain ⟨e', he', hslot, hy'⟩ := Edge.exists_mem_of_fold he hy
    have hindex : e'.index = e.index := congrArg (·.2.1) hslot
    obtain ⟨r, hr, f, hf, hsame, hdraws⟩ := hx.edges e' he' y hy' (hindex ▸ haccount)
    exact ⟨r, hr, f, hf, hsame.trans hslot, hdraws⟩

end Traced.RealisedBy

/-! ## Sets of trails -/

/-- The trail holds a definition of a name. -/
def Trail.Holds (t : Trail) (name : String) (d : Nat) : Prop :=
  ∃ held, t name = some held ∧ d ∈ held.defs

/-- The set of trails realises the live definitions. -/
structure Realises (V : Set Trail) (live : LiveDefs) : Prop where
  ascending : live.Ascending
  nonempty : V.Nonempty
  /-- No trail binds what is not bound. -/
  unbound : ∀ t ∈ V, ∀ name, live.get? name = none → t name = none
  held : ∀ name defs, live.get? name = some defs → ∀ d ∈ defs, ∃ t ∈ V, t.Holds name d

namespace Realises

variable {V : Set Trail} {live : LiveDefs}

theorem empty : Realises {Trail.empty} .empty where
  ascending := LiveDefs.ascending_empty
  nonempty := ⟨_, rfl⟩
  unbound t ht _ _ := by
    rw [ht]
    rfl
  held _ _ h := nomatch h

theorem ofLive (h : live.Ascending) : Realises {Trail.ofLive live} live where
  ascending := h
  nonempty := ⟨_, rfl⟩
  unbound t ht name hnone := by
    rw [ht, Trail.ofLive, hnone]
    rfl
  held name defs hdefs d hd := by
    refine ⟨_, rfl, ⟨defs, true⟩, ?_, hd⟩
    rw [Trail.ofLive, hdefs]
    rfl

/-- What a path answers besides does not matter to what its trails realise. -/
theorem answer {α : Type} (h : Realises V live) (a : α) :
    Realises (Prod.fst '' ((fun t => (t, a)) '' V)) live := by
  rw [Set.image_image, Set.image_id']
  exact h

/-- Each source that stands for a live definition is a source of what some trail holds. -/
theorem exists_held (h : Realises V live) {name : String} {defs : List Nat}
    (hdefs : live.get? name = some defs) {x : Source} (hx : x ∈ Source.ofDefs name defs) :
    ∃ t ∈ V, ∃ held, t name = some held ∧ x.index ∈ held.defs ∧
      ∃ y ∈ held.sources name, y.source = x := by
  obtain ⟨d, hd, rfl⟩ := List.mem_map.mp hx
  obtain ⟨t, ht, held, hheld, hmem⟩ := h.held name defs hdefs d hd
  refine ⟨t, ht, held, hheld, hmem, ⟨⟨name, d⟩, held.firm⟩, ?_, rfl⟩
  exact List.mem_map_of_mem (List.mem_map_of_mem hmem)

/-- Whatever a name draws from as a value it draws from on some trail. -/
theorem sources (h : Realises V live) (k : Token) {x : Source} (hx : x ∈ live.sources k) :
    ∃ t ∈ V, ∃ y ∈ t.sources k, y.source = x := by
  unfold LiveDefs.sources at hx
  unfold Trail.sources
  cases hget : live.get? k.text with
  | none =>
    rw [hget] at hx
    obtain ⟨t, ht⟩ := h.nonempty
    refine ⟨t, ht, ⟨k.source, false⟩, ?_, (List.mem_singleton.mp hx).symm⟩
    rw [h.unbound t ht k.text hget]
    exact List.mem_cons_self
  | some defs =>
    rw [hget] at hx
    obtain ⟨t, ht, held, hheld, -, y, hy, rfl⟩ := h.exists_held hget hx
    exact ⟨t, ht, y, by rwa [hheld], rfl⟩

/-- Whatever a name that is read as a statement draws from, but for itself, it draws from
on some trail. -/
theorem reads (h : Realises V live) (k : Token) {e : Edge} (he : e ∈ live.reads k) {x : Source}
    (hx : x ∈ e.sources) (hother : x.index ≠ e.index) :
    ∃ t ∈ V, ∃ f ∈ t.reads k, f.slot = e.slot ∧ ∃ y ∈ f.sources, y.source = x := by
  unfold LiveDefs.reads at he
  cases hget : live.get? k.text with
  | none =>
    rw [hget] at he
    exact absurd he List.not_mem_nil
  | some defs =>
    simp only [hget] at he
    split at he
    · exact absurd he List.not_mem_nil
    cases List.mem_singleton.mp he
    obtain ⟨t, ht, held, hheld, hmem, hdraws⟩ :=
      h.exists_held hget (Edge.mem_sources_ofSources.mp hx)
    have hown : held.defs ≠ [k.index] := fun hown => by
      rw [hown] at hmem
      exact hother (List.mem_singleton.mp hmem)
    refine ⟨t, ht, ⟨k.text, k.index, .comesFrom, held.sources k.text⟩, ?_, rfl, hdraws⟩
    rw [Trail.reads, hheld]
    simp only [if_neg hown]
    exact List.mem_cons_self

theorem bind (h : Realises V live) (k : Token) :
    Realises ((·.bind k) '' V) (live.bind k.text k.index) where
  ascending := (Transfers.bind k).ascending h.ascending
  nonempty := h.nonempty.image _
  unbound := by
    rintro _ ⟨t, ht, rfl⟩ name hnone
    rw [LiveDefs.get?_bind] at hnone
    split at hnone
    · exact nomatch hnone
    · rename_i hne
      show (if k.text = name then _ else t name) = none
      rw [if_neg hne]
      exact h.unbound t ht name hnone
  held := by
    intro name defs hdefs d hd
    rw [LiveDefs.get?_bind] at hdefs
    split at hdefs
    · rename_i heq
      cases hdefs
      obtain ⟨t, ht⟩ := h.nonempty
      exact ⟨_, ⟨t, ht, rfl⟩, ⟨[k.index], true⟩, if_pos heq, hd⟩
    · rename_i hne
      obtain ⟨t, ht, held, hheld, hmem⟩ := h.held name defs hdefs d hd
      exact ⟨_, ⟨t, ht, rfl⟩, held, (if_neg hne).trans hheld, hmem⟩

theorem bindAll (h : Realises V live) (ks : List Token) :
    Realises ((·.bindAll ks) '' V) (live.bindAll ks) := by
  induction ks generalizing V live with
  | nil =>
    show Realises (id '' V) live
    rw [Set.image_id]
    exact h
  | cons k ks ih =>
    have hall := ih (h.bind k)
    rw [Set.image_image] at hall
    exact hall

/-- A name that the walk sights is sighted by every trail; one that it does not is left
alone by the trails that hold it. -/
theorem sight (h : Realises V live) (k : Token) :
    Realises ((·.sight k) '' V) (live.sight k) := by
  refine ⟨(Transfers.sight k).ascending h.ascending, h.nonempty.image _, ?_, ?_⟩
  · rintro _ ⟨t, ht, rfl⟩ name hnone
    by_cases heq : k.text = name
    · subst heq
      exact absurd hnone (LiveDefs.get?_sight_ne_none live k)
    · rw [LiveDefs.get?_sight_of_ne live heq] at hnone
      exact (Trail.sight_of_ne t heq).trans (h.unbound t ht name hnone)
  · intro name defs hdefs d hd
    by_cases heq : k.text = name
    · subst heq
      cases hget : live.get? k.text with
      | none =>
        -- no trail binds the name, so any one will do
        obtain ⟨t, ht⟩ := h.nonempty
        rw [LiveDefs.sight_of_eq_none hget, LiveDefs.get?_bind, if_pos rfl] at hdefs
        cases hdefs
        refine ⟨_, ⟨t, ht, rfl⟩, ⟨[k.index], false⟩, ?_, hd⟩
        show t.sight k k.text = _
        rw [Trail.sight_of_eq_none (h.unbound t ht k.text hget)]
        exact if_pos rfl
      | some own =>
        rw [LiveDefs.sight_of_eq_some hget] at hdefs
        obtain ⟨t, ht, held, hheld, hmem⟩ := h.held k.text defs hdefs d hd
        exact ⟨_, ⟨t, ht, rfl⟩, held, (congrFun (Trail.sight_of_eq_some hheld) _).trans hheld, hmem⟩
    · rw [LiveDefs.get?_sight_of_ne live heq] at hdefs
      obtain ⟨t, ht, held, hheld, hmem⟩ := h.held name defs hdefs d hd
      exact ⟨_, ⟨t, ht, rfl⟩, held, (Trail.sight_of_ne t heq).trans hheld, hmem⟩

/-- Behind a scope each trail has the scoped names back that it had before.  `P` pairs the
trails before the scope with those inside it. -/
theorem restoreAll (h : Realises V live) {P : Set (Trail × Trail)} {inner : LiveDefs}
    (hinner : Realises (Prod.snd '' P) inner) (hfrom : ∀ q ∈ P, q.1 ∈ V)
    (hto : ∀ t ∈ V, ∃ t', (t, t') ∈ P) (ks : List Token) :
    Realises ((fun q => q.2.restoreAll (ks.map fun k => (k.text, q.1 k.text))) '' P)
      (inner.restoreAll (ks.map fun k => (k.text, live.get? k.text))) := by
  refine ⟨fun name defs hdefs => ?_, ?_, ?_, fun name defs hdefs d hd => ?_⟩
  · rw [LiveDefs.get?_restoreAll] at hdefs
    split at hdefs
    · exact h.ascending name defs hdefs
    · exact hinner.ascending name defs hdefs
  · obtain ⟨t, ht⟩ := h.nonempty
    obtain ⟨t', hq⟩ := hto t ht
    exact ⟨_, (t, t'), hq, rfl⟩
  · rintro _ ⟨q, hq, rfl⟩ name hnone
    rw [LiveDefs.get?_restoreAll] at hnone
    show Trail.restoreAll _ _ name = none
    rw [Trail.restoreAll_apply]
    split at hnone
    · rename_i hmem
      rw [if_pos hmem]
      exact h.unbound _ (hfrom q hq) name hnone
    · rename_i hmem
      rw [if_neg hmem]
      exact hinner.unbound _ ⟨q, hq, rfl⟩ name hnone
  · rw [LiveDefs.get?_restoreAll] at hdefs
    split at hdefs
    · rename_i hmem
      -- a scoped name is held by a trail before the scope, which goes on into it
      obtain ⟨t, ht, held, hheld, hd⟩ := h.held name defs hdefs d hd
      obtain ⟨t', hq⟩ := hto t ht
      refine ⟨_, ⟨(t, t'), hq, rfl⟩, held, ?_, hd⟩
      exact (Trail.restoreAll_apply _ _ _ _).trans ((if_pos hmem).trans hheld)
    · rename_i hmem
      obtain ⟨_, ⟨q, hq, rfl⟩, held, hheld, hd⟩ := hinner.held name defs hdefs d hd
      refine ⟨_, ⟨q, hq, rfl⟩, held, ?_, hd⟩
      exact (Trail.restoreAll_apply _ _ _ _).trans ((if_neg hmem).trans hheld)

/-- More trails realise the same as long as they bind nothing else. -/
theorem mono (h : Realises V live) {W : Set Trail} (hsub : V ⊆ W)
    (hunbound : ∀ t ∈ W, ∀ name, live.get? name = none → t name = none) : Realises W live where
  ascending := h.ascending
  nonempty := h.nonempty.mono hsub
  unbound := hunbound
  held name defs hdefs d hd := by
    obtain ⟨t, ht, hholds⟩ := h.held name defs hdefs d hd
    exact ⟨t, hsub ht, hholds⟩

/-- Alternatives that are realised one by one are realised together. -/
theorem merge {α : Type} {xs : List α} (hne : xs ≠ []) {outcome : α → LiveDefs} {V : α → Set Trail}
    (h : ∀ x ∈ xs, Realises (V x) (outcome x)) :
    Realises {t | ∃ x ∈ xs, t ∈ V x} (.merge (xs.map outcome)) where
  ascending := LiveDefs.ascending_merge _
  nonempty := by
    obtain ⟨x, hx⟩ := List.exists_mem_of_ne_nil xs hne
    obtain ⟨t, ht⟩ := (h x hx).nonempty
    exact ⟨t, x, hx, ht⟩
  unbound := by
    rintro t ⟨x, hx, ht⟩ name hnone
    rw [LiveDefs.get?_merge] at hnone
    refine (h x hx).unbound t ht name (LiveDefs.unionOf_eq_none_iff.mp hnone _ ?_)
    exact List.mem_map_of_mem (List.mem_map_of_mem hx)
  held := by
    intro name defs hdefs d hd
    rw [LiveDefs.get?_merge] at hdefs
    obtain ⟨found, hfound, hmem⟩ := (LiveDefs.mem_of_unionOf hdefs).mp hd
    rw [List.map_map] at hfound
    obtain ⟨x, hx, hget⟩ := List.mem_map.mp hfound
    obtain ⟨t, ht, hholds⟩ := (h x hx).held name found hget d hmem
    exact ⟨t, ⟨x, hx, ht⟩, hholds⟩

end Realises

end TokenFlow
