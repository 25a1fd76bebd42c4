import TokenFlow.Proofs.WalkEffects

/-!
# What a walk does to each name

To a name, every place of a program is three things: some definitions that it adds, whether
those that come in survive it, and what a name is bound to that comes in unbound.  None of
the three depends on what comes in (`ActsByName.genKeep`), and the laws of such functions
follow: a name is not affected by other names, more definitions of a bound name lead to more,
united definitions lead to united ones, and a second reading changes nothing.

`Setup.actsByName_walks` says all this of both walks, at every place and whatever the limit.
The form is that of an `Effect`; here its laws for bound names are added to the idempotence
that holds of bound and unbound names alike.

What comes in unbound is a case of its own and has no such laws: a first sighting binds an
unbound name and adds nothing to a bound one.
-/
namespace TokenFlow

open LiveDefs (unionOf)

namespace Effect

theorem kept_mono (e : Effect) {defs defs' : List Nat} (h : defs ⊆ defs') :
    Ascending.ofList (e.gen ++ if e.keep then defs else []) ⊆
      Ascending.ofList (e.gen ++ if e.keep then defs' else []) := by
  intro d hd
  exact mem_kept.mpr ((mem_kept.mp hd).imp_right fun ⟨hkeep, hd⟩ => ⟨hkeep, h hd⟩)

/-- **An effect distributes over the union of definitions** of a name that is bound in each of
the alternatives. -/
theorem apply_unionOf (e : Effect) {os : List (Option (List Nat))} (hne : os ≠ [])
    (hbound : ∀ o ∈ os, o ≠ none) : e.apply (unionOf os) = unionOf (os.map e.apply) := by
  obtain ⟨o, ho⟩ := List.exists_mem_of_ne_nil os hne
  cases hdefs : unionOf os with
  | none => exact absurd (LiveDefs.unionOf_eq_none_iff.mp hdefs o ho) (hbound o ho)
  | some defs =>
    cases hfound : unionOf (os.map e.apply) with
    | none =>
      have hnone := LiveDefs.unionOf_eq_none_iff.mp hfound _ (List.mem_map_of_mem ho)
      exact absurd hnone (e.apply_ne_none (hbound o ho))
    | some found =>
      refine apply_some (LiveDefs.pairwise_of_unionOf hfound) fun d => ?_
      rw [LiveDefs.mem_of_unionOf hfound, LiveDefs.mem_of_unionOf hdefs]
      constructor
      · rintro ⟨kept, hkept, hd⟩
        obtain ⟨own, hown, heq⟩ := List.mem_map.mp hkept
        obtain ⟨defs, rfl⟩ := Option.ne_none_iff_exists'.mp (hbound own hown)
        cases heq
        exact (mem_kept.mp hd).imp_right fun ⟨hkeep, hd⟩ => ⟨hkeep, defs, hown, hd⟩
      · rintro (hgen | ⟨hkeep, own, hown, hd⟩)
        · -- each alternative has what is added, and there is one
          obtain ⟨defs, rfl⟩ := Option.ne_none_iff_exists'.mp (hbound o ho)
          exact ⟨_, List.mem_map_of_mem ho, mem_kept.mpr (Or.inl hgen)⟩
        · exact ⟨_, List.mem_map_of_mem hown, mem_kept.mpr (Or.inr ⟨hkeep, hd⟩)⟩

end Effect

/-- The function acts on each name by itself, by adding definitions to it and keeping or
dropping those that it had. -/
structure ActsByName (f : LiveDefs → LiveDefs) : Prop where
  /-- A name that comes in unbound is bound as given by `fresh`; to one that comes in bound,
  the definitions `gen` are added, and its own stay if `keep` is set.  The three depend on the
  name alone. -/
  genKeep : ∀ name, ∃ (gen : List Nat) (keep : Bool) (fresh : Option (List Nat)),
    ∀ live : LiveDefs, live.Ascending →
      (live.get? name = none → (f live).get? name = fresh) ∧
      ∀ defs, live.get? name = some defs →
        (f live).get? name = some (Ascending.ofList (gen ++ if keep then defs else []))
  /-- What a name is bound to afterwards depends on no other name. -/
  independent : ∀ name (live live' : LiveDefs), live.Ascending → live'.Ascending →
    live.get? name = live'.get? name → (f live).get? name = (f live').get? name
  /-- More definitions of a bound name lead to more. -/
  monotone : ∀ name (live live' : LiveDefs), live.Ascending → live'.Ascending →
    ∀ defs defs', live.get? name = some defs → live'.get? name = some defs' → defs ⊆ defs' →
      ∃ found found', (f live).get? name = some found ∧ (f live').get? name = some found' ∧
        found ⊆ found'
  /-- Where alternatives meet that all bind a name, its definitions afterwards are united from
  those to which the single alternatives lead. -/
  union : ∀ name (alternatives : List LiveDefs), alternatives ≠ [] →
    (∀ live ∈ alternatives, live.Ascending ∧ live.get? name ≠ none) →
      (f (.merge alternatives)).get? name =
        unionOf (alternatives.map fun live => (f live).get? name)
  /-- To do the same again changes nothing, neither for bound names nor for unbound ones. -/
  idempotent : ∀ live : LiveDefs, live.Ascending → f (f live) = f live

theorem Transfers.actsByName {f : LiveDefs → LiveDefs} (hf : Transfers f) : ActsByName f where
  genKeep name := by
    obtain ⟨e, he⟩ := hf name
    refine ⟨e.gen, e.keep, e.fresh, fun live h => ⟨fun hnone => ?_, fun defs hdefs => ?_⟩⟩
    · rw [he live h, hnone]
      rfl
    · rw [he live h, hdefs]
      rfl
  independent name live live' h h' hsame := by
    obtain ⟨e, he⟩ := hf name
    rw [he live h, he live' h', hsame]
  monotone name live live' h h' defs defs' hdefs hdefs' hsub := by
    obtain ⟨e, he⟩ := hf name
    refine ⟨_, _, ?_, ?_, e.kept_mono hsub⟩
    · rw [he live h, hdefs]
      rfl
    · rw [he live' h', hdefs']
      rfl
  union name alternatives hne hbound := by
    obtain ⟨e, he⟩ := hf name
    have hsingle : alternatives.map (fun live => (f live).get? name) =
        (alternatives.map (·.get? name)).map e.apply := by
      rw [List.map_map]
      exact List.map_congr_left fun live hlive => he live (hbound live hlive).1
    rw [he _ (LiveDefs.ascending_merge _), LiveDefs.get?_merge, hsingle]
    refine e.apply_unionOf (mt List.map_eq_nil_iff.mp hne) ?_
    exact List.forall_mem_map.mpr fun live hlive => (hbound live hlive).2
  idempotent _ h := hf.apply_apply h

namespace Setup

/-- **Every place acts on each name by itself**, read as a statement or as a value and
wherever nesting is cut. -/
theorem actsByName_walks (s : Setup) (budget : Nat) (p : Place) :
    (ActsByName fun live => (s.visit budget p live).value) ∧
      ActsByName fun live => (s.resolve budget p live).value.1 :=
  ⟨((s.effective_walkers budget).visit p).actsByName,
    ((s.effective_walkers budget).resolve p).actsByName⟩

end Setup

/-! ## A guarded copy -/

namespace GuardedCopy

/-- `if a: a = b` -/
def root : Place :=
  .root <| .onLine 0 "if_statement" true none 0 11 [
    .onLine 1 "if" false none 0 2 [],
    .onLine 2 "identifier" true (some "condition") 3 4 [],
    .onLine 3 ":" false none 4 5 [],
    .onLine 4 "assignment" true (some "consequence") 6 11 [
      .onLine 5 "identifier" true (some "left") 6 7 [],
      .onLine 6 "=" false none 8 9 [],
      .onLine 7 "identifier" true (some "right") 10 11 []]]

def setup : Setup where
  language := Language.python
  tokens := .ofTree Language.python "if a: a = b".toUTF8 root.node

/-- What is live behind the statement. -/
def behind (live : LiveDefs) : LiveDefs :=
  (setup.visit setup.budget root live).value

/-- Another definition of `a` than that in the seed of the loop that copies. -/
def other : LiveDefs :=
  CopyLoop.seed.bind "a" 7

end GuardedCopy

namespace Setup

open GuardedCopy

/-- The statement adds the token 3 to the definitions of `a` and keeps those that come in: two
alternatives lead to the union of what each leads to, and a second reading to what is there. -/
theorem actsByName_guardedCopy :
    (behind CopyLoop.seed).get? "a" = some [3, 8] ∧ (behind other).get? "a" = some [3, 7] ∧
      (behind (.merge [CopyLoop.seed, other])).get? "a" = unionOf [some [3, 8], some [3, 7]] ∧
      behind (behind CopyLoop.seed) = behind CopyLoop.seed := by
  have hacts := (actsByName_walks setup setup.budget root).1
  have hother : other.Ascending :=
    (Transfers.bind (CopyLoop.token 7 "a")).ascending CopyLoop.ascending_seed
  have hseed : (behind CopyLoop.seed).get? "a" = some [3, 8] := by decide +kernel
  have hseed' : (behind other).get? "a" = some [3, 7] := by decide +kernel
  have hunion := hacts.union "a" [CopyLoop.seed, other] (List.cons_ne_nil _ _) (by
    refine List.forall_mem_cons.mpr ⟨⟨CopyLoop.ascending_seed, by decide⟩, ?_⟩
    exact List.forall_mem_singleton.mpr ⟨hother, by decide⟩)
  refine ⟨hseed, hseed', hunion.trans ?_, hacts.idempotent _ CopyLoop.ascending_seed⟩
  show unionOf [(behind CopyLoop.seed).get? "a", (behind other).get? "a"] = _
  rw [hseed, hseed']

end Setup

end TokenFlow
