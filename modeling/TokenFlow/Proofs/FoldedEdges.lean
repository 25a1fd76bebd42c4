import Mathlib.Data.List.Induction
import Mathlib.Data.List.Nodup
import TokenFlow.Analysis.Walkers
import TokenFlow.Proofs.FoldTables

/-!
# Folding is a grouped union

A loop folds the edges that its rounds bring up and leaves alone those that were there before
it: it folds from a start (`Walkers.edges_loop`, `Walkers.edges_iterate`).  What folding from a
start does is the main result, `Edge.foldFrom_unites_slots`.

The folded edges have the slots of the edges, each once and in the order in which they come up
first (`map_slot_fold`), and the edge of a slot has the sources of all edges of the slot
(`mem_sources_fold`).  Edges with different slots are folded already (`fold_eq_self`), so
folding again does nothing, and nor does folding what repeats an edge (`fold_fold_append`):
loops may be nested.
-/
namespace TokenFlow

namespace Edge

variable {es : List Edge}

/-! ## Slots -/

theorem fold_append_singleton (es : List Edge) (e : Edge) :
    fold (es ++ [e]) = absorb (fold es) e := by
  rw [fold, List.foldl_append]
  rfl

theorem eraseDups_append_singleton {α : Type} [BEq α] [LawfulBEq α] (xs : List α) (x : α)
    [Decidable (x ∈ xs)] :
    (xs ++ [x]).eraseDups = if x ∈ xs then xs.eraseDups else xs.eraseDups ++ [x] := by
  rw [List.eraseDups_append]
  by_cases h : x ∈ xs
  · have hnone : [x].removeAll xs = [] := by simp [List.removeAll, h]
    rw [hnone, if_pos h, List.eraseDups_nil, List.append_nil]
  · have hall : [x].removeAll xs = [x] := by simp [List.removeAll, h]
    rw [hall, if_neg h]
    rfl

/-- **The slots that are folded are those of the edges, in the order in which they come up.** -/
theorem map_slot_fold (es : List Edge) : (fold es).map slot = (es.map slot).eraseDups := by
  -- from the right, for the edge that is absorbed last
  induction es using List.reverseRecOn with
  | nil => rfl
  | append_singleton es e ih =>
    have hmem : e.slot ∈ (fold es).map slot ↔ e.slot ∈ es.map slot := by
      rw [ih, List.mem_eraseDups]
    rw [fold_append_singleton, map_slot_absorb, List.map_append, List.map_singleton,
      eraseDups_append_singleton, ← ih]
    simp only [hmem]

/-! ## Sources -/

/-- There is one folded edge for a slot. -/
theorem eq_of_slot_eq {f g : Edge} (hf : f ∈ fold es) (hg : g ∈ fold es)
    (h : f.slot = g.slot) : f = g :=
  List.inj_on_of_nodup_map (nodup_slots_fold es) hf hg h

/-- **A folded edge has the sources of all edges of its slot.** -/
theorem mem_sources_fold {f : Edge} (hf : f ∈ fold es) {x : Source} :
    x ∈ f.sources ↔ ∃ e ∈ es, e.slot = f.slot ∧ x ∈ e.sources := by
  refine ⟨exists_mem_of_fold hf, ?_⟩
  rintro ⟨e, he, hslot, hx⟩
  obtain ⟨g, hg, hg', hsub⟩ := covered_fold he
  rw [eq_of_slot_eq hf hg (hslot.symm.trans hg'.symm)]
  exact hsub hx

theorem canonical_of_mem_fold (hes : ∀ e ∈ es, e.Canonical) : ∀ f ∈ fold es, f.Canonical :=
  forall_fold (fun f e _ _ _ => canonical_unite f e) hes

/-! ## Folding again -/

theorem fold_eq_self (h : (es.map slot).Nodup) : fold es = es := by
  induction es using List.reverseRecOn with
  | nil => rfl
  | append_singleton es e ih =>
    rw [List.map_append, List.map_singleton] at h
    obtain ⟨hes, -, hdisjoint⟩ := List.nodup_append.mp h
    rw [fold_append_singleton, ih hes]
    exact absorb_of_notMem fun hmem => hdisjoint _ hmem _ List.mem_cons_self rfl

theorem fold_fold (es : List Edge) : fold (fold es) = fold es :=
  fold_eq_self (nodup_slots_fold es)

/-- **What repeats an edge that was folded, or a folded edge, leaves no trace.** -/
theorem fold_fold_append {repeats : List Edge} (hes : ∀ e ∈ es, e.Canonical)
    (h : ∀ d ∈ repeats, d ∈ es ∨ d ∈ fold es) : fold (fold es ++ repeats) = fold es := by
  have hleaves : ∀ d ∈ repeats, absorb (fold es) d = fold es := by
    intro d hd
    rcases h d hd with hd | hd
    · exact absorb_fold_of_mem hes hd
    · exact fold_fold es ▸ absorb_fold_of_mem (canonical_of_mem_fold hes) hd
  rw [fold, List.foldl_append]
  show repeats.foldl absorb (fold (fold es)) = fold es
  rw [fold_fold]
  clear h
  induction repeats with
  | nil => rfl
  | cons d repeats ih =>
    obtain ⟨hd, hrepeats⟩ := List.forall_mem_cons.mp hleaves
    rw [List.foldl_cons, hd, ih hrepeats]

/-! ## Folding from a start -/

/-- Leaves the first edges alone and folds the others. -/
def foldFrom (start : Nat) (edges : List Edge) : List Edge :=
  edges.take start ++ fold (edges.drop start)

variable (start : Nat)

theorem take_foldFrom (es : List Edge) : (foldFrom start es).take start = es.take start := by
  rw [foldFrom, List.take_append, List.take_take, Nat.min_self]
  rcases Nat.le_total start es.length with h | h
  · rw [List.length_take_of_le h, Nat.sub_self, List.take_zero, List.append_nil]
  · rw [List.drop_of_length_le h]
    exact (congrArg _ List.take_nil).trans (List.append_nil _)

theorem drop_foldFrom (es : List Edge) : (foldFrom start es).drop start = fold (es.drop start) := by
  rw [foldFrom, List.drop_append]
  rcases Nat.le_total start es.length with h | h
  · rw [List.length_take_of_le h, Nat.sub_self, List.drop_zero, List.drop_of_length_le
      (Nat.le_of_eq (List.length_take_of_le h)), List.nil_append]
  · rw [List.drop_of_length_le h, List.drop_of_length_le (List.length_take_le _ _)]
    exact List.drop_nil

variable {start} in
theorem foldFrom_congr {es fs : List Edge} (htake : fs.take start = es.take start)
    (hdrop : fold (fs.drop start) = fold (es.drop start)) :
    foldFrom start fs = foldFrom start es := by
  rw [foldFrom, foldFrom, htake, hdrop]

theorem foldFrom_foldFrom (es : List Edge) :
    foldFrom start (foldFrom start es) = foldFrom start es := by
  refine foldFrom_congr (take_foldFrom start es) ?_
  rw [drop_foldFrom, fold_fold]

/-- What repeats an edge behind the start leaves no trace. -/
theorem foldFrom_foldFrom_append {repeats : List Edge} (hes : ∀ e ∈ es, e.Canonical)
    (h : ∀ d ∈ repeats, d ∈ es.drop start ∨ d ∈ fold (es.drop start)) :
    foldFrom start (foldFrom start es ++ repeats) = foldFrom start es := by
  rcases Nat.le_total start es.length with hstart | hstart
  · have hlength : start ≤ (foldFrom start es).length := by
      rw [foldFrom, List.length_append, List.length_take_of_le hstart]
      exact Nat.le_add_right _ _
    apply foldFrom_congr
    · rw [List.take_append_of_le_length hlength, take_foldFrom]
    · rw [List.drop_append_of_le_length hlength, drop_foldFrom]
      exact fold_fold_append (fun e he => hes e (List.mem_of_mem_drop he)) h
  · -- there is nothing behind the start that could be repeated
    rw [List.drop_of_length_le hstart] at h
    have hnone : repeats = [] := List.eq_nil_iff_forall_not_mem.mpr fun d hd =>
      (h d hd).elim List.not_mem_nil List.not_mem_nil
    rw [hnone, List.append_nil, foldFrom_foldFrom]

end Edge

/-! ## Loops -/

/-- **What folds its edges folds from where it starts.** -/
theorem Traced.edges_bind_fold {α β : Type} (x : Traced α) (f : α → Traced β) :
    (x >>= fun a => (f a).mapEdges Edge.fold).edges =
      Edge.foldFrom x.edges.length (x >>= f).edges := by
  rw [edges_bind, edges_bind, edges_mapEdges, Edge.foldFrom, List.take_left, List.drop_left]

namespace Walkers

variable (w : Walkers) (passes : Nat) (live : LiveDefs)

/-- A loop folds what comes up behind the edges of its setup and in front of those of its tail. -/
theorem edges_loop (l : Loop) :
    let entered := w.visitAll l.setup live
    let repeated := entered >>= rounds (w.visitAll l.repeated) passes
    (w.loop passes l live).edges =
      Edge.foldFrom entered.edges.length repeated.edges ++
        (w.visitAll l.tail repeated.value).edges := by
  intro entered repeated
  rw [← Traced.edges_bind_fold]
  exact (List.append_assoc _ _ _).symm

/-- An iteration folds what its rounds bring up. -/
theorem edges_iterate (i : Iteration) :
    let entered := w.shadowed i live
    let repeated := entered >>= fun _ => rounds (w.round i) passes live
    (w.iterate passes i live).edges =
      Edge.foldFrom entered.edges.length repeated.edges ++
        (w.visitAll i.tail repeated.value).edges := by
  intro entered repeated
  have hedges : (w.iterate passes i live).edges =
      entered.edges ++ (Edge.fold (rounds (w.round i) passes live).edges ++
        ((w.visitAll i.tail repeated.value).edges ++ [])) := rfl
  rw [← Traced.edges_bind_fold, hedges, List.append_nil]
  exact (List.append_assoc _ _ _).symm

end Walkers

namespace Edge

/-- **Folding from a start is a grouped union.**  Of canonical edges, those before the start
stay as they are.  Behind it there is one edge for each slot that comes up there, in the order
in which the slots come up first; it is canonical and has the sources of all edges of its slot.
To fold again changes nothing, also if edges that are there, or were, have been repeated.  One pass
over the edges with two tables answers the same, and it is from a start that loops and iterations
fold: from where their rounds begin. -/
theorem foldFrom_unites_slots (start : Nat) (es : List Edge) (hes : ∀ e ∈ es, e.Canonical) :
    (foldFrom start es).take start = es.take start ∧
    ((foldFrom start es).drop start).map slot = ((es.drop start).map slot).eraseDups ∧
    (((foldFrom start es).drop start).map slot).Nodup ∧
    (∀ f ∈ (foldFrom start es).drop start, f.Canonical ∧
      ∀ x, x ∈ f.sources ↔ ∃ e ∈ es.drop start, e.slot = f.slot ∧ x ∈ e.sources) ∧
    foldFrom start (foldFrom start es) = foldFrom start es ∧
    (∀ repeats : List Edge,
      (∀ d ∈ repeats, d ∈ es.drop start ∨ d ∈ (foldFrom start es).drop start) →
      foldFrom start (foldFrom start es ++ repeats) = foldFrom start es) ∧
    (FoldTables.ofEdges? (es.drop start)).map (·.folded.toList) =
      some ((foldFrom start es).drop start) ∧
    (∀ (w : Walkers) passes live (l : Loop),
      let entered := w.visitAll l.setup live
      let repeated := entered >>= Walkers.rounds (w.visitAll l.repeated) passes
      (w.loop passes l live).edges =
        foldFrom entered.edges.length repeated.edges ++
          (w.visitAll l.tail repeated.value).edges) ∧
    ∀ (w : Walkers) passes live (i : Iteration),
      let entered := w.shadowed i live
      let repeated := entered >>= fun _ => Walkers.rounds (w.round i) passes live
      (w.iterate passes i live).edges =
        foldFrom entered.edges.length repeated.edges ++
          (w.visitAll i.tail repeated.value).edges := by
  rw [drop_foldFrom]
  refine ⟨take_foldFrom start es, map_slot_fold _, nodup_slots_fold _, fun f hf => ⟨?_, ?_⟩,
    foldFrom_foldFrom start es, fun _ => foldFrom_foldFrom_append start hes,
    FoldTables.folded_ofEdges? _, Walkers.edges_loop, Walkers.edges_iterate⟩
  · exact canonical_of_mem_fold (fun e he => hes e (List.mem_of_mem_drop he)) f hf
  · exact fun x => mem_sources_fold hf

/-- Behind an edge of `x` from before a loop, the edges of two rounds are united slot by slot,
and that a third round repeats one of them makes no difference. -/
theorem foldFrom_unites_slots_two_rounds :
    let before : Edge := .ofSources "x" 2 .comesFrom [⟨"y", 0⟩]
    let first : Edge := .ofSources "x" 2 .comesFrom [⟨"z", 1⟩]
    let computed : Edge := .ofSources "x" 2 .computedFrom [⟨"z", 1⟩]
    let second : Edge := .ofSources "x" 2 .comesFrom [⟨"x", 2⟩, ⟨"y", 0⟩]
    let united : Edge := .ofSources "x" 2 .comesFrom [⟨"y", 0⟩, ⟨"z", 1⟩, ⟨"x", 2⟩]
    (∀ e ∈ [before, first, computed, second], e.Canonical) ∧
    foldFrom 1 [before, first, computed, second] = [before, united, computed] ∧
    (⟨"x", 2⟩ : Source) ∈ united.sources ∧
    foldFrom 1 (foldFrom 1 [before, first, computed, second] ++ [second]) =
      foldFrom 1 [before, first, computed, second] := by
  intro before first computed second united
  have hcanonical : ∀ e ∈ [before, first, computed, second], e.Canonical := by
    refine List.forall_mem_cons.mpr ⟨canonical_ofSources _ _ _ _, ?_⟩
    refine List.forall_mem_cons.mpr ⟨canonical_ofSources _ _ _ _, ?_⟩
    refine List.forall_mem_cons.mpr ⟨canonical_ofSources _ _ _ _, ?_⟩
    exact List.forall_mem_singleton.mpr (canonical_ofSources _ _ _ _)
  obtain ⟨-, -, -, hsources, -, hrepeats, -⟩ :=
    foldFrom_unites_slots 1 [before, first, computed, second] hcanonical
  have hfolded : foldFrom 1 [before, first, computed, second] = [before, united, computed] := by
    decide
  have hunited : united ∈ (foldFrom 1 [before, first, computed, second]).drop 1 := by
    rw [hfolded]
    exact List.mem_cons_self
  refine ⟨hcanonical, hfolded, ((hsources united hunited).2 _).mpr ?_, hrepeats [second] ?_⟩
  · exact ⟨second, by decide, rfl, by decide⟩
  · exact List.forall_mem_singleton.mpr (Or.inl (by decide))

end Edge

end TokenFlow
