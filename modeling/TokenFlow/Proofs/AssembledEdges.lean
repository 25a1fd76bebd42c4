import TokenFlow.Edge.Assemble

/-!
# The final list keeps first occurrences

What an edge says apart from its relation is its `flow`.  The final list is the part of the
raw list of which each edge has sources and is the first with its flow among the edges that
have sources (`assemble_eq_firsts`).  So each flow that has sources is there, and once.

The edges that are passed over are left out with the help of those seen before.  Only the
flows of these matter (`withoutRepeats_congr`), what is seen grows with the list
(`withoutRepeats_append`), and whoever has seen more finds nothing new in what another left
out (`withoutRepeats_withoutRepeats`).  Hence a list may be assembled in pieces, and pieces
put together are assembled again (`assemble_append`).
-/
namespace TokenFlow.Edge

/-! ## Flows -/

/-- What an edge says, but for the relation: the token that is defined and its sources. -/
def flow (e : Edge) : String × Nat × List Nat × List String :=
  (e.name, e.index, e.sourceIndices, e.sourceNames)

theorem sameFlow_iff {e f : Edge} : e.sameFlow f = true ↔ e.flow = f.flow := by
  simp only [sameFlow, flow, Bool.and_eq_true, beq_iff_eq, Prod.mk.injEq, and_assoc]

/-- The edge has sources, and none that has sources before it has the same flow. -/
def IsFirst (before : List Edge) (e : Edge) : Prop :=
  e.hasSources = true ∧ ∀ d ∈ before, d.hasSources = true → d.flow ≠ e.flow

instance (before : List Edge) (e : Edge) : Decidable (e.IsFirst before) :=
  inferInstanceAs (Decidable (_ ∧ _))

/-- The edges of a list that are the first of their flow where they stand. -/
def firsts (raw : List Edge) : List Edge :=
  (raw.zipIdx.filter fun place => place.1.IsFirst (raw.take place.2)).map Prod.fst

/-- Of the part of a list that follows another, the edges that are the first of their flow. -/
def firstsBehind (before after : List Edge) : List Edge :=
  ((after.zipIdx before.length).filter fun place =>
    place.1.IsFirst ((before ++ after).take place.2)).map Prod.fst

theorem firstsBehind_cons (before : List Edge) (e : Edge) (after : List Edge) :
    firstsBehind before (e :: after) =
      if e.IsFirst before then e :: firstsBehind (before ++ [e]) after
      else firstsBehind (before ++ [e]) after := by
  have hrest : firstsBehind (before ++ [e]) after =
      ((after.zipIdx (before.length + 1)).filter fun place =>
        place.1.IsFirst ((before ++ e :: after).take place.2)).map Prod.fst := by
    rw [firstsBehind, List.length_append, List.length_singleton, List.append_assoc,
      List.singleton_append]
  rw [firstsBehind, List.zipIdx_cons, List.filter_cons, List.take_left, hrest]
  by_cases h : e.IsFirst before
  · simp only [h, decide_true, if_true, List.map_cons]
  · simp only [h, decide_false, Bool.false_eq_true, if_false]

/-! ## What has been seen -/

variable {seen seen' es : List Edge} {e : Edge}

theorem any_sameFlow : seen.any e.sameFlow = true ↔ e.flow ∈ seen.map flow := by
  rw [List.any_eq_true, List.mem_map]
  exact exists_congr fun f => and_congr_right fun _ => sameFlow_iff.trans eq_comm

theorem withoutRepeats_cons_of_mem (h : e.flow ∈ seen.map flow) :
    withoutRepeats seen (e :: es) = withoutRepeats seen es := by
  rw [withoutRepeats, if_pos (any_sameFlow.mpr h)]

theorem withoutRepeats_cons_of_notMem (h : e.flow ∉ seen.map flow) :
    withoutRepeats seen (e :: es) = e :: withoutRepeats (e :: seen) es := by
  rw [withoutRepeats, if_neg (h ∘ any_sameFlow.mp)]

/-- Of what has been seen, only the flows matter. -/
theorem withoutRepeats_congr (h : ∀ k, k ∈ seen.map flow ↔ k ∈ seen'.map flow) :
    withoutRepeats seen es = withoutRepeats seen' es := by
  induction es generalizing seen seen' with
  | nil => rfl
  | cons e es ih =>
    by_cases he : e.flow ∈ seen.map flow
    · rw [withoutRepeats_cons_of_mem he, withoutRepeats_cons_of_mem ((h _).mp he), ih h]
    · rw [withoutRepeats_cons_of_notMem he, withoutRepeats_cons_of_notMem (he ∘ (h _).mpr)]
      refine congrArg (e :: ·) (ih fun k => ?_)
      rw [List.map_cons, List.map_cons, List.mem_cons, List.mem_cons, h k]

theorem withoutRepeats_sublist (seen es : List Edge) : (withoutRepeats seen es).Sublist es := by
  induction es generalizing seen with
  | nil => exact .slnil
  | cons e es ih =>
    by_cases he : e.flow ∈ seen.map flow
    · rw [withoutRepeats_cons_of_mem he]
      exact (ih seen).cons e
    · rw [withoutRepeats_cons_of_notMem he]
      exact (ih (e :: seen)).cons_cons e

/-- The flows that are left are those of the list that have not been seen. -/
theorem mem_flows_withoutRepeats {k : String × Nat × List Nat × List String} :
    k ∈ (withoutRepeats seen es).map flow ↔ k ∈ es.map flow ∧ k ∉ seen.map flow := by
  induction es generalizing seen with
  | nil => simp [withoutRepeats]
  | cons e es ih =>
    by_cases he : e.flow ∈ seen.map flow
    · rw [withoutRepeats_cons_of_mem he, ih, List.map_cons, List.mem_cons]
      constructor
      · exact fun h => ⟨Or.inr h.1, h.2⟩
      · rintro ⟨rfl | hk, hseen⟩
        · exact absurd he hseen
        · exact ⟨hk, hseen⟩
    · rw [withoutRepeats_cons_of_notMem he, List.map_cons, List.mem_cons, ih, List.map_cons,
        List.map_cons, List.mem_cons, List.mem_cons]
      constructor
      · rintro (rfl | ⟨hk, hnew⟩)
        · exact ⟨Or.inl rfl, he⟩
        · exact ⟨Or.inr hk, fun hseen => hnew (Or.inr hseen)⟩
      · rintro ⟨hk, hseen⟩
        by_cases heq : k = e.flow
        · exact Or.inl heq
        · exact Or.inr ⟨hk.resolve_left heq, fun h => h.elim heq hseen⟩

theorem nodup_flows_withoutRepeats (seen es : List Edge) :
    ((withoutRepeats seen es).map flow).Nodup := by
  induction es generalizing seen with
  | nil => exact List.nodup_nil
  | cons e es ih =>
    by_cases he : e.flow ∈ seen.map flow
    · rw [withoutRepeats_cons_of_mem he]
      exact ih seen
    · rw [withoutRepeats_cons_of_notMem he, List.map_cons, List.nodup_cons]
      refine ⟨fun hmem => ?_, ih (e :: seen)⟩
      exact (mem_flows_withoutRepeats.mp hmem).2 List.mem_cons_self

/-! ## Pieces -/

/-- Behind a first piece, its edges have been seen too. -/
theorem withoutRepeats_append (seen es fs : List Edge) :
    withoutRepeats seen (es ++ fs) =
      withoutRepeats seen es ++ withoutRepeats (es ++ seen) fs := by
  induction es generalizing seen with
  | nil => rfl
  | cons e es ih =>
    rw [List.cons_append]
    by_cases he : e.flow ∈ seen.map flow
    · rw [withoutRepeats_cons_of_mem he, withoutRepeats_cons_of_mem he, ih]
      refine congrArg (_ ++ ·) (withoutRepeats_congr fun k => ?_)
      -- the edge that is left out adds no flow to those seen
      simp only [List.map_append, List.map_cons, List.cons_append, List.mem_cons, List.mem_append]
      exact ⟨Or.inr, fun h => h.elim (fun hk => Or.inr (hk ▸ he)) id⟩
    · rw [withoutRepeats_cons_of_notMem he, withoutRepeats_cons_of_notMem he, ih,
        List.cons_append]
      refine congrArg (e :: withoutRepeats (e :: seen) es ++ ·) (withoutRepeats_congr fun k => ?_)
      simp only [List.map_append, List.map_cons, List.cons_append, List.mem_cons, List.mem_append]
      exact or_left_comm

/-- What was left out by one who has seen less would have been left out anyway. -/
theorem withoutRepeats_withoutRepeats (h : seen'.map flow ⊆ seen.map flow) :
    withoutRepeats seen (withoutRepeats seen' es) = withoutRepeats seen es := by
  induction es generalizing seen seen' with
  | nil => rfl
  | cons e es ih =>
    by_cases he' : e.flow ∈ seen'.map flow
    · rw [withoutRepeats_cons_of_mem he', withoutRepeats_cons_of_mem (h he'), ih h]
    · rw [withoutRepeats_cons_of_notMem he']
      by_cases he : e.flow ∈ seen.map flow
      · rw [withoutRepeats_cons_of_mem he, withoutRepeats_cons_of_mem he]
        exact ih (List.cons_subset.mpr ⟨he, h⟩)
      · have hseen : (e :: seen').map flow ⊆ (e :: seen).map flow := List.cons_subset_cons _ h
        rw [withoutRepeats_cons_of_notMem he, withoutRepeats_cons_of_notMem he, ih hseen]

/-! ## The final list -/

theorem hasSources_of_mem_assemble {dedupe : Bool} {raw : List Edge}
    (h : e ∈ assemble dedupe raw) : e.hasSources = true := by
  cases dedupe with
  | false => exact (List.mem_filter.mp h).2
  | true => exact (List.mem_filter.mp ((withoutRepeats_sublist _ _).subset h)).2

theorem filter_assemble (dedupe : Bool) (raw : List Edge) :
    (assemble dedupe raw).filter hasSources = assemble dedupe raw :=
  List.filter_eq_self.mpr fun _ => hasSources_of_mem_assemble

/-- An edge with sources stands first if its flow is not among those seen. -/
theorem isFirst_iff {before : List Edge} (h : e.hasSources = true) :
    e.IsFirst before ↔ e.flow ∉ (before.filter hasSources).map flow := by
  simp only [IsFirst, h, true_and, List.mem_map, List.mem_filter, not_exists, not_and, and_imp]

/-- **The final list is the part of the raw list that stands first.** -/
theorem assemble_eq_firsts (raw : List Edge) : assemble true raw = firsts raw := by
  suffices key : ∀ before after : List Edge,
      withoutRepeats (before.filter hasSources) (after.filter hasSources) =
        firstsBehind before after from key [] raw
  -- for every part that has been passed, for what is passed has been seen
  intro before after
  induction after generalizing before with
  | nil => rfl
  | cons e es ih =>
    rw [firstsBehind_cons, ← ih, List.filter_append]
    by_cases he : e.hasSources = true
    · have hpassed : ∀ k, k ∈ (before.filter hasSources ++ [e].filter hasSources).map flow ↔
          k = e.flow ∨ k ∈ (before.filter hasSources).map flow := fun k => by
        rw [List.filter_cons_of_pos he, List.map_append, List.mem_append, or_comm]
        exact or_congr_left List.mem_singleton
      rw [List.filter_cons_of_pos he]
      by_cases hseen : e.flow ∈ (before.filter hasSources).map flow
      · rw [withoutRepeats_cons_of_mem hseen, if_neg fun h => (isFirst_iff he).mp h hseen]
        refine withoutRepeats_congr fun k => ?_
        rw [hpassed]
        exact ⟨Or.inr, fun h => h.elim (fun hk => hk ▸ hseen) id⟩
      · rw [withoutRepeats_cons_of_notMem hseen, if_pos ((isFirst_iff he).mpr hseen)]
        refine congrArg (e :: ·) (withoutRepeats_congr fun k => ?_)
        rw [hpassed, List.map_cons, List.mem_cons]
    · rw [List.filter_cons_of_neg he, List.filter_cons_of_neg he, List.filter_nil,
        List.append_nil, if_neg fun h : e.IsFirst before => he h.1]

/-- **A list may be assembled in pieces.** -/
theorem assemble_append (dedupe : Bool) (as bs : List Edge) :
    assemble dedupe (as ++ bs) =
      assemble dedupe (assemble dedupe as ++ assemble dedupe bs) := by
  cases dedupe with
  | false =>
    show (as ++ bs).filter hasSources = (as.filter hasSources ++ bs.filter hasSources).filter _
    rw [List.filter_append, List.filter_append, List.filter_filter, List.filter_filter]
    simp only [Bool.and_self]
  | true =>
    show withoutRepeats [] ((as ++ bs).filter hasSources) =
      withoutRepeats [] ((assemble true as ++ assemble true bs).filter hasSources)
    rw [List.filter_append, List.filter_append, filter_assemble, filter_assemble,
      withoutRepeats_append, withoutRepeats_append, List.append_nil, List.append_nil]
    show _ = withoutRepeats [] (withoutRepeats [] (as.filter hasSources)) ++
      withoutRepeats (withoutRepeats [] (as.filter hasSources))
        (withoutRepeats [] (bs.filter hasSources))
    rw [withoutRepeats_withoutRepeats (List.nil_subset _),
      withoutRepeats_withoutRepeats (List.nil_subset _)]
    refine congrArg (_ ++ ·) (withoutRepeats_congr fun k => ?_)
    rw [mem_flows_withoutRepeats]
    exact ⟨fun hk => ⟨hk, List.not_mem_nil⟩, And.left⟩

theorem assemble_assemble (dedupe : Bool) (raw : List Edge) :
    assemble true (assemble dedupe raw) = assemble true raw := by
  have hfilter : assemble true (assemble dedupe raw) = withoutRepeats [] (assemble dedupe raw) :=
    congrArg (withoutRepeats []) (filter_assemble dedupe raw)
  rw [hfilter]
  cases dedupe with
  | false => rfl
  | true => exact withoutRepeats_withoutRepeats (List.nil_subset _)

/-- **Assembling keeps the first of each flow and may be done in pieces.**  Whatever the edges
are, also with source lists of different lengths: without repetitions the final list is the
part of the raw list that stands first, so each edge with sources is represented and no flow
comes up twice; with repetitions it is the part that has sources.  Pieces that were assembled
are assembled together as the whole would be, to do it again changes nothing, and nor does it
matter whether edges without sources are left out before or after. -/
theorem assemble_keeps_firsts (raw : List Edge) :
    assemble true raw = firsts raw ∧
    (∀ e ∈ raw, e.hasSources = true → ∃ f ∈ assemble true raw, f.flow = e.flow) ∧
    ((assemble true raw).map flow).Nodup ∧
    assemble false raw = raw.filter hasSources ∧
    (∀ (dedupe : Bool) (as bs : List Edge),
      assemble dedupe (as ++ bs) =
        assemble dedupe (assemble dedupe as ++ assemble dedupe bs)) ∧
    assemble true (assemble true raw) = assemble true raw ∧
    assemble true (assemble false raw) = assemble true raw ∧
    assemble false (assemble true raw) = assemble true raw := by
  refine ⟨assemble_eq_firsts raw, fun e he hsources => ?_, nodup_flows_withoutRepeats _ _, rfl,
    assemble_append, assemble_assemble true raw, assemble_assemble false raw,
    filter_assemble true raw⟩
  have hflow : e.flow ∈ (raw.filter hasSources).map flow :=
    List.mem_map_of_mem (List.mem_filter.mpr ⟨he, hsources⟩)
  exact List.mem_map.mp (mem_flows_withoutRepeats.mpr ⟨hflow, List.not_mem_nil⟩)

/-- Of an edge without sources, a copy, an edge of uneven lists, the copy as a computation and
the copy again, the copy and the uneven edge are left, also if they come in two pieces. -/
theorem assemble_keeps_firsts_uneven :
    let copied : Edge := .ofSources "a" 2 .comesFrom [⟨"b", 0⟩]
    let computed : Edge := .ofSources "a" 2 .computedFrom [⟨"b", 0⟩]
    let uneven : Edge := ⟨"a", 2, .comesFrom, [], [0]⟩
    let empty : Edge := ⟨"a", 2, .comesFrom, ["b"], []⟩
    assemble true [empty, copied, uneven, computed, copied] = [copied, uneven] ∧
    (∃ f ∈ assemble true [empty, copied, uneven, computed, copied], f.flow = computed.flow) ∧
    assemble true ([empty, copied] ++ [uneven, computed, copied]) =
      assemble true ([copied] ++ [uneven, computed]) := by
  intro copied computed uneven empty
  obtain ⟨hfirsts, hkept, -, -, hpieces, -⟩ :=
    assemble_keeps_firsts [empty, copied, uneven, computed, copied]
  have hsecond : assemble true [uneven, computed, copied] = [uneven, computed] := by decide
  refine ⟨hfirsts.trans (by decide), hkept computed (by decide) rfl, ?_⟩
  rw [hpieces true, hsecond]
  rfl

end TokenFlow.Edge
