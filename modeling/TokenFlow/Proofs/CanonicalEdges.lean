import TokenFlow.Analysis.Graph
import TokenFlow.Language.Ruby
import TokenFlow.Proofs.FoldedEdges
import TokenFlow.Proofs.OctetOrder
import TokenFlow.Proofs.WalkEffects
import TokenFlow.Proofs.WalksWithin

/-!
# One edge for each set of sources

An edge keeps its sources as a list of names and a list of numbers.  It is canonical if and only if
the two lists have the same length and the sources ascend, by number and then by the octets of the
name (`Edge.canonical_iff_ascends`): nothing is lost when such lists are zipped and split again,
and an ascending list is determined by its members.

So `Edge.ofSources` is a canonical form of sets of sources.  A walk builds all its edges by it, and
a loop builds by it again what it folds; hence every edge of a graph is canonical, however its loops
are nested (`Edge.canonical_form`).
-/
namespace TokenFlow

/-- A source comes before another: by its number, and where the numbers agree by the octets of its
name. -/
def Source.Precedes (x y : Source) : Prop :=
  x.index < y.index ∨ x.index = y.index ∧ Utf8.octets x.name < Utf8.octets y.name

instance : DecidableRel Source.Precedes := fun x y =>
  inferInstanceAs (Decidable (x.index < y.index ∨ x.index = y.index ∧ _ < _))

theorem Source.precedes_iff_lt {x y : Source} : x.Precedes y ↔ x < y :=
  or_congr_right (and_congr_right fun _ => Utf8.octets_lt_octets)

namespace Edge

/-! ## Two lists in parallel -/

/-- The two lists of an edge stand for sources in strictly ascending order. -/
structure Ascends (e : Edge) : Prop where
  /-- To each name there is a number, and to each number a name. -/
  lengths : e.sourceNames.length = e.sourceIndices.length
  /-- Each source comes before those that are listed behind it. -/
  sources : e.sources.Pairwise Source.Precedes

instance (e : Edge) : Decidable e.Ascends :=
  decidable_of_iff (_ ∧ _) ⟨fun h => ⟨h.1, h.2⟩, fun h => ⟨h.lengths, h.sources⟩⟩

theorem pairwise_precedes_iff {xs : List Source} :
    xs.Pairwise Source.Precedes ↔ xs.Pairwise (· < ·) :=
  List.Pairwise.iff fun _ _ => Source.precedes_iff_lt

variable {e : Edge}

theorem sources_eq_map_zip (e : Edge) :
    e.sources = (e.sourceNames.zip e.sourceIndices).map fun p => ⟨p.1, p.2⟩ :=
  (List.map_zip_eq_zipWith (f := fun p : String × Nat => Source.mk p.1 p.2)).symm

theorem map_name_sources (h : e.sourceNames.length = e.sourceIndices.length) :
    e.sources.map (·.name) = e.sourceNames := by
  rw [sources_eq_map_zip, List.map_map]
  exact List.map_fst_zip (Nat.le_of_eq h)

theorem map_index_sources (h : e.sourceNames.length = e.sourceIndices.length) :
    e.sources.map (·.index) = e.sourceIndices := by
  rw [sources_eq_map_zip, List.map_map]
  exact List.map_snd_zip (Nat.le_of_eq h.symm)

/-- **An edge is canonical if and only if its two lists run in parallel and ascend.** -/
theorem canonical_iff_ascends : e.Canonical ↔ e.Ascends := by
  constructor
  · intro h
    obtain ⟨hnames, hindices⟩ := h.lists
    refine ⟨?_, pairwise_precedes_iff.mpr ?_⟩
    · rw [hnames, hindices, List.length_map, List.length_map]
    · rw [h, sources_ofSources]
      exact Ascending.pairwise_ofList _
  · rintro ⟨hlengths, hsources⟩
    rw [Canonical, ofSources, Ascending.ofList_eq_self (pairwise_precedes_iff.mp hsources),
      map_name_sources hlengths, map_index_sources hlengths]

/-- Of sources with one number, the one with the lower name comes first. -/
example : ¬ (⟨"x", 9, .comesFrom, ["b", "a"], [7, 7]⟩ : Edge).Ascends := by
  decide

/-! ## A canonical form -/

section OfSources

variable {name : String} {index : Nat} {relation : Relation} {xs ys : List Source}

theorem eq_ofSources_of_ascends (hslot : e.slot = (name, index, relation)) (h : e.Ascends)
    (hmem : ∀ x, x ∈ e.sources ↔ x ∈ xs) : e = ofSources name index relation xs := by
  cases hslot
  exact (canonical_iff_ascends.mpr h).trans (ofSources_congr hmem)

theorem ofSources_eq_iff :
    ofSources name index relation xs = ofSources name index relation ys ↔ ∀ x, x ∈ xs ↔ x ∈ ys := by
  refine ⟨fun h x => ?_, ofSources_congr⟩
  have hmem : x ∈ (ofSources name index relation xs).sources ↔
      x ∈ (ofSources name index relation ys).sources := by rw [h]
  rwa [mem_sources_ofSources, mem_sources_ofSources] at hmem

variable (name index relation xs) in
/-- The sources of an edge are sorted, and what repeats its neighbour is dropped. -/
theorem sources_ofSources_eq_destutter :
    (ofSources name index relation xs).sources =
      (xs.mergeSort fun x y => !decide (y.Precedes x)).destutter (· ≠ ·) := by
  have hle : (fun x y : Source => !decide (y.Precedes x)) = fun x y => !decide (y < x) := by
    funext x y
    exact congrArg _ (decide_eq_decide.mpr Source.precedes_iff_lt)
  rw [sources_ofSources, hle, Ascending.ofList_eq_destutter_mergeSort]

end OfSources

/-- For a slot, a function builds one edge of each set of sources, however the set is listed. -/
structure IsCanonicalForm (slot : String × Nat × Relation) (build : List Source → Edge) : Prop where
  /-- The edge takes the slot, -/
  slot_build : ∀ xs, (build xs).slot = slot
  /-- its two lists run in parallel and ascend, -/
  ascends : ∀ xs, (build xs).Ascends
  /-- and it has the sources that it is built from. -/
  mem_sources : ∀ xs x, x ∈ (build xs).sources ↔ x ∈ xs
  /-- No other edge is like that. -/
  unique : ∀ xs e, e.slot = slot → e.Ascends → (∀ x, x ∈ e.sources ↔ x ∈ xs) → e = build xs
  /-- Two lists give the same edge exactly if they hold the same sources. -/
  eq_iff : ∀ xs ys, build xs = build ys ↔ ∀ x, x ∈ xs ↔ x ∈ ys
  /-- Built again from its own sources, an edge is the same. -/
  build_sources : ∀ xs, build (build xs).sources = build xs

theorem isCanonicalForm_ofSources (name : String) (index : Nat) (relation : Relation) :
    IsCanonicalForm (name, index, relation) (ofSources name index relation) where
  slot_build := slot_ofSources name index relation
  ascends xs := canonical_iff_ascends.mp (canonical_ofSources name index relation xs)
  mem_sources _ _ := mem_sources_ofSources
  unique _ _ := eq_ofSources_of_ascends
  eq_iff _ _ := ofSources_eq_iff
  build_sources xs := (canonical_ofSources name index relation xs).symm

/-- What is folded from some start is canonical if it was before. -/
theorem canonical_of_mem_foldFrom {es : List Edge} (hes : ∀ e ∈ es, e.Canonical) (start : Nat) :
    ∀ e ∈ foldFrom start es, e.Canonical :=
  List.forall_mem_append.mpr
    ⟨fun e he => hes e (List.mem_of_mem_take he),
      canonical_of_mem_fold fun e he => hes e (List.mem_of_mem_drop he)⟩

end Edge

/-! ## A loop in a loop -/

namespace NestedLoops

/-- `while a do while a do a = b + a end end` -/
def root : Place :=
  .root <| .onLine 0 "program" true none 0 39 [
    .onLine 1 "while" true none 0 39 [
      .onLine 2 "while" false none 0 5 [],
      .onLine 3 "identifier" true (some "condition") 6 7 [],
      .onLine 4 "do" true (some "body") 8 39 [
        .onLine 5 "do" false none 8 10 [],
        .onLine 6 "while" true none 11 35 [
          .onLine 7 "while" false none 11 16 [],
          .onLine 8 "identifier" true (some "condition") 17 18 [],
          .onLine 9 "do" true (some "body") 19 35 [
            .onLine 10 "do" false none 19 21 [],
            .onLine 11 "assignment" true none 22 31 [
              .onLine 12 "identifier" true (some "left") 22 23 [],
              .onLine 13 "=" false none 24 25 [],
              .onLine 14 "binary" true (some "right") 26 31 [
                .onLine 15 "identifier" true (some "left") 26 27 [],
                .onLine 16 "+" false (some "operator") 28 29 [],
                .onLine 17 "identifier" true (some "right") 30 31 []]],
            .onLine 18 "end" false none 32 35 []]],
        .onLine 19 "end" false none 36 39 []]]]

def setup : Setup where
  language := Language.ruby
  tokens := .ofTree Language.ruby "while a do while a do a = b + a end end".toUTF8 root.node

/-- Both names are live with one number, as they may be where sequences are chained. -/
def seed : LiveDefs :=
  (LiveDefs.empty.bind "a" 20).bind "b" 20

end NestedLoops

namespace Edge

/-- **Edges are canonical.**  For each token and each way to define it, `ofSources` is a canonical
form of the sets of sources: it sorts them and drops repetitions.  Edges that are folded from some
start stay in this form, also if some of them were folded before, and every edge of a graph is in
it. -/
theorem canonical_form :
    (∀ name index relation,
      IsCanonicalForm (name, index, relation) (ofSources name index relation) ∧
      ∀ xs, (ofSources name index relation xs).sources =
        (xs.mergeSort fun x y => !decide (y.Precedes x)).destutter (· ≠ ·)) ∧
    (∀ start es, (∀ e ∈ es, e.Canonical) → ∀ e ∈ foldFrom start es, e.Canonical ∧ e.Ascends) ∧
    ∀ (s : Setup) (root : Place) (seed : LiveDefs), ∀ e ∈ (s.graph root seed).edges,
      e.Canonical ∧ e.Ascends := by
  refine ⟨fun name index relation => ?_, fun start es hes e he => ?_, fun s root seed e he => ?_⟩
  · exact ⟨isCanonicalForm_ofSources name index relation,
      sources_ofSources_eq_destutter name index relation⟩
  · have hcanonical := canonical_of_mem_foldFrom hes start e he
    exact ⟨hcanonical, canonical_iff_ascends.mp hcanonical⟩
  · have hcanonical := Setup.canonical_of_visit s.budget root seed e he
    exact ⟨hcanonical, canonical_iff_ascends.mp hcanonical⟩

/-- What two rounds draw `a` from is folded, and folded again by the loop around them.  Of the
sources two have the same name and two the same number. -/
theorem canonical_form_nestedLoops :
    let first : Edge := .ofSources "a" 6 .computedFrom [⟨"b", 20⟩, ⟨"a", 20⟩]
    let second : Edge := .ofSources "a" 6 .computedFrom [⟨"b", 20⟩, ⟨"a", 6⟩]
    let united : Edge := ⟨"a", 6, .computedFrom, ["a", "a", "b"], [6, 20, 20]⟩
    (∀ e ∈ [first, second], e.Canonical) ∧ united ∈ foldFrom 0 [first, second] ∧
    united ∈ (NestedLoops.setup.graph NestedLoops.root NestedLoops.seed).edges ∧
    united.Canonical ∧ united.Ascends ∧
    united = ofSources "a" 6 .computedFrom [⟨"b", 20⟩, ⟨"a", 6⟩, ⟨"a", 20⟩, ⟨"b", 20⟩] := by
  intro first second united
  obtain ⟨hform, hfold, hgraph⟩ := canonical_form
  have hrounds : ∀ e ∈ [first, second], e.Canonical :=
    List.forall_mem_cons.mpr ⟨canonical_ofSources _ _ _ _,
      List.forall_mem_singleton.mpr (canonical_ofSources _ _ _ _)⟩
  have hfolded : united ∈ foldFrom 0 [first, second] := by decide
  have hfound : united ∈ (NestedLoops.setup.graph NestedLoops.root NestedLoops.seed).edges := by
    decide +kernel
  have hcanonical := (hfold 0 _ hrounds united hfolded).1
  have hascends := (hgraph _ _ _ united hfound).2
  refine ⟨hrounds, hfolded, hfound, hcanonical, hascends, ?_⟩
  refine (hform "a" 6 .computedFrom).1.unique _ _ rfl hascends fun x => ?_
  simp only [united, sources, List.zipWith_cons_cons, List.zipWith_nil_left, List.mem_cons]
  tauto

end Edge

end TokenFlow
