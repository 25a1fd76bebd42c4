import Mathlib.Data.List.Induction
import TokenFlow.Proofs.Renumbering

/-!
# Tokens in two tables

Tokens can be held in two tables: an array that has them in order, and a hash map that has for
each span the number of the token with it (`TokenTables`).  A push writes to both, and a look-up
by span reads a number from the map and goes to the array with it, without asking whether the
array reaches that far.

The tables stay in step (`TokenTables.consistent_ofPushes`).  Whatever has been pushed, each token
has its place as its number, no two have one span, each number in the map is that of a token, and
a span leads to the token that was pushed with it first.  The reason is that the tables hold what
`Tokens` holds (`TokenTables.Holds`), which every push keeps so (`TokenTables.Holds.push`).
-/
namespace TokenFlow

/-! ## First entries -/

/-- The elements of a list whose key no element before them has. -/
def firstsBy {α κ : Type} [DecidableEq κ] (key : α → κ) (xs : List α) : List α :=
  (xs.zipIdx.filter fun place => (xs.take place.2).all (key · ≠ key place.1)).map Prod.fst

section FirstsBy

variable {α β κ : Type} [DecidableEq κ] (key : α → κ)

/-- An element at the end stays unless its key is known. -/
theorem firstsBy_concat (xs : List α) (x : α) :
    firstsBy key (xs ++ [x]) =
      if key x ∈ xs.map key then firstsBy key xs else firstsBy key xs ++ [x] := by
  have hbefore : (xs.zipIdx.filter fun place =>
        ((xs ++ [x]).take place.2).all (key · ≠ key place.1)) =
      xs.zipIdx.filter fun place => (xs.take place.2).all (key · ≠ key place.1) := by
    refine List.filter_congr fun place hplace => ?_
    have hlt : place.2 < xs.length := by
      simpa using (List.mem_zipIdx hplace).2.1
    rw [List.take_append_of_le_length (Nat.le_of_lt hlt)]
  have hlast : (xs ++ [x]).take xs.length = xs := List.take_left
  have hnew : xs.all (key · ≠ key x) = true ↔ key x ∉ xs.map key := by
    simp
  unfold firstsBy
  rw [List.zipIdx_append, List.filter_append, List.map_append, hbefore, List.zipIdx_singleton,
    Nat.zero_add, List.filter_cons, hlast, List.filter_nil]
  by_cases hknown : key x ∈ xs.map key
  · rw [if_neg fun h => hnew.mp h hknown, if_pos hknown, List.map_nil, List.append_nil]
  · rw [if_pos (hnew.mpr hknown), if_neg hknown]
    rfl

theorem firstsBy_map (f : β → α) (ys : List β) :
    firstsBy key (ys.map f) = (firstsBy (key ∘ f) ys).map f := by
  induction ys using List.reverseRecOn with
  | nil => rfl
  | append_singleton ys y ih =>
    rw [List.map_append, List.map_singleton, firstsBy_concat, firstsBy_concat, ih, List.map_map]
    show ite (key (f y) ∈ _) _ _ = List.map f (ite (key (f y) ∈ _) _ _)
    split
    · rfl
    · rw [List.map_append, List.map_singleton]

theorem firstsBy_sublist (xs : List α) : (firstsBy key xs).Sublist xs := by
  induction xs using List.reverseRecOn with
  | nil => exact .slnil
  | append_singleton xs x ih =>
    rw [firstsBy_concat]
    split
    · exact ih.trans (List.sublist_append_left _ _)
    · exact ih.append (.refl _)

/-- No key is lost. -/
theorem mem_map_firstsBy {xs : List α} {k : κ} :
    k ∈ (firstsBy key xs).map key ↔ k ∈ xs.map key := by
  induction xs using List.reverseRecOn with
  | nil => rfl
  | append_singleton xs x ih =>
    rw [firstsBy_concat, List.map_append, List.mem_append, List.map_singleton, List.mem_singleton]
    split
    · rename_i hknown
      rw [ih]
      exact ⟨Or.inl, fun h => h.elim id fun hk => hk ▸ hknown⟩
    · rw [List.map_append, List.mem_append, ih, List.map_singleton, List.mem_singleton]

/-- The first element with a key is the one that stays. -/
theorem find?_firstsBy (k : κ) (xs : List α) :
    (firstsBy key xs).find? (key · == k) = xs.find? (key · == k) := by
  induction xs using List.reverseRecOn with
  | nil => rfl
  | append_singleton xs x ih =>
    rw [firstsBy_concat, List.find?_append, ← ih]
    split
    · rename_i hknown
      cases hfind : (firstsBy key xs).find? (key · == k) with
      | some y => rfl
      | none =>
        have hne : key x ≠ k := by
          rintro rfl
          obtain ⟨y, hy, hkey⟩ := List.mem_map.mp ((mem_map_firstsBy key).mpr hknown)
          exact List.find?_eq_none.mp hfind y hy (beq_iff_eq.mpr hkey)
        simp [hne]
    · rw [List.find?_append]

end FirstsBy

/-! ## What is pushed -/

namespace Tokens

theorem entries_push (t : Tokens) (span : Span) (text : String) :
    (t.push span text).2.entries =
      if span ∈ t.entries.map Prod.fst then t.entries else t.entries ++ [(span, text)] := by
  unfold push
  split <;> rfl

/-- Of the entries with one span the first counts. -/
theorem entries_ofList (es : List (Span × String)) :
    (ofList es).entries = firstsBy Prod.fst es := by
  induction es using List.reverseRecOn with
  | nil => rfl
  | append_singleton es e ih =>
    have hpush : (ofList (es ++ [e])) = ((ofList es).push e.1 e.2).2 := by
      rw [ofList, List.foldl_append]
      rfl
    rw [hpush, entries_push, ih, firstsBy_concat]
    simp only [mem_map_firstsBy]

theorem getElem?_toList (t : Tokens) (i : Nat) : t.toList[i]? = t.token? i := by
  rw [toList, token?, List.getElem?_map, List.getElem?_zipIdx, Option.map_map, Nat.zero_add]
  rfl

theorem map_span_toList (t : Tokens) : t.toList.map Token.span = t.entries.map Prod.fst := by
  rw [toList, List.map_map]
  conv_rhs => rw [← List.zipIdx_map_fst 0 t.entries, List.map_map]
  rfl

/-- A span leads to the entry that is listed with it. -/
theorem map_find? (t : Tokens) (span : Span) :
    (t.find? span).map (fun k => (k.span, k.text)) = t.entries.find? (·.1 == span) := by
  rw [find?]
  cases hidx : t.entries.findIdx? (·.1 == span) with
  | none =>
    rw [List.findIdx?_eq_none_iff] at hidx
    exact (List.find?_eq_none.mpr fun e he => by simp [hidx e he]).symm
  | some i =>
    obtain ⟨hlt, hspan, hbefore⟩ := List.findIdx?_eq_some_iff_getElem.mp hidx
    have hfirst : t.entries.find? (·.1 == span) = some t.entries[i] := by
      refine List.find?_eq_some_iff_getElem.mpr ⟨hspan, i, hlt, rfl, fun j hj => ?_⟩
      rw [Bool.not_eq_true']
      exact Bool.eq_false_iff.mpr (hbefore j hj)
    rw [hfirst, Option.bind_some, token?, List.getElem?_eq_getElem hlt]
    rfl

end Tokens

/-! ## The two tables -/

deriving instance Hashable for Position

deriving instance Hashable for Span

/-- Tokens in order, and for each span the number of the token that has it. -/
structure TokenTables where
  tokens : Array Token
  numbers : Std.HashMap Span Nat

namespace TokenTables

/-- Nothing is in the tables. -/
def empty : TokenTables := ⟨#[], ∅⟩

/-- The token with a number. -/
def token? (t : TokenTables) (index : Nat) : Option Token :=
  t.tokens[index]?

/-- Whether some token has this number. -/
def hasIndex (t : TokenTables) (index : Nat) : Bool :=
  index < t.tokens.size

/-- The token at the number that is stored for a span. -/
def find? (t : TokenTables) (span : Span) : Option Token :=
  t.numbers[span]?.bind t.token?

/-- Writes a token to both tables and answers its number.  Where a number is stored for the span
already, nothing is written, and there is no number to answer. -/
def push (t : TokenTables) (span : Span) (text : String) : Option Nat × TokenTables :=
  if t.numbers.contains span then (none, t)
  else
    (some t.tokens.size,
      { tokens := t.tokens.push ⟨t.tokens.size, text, span⟩
        numbers := t.numbers.insert span t.tokens.size })

/-- The tables after some pushes. -/
def ofPushes (pushes : List (Span × String)) : TokenTables :=
  pushes.foldl (fun t (span, text) => (t.push span text).2) empty

/-- The tables hold these tokens, and the number stored for a span is the place of the entry with
it. -/
structure Holds (t : TokenTables) (u : Tokens) : Prop where
  tokens : t.tokens.toList = u.toList
  numbers : ∀ span, t.numbers[span]? = u.entries.findIdx? (·.1 == span)

namespace Holds

variable {t : TokenTables} {u : Tokens} (h : t.Holds u)
include h

theorem token?_eq (i : Nat) : t.token? i = u.token? i := by
  rw [token?, ← Array.getElem?_toList, h.tokens, Tokens.getElem?_toList]

theorem find?_eq (span : Span) : t.find? span = u.find? span := by
  rw [find?, h.numbers, Tokens.find?]
  exact congrArg _ (funext h.token?_eq)

theorem size_eq : t.tokens.size = u.size := by
  rw [← Array.length_toList, h.tokens, Tokens.toList, List.length_map, List.length_zipIdx]
  rfl

theorem hasIndex_eq (i : Nat) : t.hasIndex i = u.hasIndex i := by
  rw [hasIndex, h.size_eq]
  rfl

theorem contains_iff (span : Span) :
    t.numbers.contains span = true ↔ span ∈ u.entries.map Prod.fst := by
  rw [Std.HashMap.contains_eq_isSome_getElem?, h.numbers, List.findIdx?_isSome, List.any_eq_true,
    List.mem_map]
  exact exists_congr fun e => and_congr_right fun _ => beq_iff_eq

/-- **A push keeps the tables in step**, and answers as it does on the tokens. -/
theorem push (span : Span) (text : String) :
    (t.push span text).1 = (u.push span text).1 ∧
      (t.push span text).2.Holds (u.push span text).2 := by
  unfold TokenTables.push Tokens.push
  by_cases hknown : span ∈ u.entries.map Prod.fst
  · rw [if_pos ((h.contains_iff span).mpr hknown), dif_pos hknown]
    exact ⟨rfl, h⟩
  · rw [if_neg (hknown ∘ (h.contains_iff span).mp), dif_neg hknown]
    refine ⟨congrArg some h.size_eq, ?_, fun other => ?_⟩
    · rw [Array.toList_push, h.tokens, h.size_eq, Tokens.toList, Tokens.toList, List.zipIdx_append,
        List.map_append]
      simp [Tokens.size]
    · rw [Std.HashMap.getElem?_insert, h.numbers, h.size_eq, List.findIdx?_append]
      by_cases hspan : span = other
      · subst hspan
        have hnone : u.entries.findIdx? (·.1 == span) = none :=
          List.findIdx?_eq_none_iff.mpr fun e he =>
            beq_eq_false_iff_ne.mpr fun heq => hknown (heq ▸ List.mem_map_of_mem he)
        simp [hnone, Tokens.size]
      · simp [hspan]

end Holds

/-- **After any pushes the tables hold what the same pushes make of `Tokens`.** -/
theorem holds_ofPushes (pushes : List (Span × String)) :
    (ofPushes pushes).Holds (.ofList pushes) := by
  suffices key : ∀ (t : TokenTables) (u : Tokens), t.Holds u →
      (pushes.foldl (fun t (span, text) => (t.push span text).2) t).Holds
        (pushes.foldl (fun u (span, text) => (u.push span text).2) u) from
    key empty .empty ⟨rfl, fun span => Std.HashMap.getElem?_empty⟩
  induction pushes with
  | nil => exact fun _ _ h => h
  | cons e pushes ih => exact fun t u h => ih _ _ (h.push e.1 e.2).2

/-- What the two tables answer after some pushes. -/
structure Consistent (t : TokenTables) (pushes : List (Span × String)) : Prop where
  /-- A token has its place as its number. -/
  index : ∀ i k, t.token? i = some k → k.index = i
  /-- No two tokens have one span. -/
  distinct : (t.tokens.toList.map Token.span).Nodup
  /-- The array reaches as far as any number in the map. -/
  reaches : ∀ (span : Span) (i : Nat), t.numbers[span]? = some i → t.hasIndex i = true
  /-- A span leads to a token exactly if something was pushed with it, and then to what was
  pushed with it first. -/
  first : ∀ span, (t.find? span).map (fun k => (k.span, k.text)) = pushes.find? (·.1 == span)
  hasIndex_iff : ∀ i, t.hasIndex i = true ↔ ∃ k, t.token? i = some k
  /-- The number and the span of a token lead to it, and to no other. -/
  token?_iff : ∀ i k, t.token? i = some k ↔ t.find? k.span = some k ∧ k.index = i
  /-- A push with a known span answers nothing and changes nothing. -/
  refuses : ∀ span text, span ∈ pushes.map Prod.fst → t.push span text = (none, t)
  /-- Any other push answers the next number. -/
  accepts : ∀ span text, span ∉ pushes.map Prod.fst →
    (t.push span text).1 = some t.tokens.size

/-- Tables that hold what some pushes make are consistent with these pushes. -/
theorem Holds.consistent {t : TokenTables} {pushes : List (Span × String)}
    (h : t.Holds (.ofList pushes)) : t.Consistent pushes := by
  have hentries := Tokens.entries_ofList pushes
  have hknown (span : Span) :
      t.numbers.contains span = true ↔ span ∈ pushes.map Prod.fst := by
    rw [h.contains_iff, hentries, mem_map_firstsBy]
  constructor
  case index =>
    exact fun i k hk => Tokens.index_of_token? ((h.token?_eq i).symm.trans hk)
  case distinct =>
    rw [h.tokens, Tokens.map_span_toList]
    exact (Tokens.ofList pushes).distinct
  case reaches =>
    intro span i hi
    rw [h.numbers] at hi
    obtain ⟨hlt, -⟩ := List.findIdx?_eq_some_iff_getElem.mp hi
    rw [h.hasIndex_eq]
    exact decide_eq_true hlt
  case first =>
    intro span
    rw [h.find?_eq, Tokens.map_find?, hentries, find?_firstsBy]
  case hasIndex_iff =>
    intro i
    rw [h.hasIndex_eq, h.token?_eq, Tokens.hasIndex_iff]
  case token?_iff =>
    intro i k
    rw [h.token?_eq, h.find?_eq]
    constructor
    · exact fun hk => ⟨Tokens.find?_of_token? hk, Tokens.index_of_token? hk⟩
    · rintro ⟨hk, rfl⟩
      exact Tokens.token?_of_find? hk
  case refuses =>
    exact fun span text hspan => if_pos ((hknown span).mpr hspan)
  case accepts =>
    intro span text hspan
    rw [TokenTables.push, if_neg (hspan ∘ (hknown span).mp)]

/-- **Two tables that are written one after the other stay consistent**, whatever is pushed, and
they answer as the tokens do after the same pushes. -/
theorem consistent_ofPushes (pushes : List (Span × String)) :
    (ofPushes pushes).Consistent pushes ∧
    (∀ i, (ofPushes pushes).token? i = (Tokens.ofList pushes).token? i ∧
      (ofPushes pushes).hasIndex i = (Tokens.ofList pushes).hasIndex i) ∧
    ∀ span, (ofPushes pushes).find? span = (Tokens.ofList pushes).find? span ∧
      ∀ text, ((ofPushes pushes).push span text).1 =
        ((Tokens.ofList pushes).push span text).1 := by
  have hholds := holds_ofPushes pushes
  exact ⟨hholds.consistent, fun i => ⟨hholds.token?_eq i, hholds.hasIndex_eq i⟩,
    fun span => ⟨hholds.find?_eq span, fun text => (hholds.push span text).1⟩⟩

/-- Three pushes of which two have one span: it leads to the first of them, and a further push
with it is refused. -/
theorem consistent_ofPushes_repeated :
    let one : Span := ⟨⟨0, 0⟩, ⟨0, 1⟩⟩
    let tables := ofPushes [(one, "a"), (⟨⟨0, 1⟩, ⟨0, 2⟩⟩, "b"), (one, "c")]
    (tables.find? one).map (fun k => (k.span, k.text)) = some (one, "a") ∧
    tables.push one "d" = (none, tables) ∧
    ∀ i k, tables.token? i = some k → tables.find? k.span = some k ∧ k.index = i := by
  intro one tables
  obtain ⟨hconsistent, -⟩ :=
    consistent_ofPushes [(one, "a"), (⟨⟨0, 1⟩, ⟨0, 2⟩⟩, "b"), (one, "c")]
  exact ⟨hconsistent.first one, hconsistent.refuses one "d" (by decide),
    fun i k hk => (hconsistent.token?_iff i k).mp hk⟩

end TokenTables

end TokenFlow
