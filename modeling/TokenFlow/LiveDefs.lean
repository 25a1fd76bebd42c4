import TokenFlow.Ascending

/-!
# Live definitions

While a program is read, `LiveDefs` holds for each name the numbers of the tokens
that may have defined it last.  A new binding replaces them; where alternatives
meet, they are united name by name.

The entries are kept in the order of their names, without repetitions, so that two
tables with the same content are equal (`LiveDefs.ext_get?`).  The list of a name is
ascending unless `restore` puts back one that was not.
-/
namespace TokenFlow

/-- For each bound name, the tokens that may have defined it last. -/
structure LiveDefs where
  entries : List (String × List Nat)
  sorted : entries.Pairwise (·.1 < ·.1)
  deriving DecidableEq

namespace LiveDefs

/-- Nothing is bound. -/
def empty : LiveDefs := ⟨[], List.Pairwise.nil⟩

instance : Inhabited LiveDefs := ⟨empty⟩

/-- The definitions listed for a name. -/
def lookup (name : String) : List (String × List Nat) → Option (List Nat)
  | [] => none
  | (key, defs) :: rest => if key = name then some defs else lookup name rest

/-- Lists definitions for a name in the order of names, in place of those listed. -/
def put (name : String) (defs : List Nat) : List (String × List Nat) → List (String × List Nat)
  | [] => [(name, defs)]
  | (key, old) :: rest =>
    if name < key then (name, defs) :: (key, old) :: rest
    else if key = name then (name, defs) :: rest
    else (key, old) :: put name defs rest

theorem mem_put {name : String} {defs : List Nat} {e : String × List Nat}
    {es : List (String × List Nat)} (h : e ∈ put name defs es) :
    e = (name, defs) ∨ e ∈ es := by
  induction es with
  | nil => exact .inl (List.mem_singleton.mp h)
  | cons head rest ih =>
    obtain ⟨key, old⟩ := head
    simp only [put] at h
    split at h
    · exact (List.mem_cons.mp h)
    · split at h
      · exact (List.mem_cons.mp h).imp_right (List.mem_cons_of_mem _)
      · rcases List.mem_cons.mp h with rfl | h
        · exact .inr List.mem_cons_self
        · exact (ih h).imp_right (List.mem_cons_of_mem _)

theorem pairwise_put (name : String) (defs : List Nat) {es : List (String × List Nat)}
    (h : es.Pairwise (·.1 < ·.1)) : (put name defs es).Pairwise (·.1 < ·.1) := by
  induction es with
  | nil => exact List.pairwise_singleton _ _
  | cons head rest ih =>
    obtain ⟨key, old⟩ := head
    rw [List.pairwise_cons] at h
    simp only [put]
    split
    · rename_i hlt
      refine List.pairwise_cons.mpr ⟨fun e he => ?_, List.pairwise_cons.mpr h⟩
      rcases List.mem_cons.mp he with rfl | he
      · exact hlt
      · exact String.lt_trans hlt (h.1 e he)
    · rename_i hnlt
      split
      · rename_i heq
        exact List.pairwise_cons.mpr ⟨fun e he => heq ▸ h.1 e he, h.2⟩
      · rename_i hne
        refine List.pairwise_cons.mpr ⟨fun e he => ?_, ih h.2⟩
        rcases mem_put he with rfl | he
        · exact Std.lt_of_le_of_ne (String.not_lt.mp hnlt) hne
        · exact h.1 e he

theorem lookup_put (name other : String) (defs : List Nat) (es : List (String × List Nat)) :
    lookup other (put name defs es) = if name = other then some defs else lookup other es := by
  induction es with
  | nil => rfl
  | cons head rest ih =>
    obtain ⟨key, old⟩ := head
    simp only [put]
    split
    · rfl
    · split
      · rename_i _ heq
        subst heq
        simp only [lookup]
        split <;> rfl
      · rename_i _ hne
        simp only [lookup, ih]
        by_cases hk : key = other
        · subst hk
          rw [if_pos rfl, if_neg (Ne.symm hne), if_pos rfl]
        · rw [if_neg hk, if_neg hk]

theorem lookup_eq_none_of_lt {name : String} {es : List (String × List Nat)}
    (h : ∀ e ∈ es, name < e.1) : lookup name es = none := by
  induction es with
  | nil => rfl
  | cons head rest ih =>
    obtain ⟨key, old⟩ := head
    have hlt : name < key := h _ List.mem_cons_self
    have hne : ¬ key = name := fun e => String.lt_irrefl name (e ▸ hlt)
    rw [lookup, if_neg hne]
    exact ih fun e he => h e (List.mem_cons_of_mem _ he)

/-- The live definitions of a name. -/
def get? (s : LiveDefs) (name : String) : Option (List Nat) :=
  lookup name s.entries

/-- Whether a name is bound. -/
def contains (s : LiveDefs) (name : String) : Bool :=
  (s.get? name).isSome

/-- How many names are bound. -/
def size (s : LiveDefs) : Nat := s.entries.length

def isEmpty (s : LiveDefs) : Bool := s.entries.isEmpty

/-- The bound names in order. -/
def names (s : LiveDefs) : List String := s.entries.map Prod.fst

/-- Gives a name exactly these definitions. -/
def set (s : LiveDefs) (name : String) (defs : List Nat) : LiveDefs :=
  ⟨put name defs s.entries, pairwise_put name defs s.sorted⟩

/-- Makes a token the only live definition of a name. -/
def bind (s : LiveDefs) (name : String) (index : Nat) : LiveDefs :=
  s.set name [index]

/-- Unbinds a name. -/
def erase (s : LiveDefs) (name : String) : LiveDefs :=
  ⟨s.entries.filter (·.1 ≠ name), s.sorted.filter _⟩

/-- Puts a name back to what it was bound to, if it was bound at all. -/
def restore (s : LiveDefs) (name : String) : Option (List Nat) → LiveDefs
  | some defs => s.set name defs
  | none => s.erase name

@[simp] theorem get?_empty (name : String) : empty.get? name = none := rfl

@[simp] theorem get?_set (s : LiveDefs) (name other : String) (defs : List Nat) :
    (s.set name defs).get? other = if name = other then some defs else s.get? other :=
  lookup_put name other defs s.entries

@[simp] theorem get?_bind (s : LiveDefs) (name other : String) (index : Nat) :
    (s.bind name index).get? other = if name = other then some [index] else s.get? other :=
  get?_set s name other [index]

@[simp] theorem get?_erase (s : LiveDefs) (name other : String) :
    (s.erase name).get? other = if name = other then none else s.get? other := by
  simp only [get?, erase]
  induction s.entries with
  | nil => simp [lookup]
  | cons head rest ih =>
    obtain ⟨key, old⟩ := head
    by_cases hk : key = name
    · subst hk
      rw [List.filter_cons_of_neg (by simp), ih, lookup]
      split <;> rfl
    · rw [List.filter_cons_of_pos (by simpa using hk), lookup, lookup, ih]
      by_cases ho : key = other
      · subst ho
        rw [if_pos rfl, if_neg (Ne.symm hk), if_pos rfl]
      · rw [if_neg ho, if_neg ho]

@[simp] theorem get?_restore (s : LiveDefs) (name other : String) (defs : Option (List Nat)) :
    (s.restore name defs).get? other = if name = other then defs else s.get? other := by
  cases defs with
  | none => exact get?_erase s name other
  | some defs => exact get?_set s name other defs

theorem entries_eq_of_lookup {es fs : List (String × List Nat)}
    (hes : es.Pairwise (·.1 < ·.1)) (hfs : fs.Pairwise (·.1 < ·.1))
    (h : ∀ name, lookup name es = lookup name fs) : es = fs := by
  induction es generalizing fs with
  | nil =>
    cases fs with
    | nil => rfl
    | cons f fs => simpa [lookup] using h f.1
  | cons e es ih =>
    cases fs with
    | nil => simpa [lookup] using h e.1
    | cons f fs =>
      obtain ⟨k, d⟩ := e
      obtain ⟨k', d'⟩ := f
      rw [List.pairwise_cons] at hes hfs
      have hkk : k = k' := by
        refine Classical.byContradiction fun hne => ?_
        by_cases hlt : k < k'
        · have hk := h k
          rw [lookup, if_pos rfl, lookup, if_neg (Ne.symm hne),
            lookup_eq_none_of_lt fun f hf => String.lt_trans hlt (hfs.1 f hf)] at hk
          cases hk
        · have hlt' : k' < k := Std.lt_of_le_of_ne (String.not_lt.mp hlt) (Ne.symm hne)
          have hk := h k'
          rw [lookup, if_neg hne, lookup, if_pos rfl,
            lookup_eq_none_of_lt fun e he => String.lt_trans hlt' (hes.1 e he)] at hk
          cases hk
      subst hkk
      have hd : d = d' := by
        have hk := h k
        rw [lookup, if_pos rfl, lookup, if_pos rfl] at hk
        exact Option.some.inj hk
      subst hd
      refine congrArg ((k, d) :: ·) (ih hes.2 hfs.2 fun name => ?_)
      by_cases hn : k = name
      · subst hn
        rw [lookup_eq_none_of_lt hes.1, lookup_eq_none_of_lt hfs.1]
      · have hk := h name
        rwa [lookup, if_neg hn, lookup, if_neg hn] at hk

/-- **Tables with the same content are equal.** -/
theorem ext_get? {s t : LiveDefs} (h : ∀ name, s.get? name = t.get? name) : s = t := by
  obtain ⟨es, hes⟩ := s
  obtain ⟨fs, hfs⟩ := t
  have heq : es = fs := entries_eq_of_lookup hes hfs h
  subst heq
  rfl

/-- The table of some entries, each list made ascending.  Of entries for one name
the last counts. -/
def ofList (entries : List (String × List Nat)) : LiveDefs :=
  entries.foldl (fun s (name, defs) => s.set name (Ascending.ofList defs)) empty

/-- Adds definitions to those of a name. -/
def unite (s : LiveDefs) (name : String) (defs : List Nat) : LiveDefs :=
  s.set name (Ascending.ofList ((s.get? name).getD [] ++ defs))

/-- What may be live where several alternatives meet: for each name that one of
them binds, the definitions it has in any of them. -/
def merge (alternatives : List LiveDefs) : LiveDefs :=
  (alternatives.flatMap (·.entries)).foldl (fun s (name, defs) => s.unite name defs) empty

end LiveDefs

end TokenFlow
