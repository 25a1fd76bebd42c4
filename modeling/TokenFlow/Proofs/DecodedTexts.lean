import Mathlib.Data.String.Basic
import TokenFlow.Proofs.OctetOrder

/-!
# Octets and the texts read from them

Reading octets undoes writing them: a character is read where its own octets stand and nowhere else
(`Utf8.units_eq_cons_some_iff`).  So a text is read without damage from its own octets only
(`Utf8.undamaged?_eq_some_iff`), and damage cannot pass for a text in which there is no U+FFFD
(`Utf8.lossy_eq_iff`).  What a path is shown as may therefore be held against a text of that kind in
place of the octets.

The argument goes octet by octet.  What is pending after the first octets of a character is
continued by one more octet or is damaged, and the bounds of a pending character leave just the
octets that its number is written with.
-/
namespace TokenFlow.Utf8

/-! ## The first octet of a character -/

theorem start_one {b : Nat} (h : b < 0x80) : start b = ([some (Char.ofNat b)], none) := by
  rw [start, if_pos h]

theorem start_two {b : Nat} (h : 0xC2 ≤ b ∧ b ≤ 0xDF) :
    start b = ([], some ⟨b - 0xC0, 1, 0x80, 0xBF⟩) := by
  rw [start, if_neg (by omega), if_pos h]

theorem start_three {b : Nat} (h : 0xE0 ≤ b ∧ b ≤ 0xEF) :
    start b = ([], some ⟨b - 0xE0, 2, if b = 0xE0 then 0xA0 else 0x80,
      if b = 0xED then 0x9F else 0xBF⟩) := by
  rw [start, if_neg (by omega), if_neg (by omega)]
  by_cases hfirst : b = 0xE0
  · subst hfirst
    rfl
  by_cases hsurrogate : b = 0xED
  · subst hsurrogate
    rfl
  rw [if_neg hfirst, if_neg hsurrogate, if_pos (by omega), if_neg hfirst, if_neg hsurrogate]

theorem start_four {b : Nat} (h : 0xF0 ≤ b ∧ b ≤ 0xF4) :
    start b = ([], some ⟨b - 0xF0, 3, if b = 0xF0 then 0x90 else 0x80,
      if b = 0xF4 then 0x8F else 0xBF⟩) := by
  rw [start, if_neg (by omega), if_neg (by omega), if_neg (by omega), if_neg (by omega),
    if_neg (by omega)]
  by_cases hfirst : b = 0xF0
  · subst hfirst
    rfl
  by_cases hlast : b = 0xF4
  · subst hlast
    rfl
  rw [if_neg hfirst, if_pos (by omega), if_neg hfirst, if_neg hlast]

theorem start_damaged {b : Nat} (h : 0x80 ≤ b ∧ b < 0xC2 ∨ 0xF4 < b) :
    start b = ([none], none) := by
  rw [start, if_neg (by omega), if_neg (by omega), if_neg (by omega), if_neg (by omega),
    if_neg (by omega), if_neg (by omega), if_neg (by omega), if_neg (by omega)]

/-! ## The octets behind it -/

variable {code low high : Nat} {os : List UInt8} {c : Char} {us : List (Option Char)}

/-- Where a pending character is not continued, what comes next is damage. -/
theorem resume_damaged {p : Pending} {b : Nat} (h : ¬ (p.low ≤ b ∧ b ≤ p.high)) :
    resume p b = (none :: (start b).1, (start b).2) := by
  rw [resume, if_neg h]

/-- The last octet of a character completes it. -/
theorem unitsFrom_last_iff :
    unitsFrom (some ⟨code, 1, low, high⟩) os = some c :: us ↔
      ∃ b rest, os = b :: rest ∧ (low ≤ b.toNat ∧ b.toNat ≤ high) ∧
        c = Char.ofNat (code * 64 + (b.toNat - 0x80)) ∧ us = units rest := by
  cases os with
  | nil => simp [unitsFrom]
  | cons b rest =>
    simp only [unitsFrom, List.cons.injEq]
    by_cases h : low ≤ b.toNat ∧ b.toNat ≤ high
    · simp [resume, h, units, eq_comm]
    · simp [resume_damaged (p := ⟨code, 1, low, high⟩) h, h]

/-- An octet before the last one leaves the character pending. -/
theorem unitsFrom_before_iff {owed : Nat} :
    unitsFrom (some ⟨code, owed + 2, low, high⟩) os = some c :: us ↔
      ∃ b rest, os = b :: rest ∧ (low ≤ b.toNat ∧ b.toNat ≤ high) ∧
        unitsFrom (some ⟨code * 64 + (b.toNat - 0x80), owed + 1, 0x80, 0xBF⟩) rest =
          some c :: us := by
  cases os with
  | nil => simp [unitsFrom]
  | cons b rest =>
    simp only [unitsFrom, List.cons.injEq]
    by_cases h : low ≤ b.toNat ∧ b.toNat ≤ high
    · simp [resume, h]
    · simp [resume_damaged (p := ⟨code, owed + 2, low, high⟩) h, h]

/-! ## Characters -/

theorem val_ofNat {n : Nat} (h : n < 0xD800 ∨ 0xDFFF < n ∧ n < 0x110000) :
    (Char.ofNat n).val.toNat = n := by
  rw [Char.ofNat, dif_pos h]
  rfl

theorem encodeChar_one {a : UInt8} (ha : a.toNat < 0x80) :
    String.utf8EncodeChar (Char.ofNat a.toNat) = [a] := by
  rw [String.utf8EncodeChar, val_ofNat (.inl (by omega)), if_pos (by omega), UInt8.ofNat_toNat]

theorem encodeChar_two {a b : UInt8} (ha : 0xC2 ≤ a.toNat ∧ a.toNat ≤ 0xDF)
    (hb : 0x80 ≤ b.toNat ∧ b.toNat ≤ 0xBF) :
    String.utf8EncodeChar (Char.ofNat ((a.toNat - 0xC0) * 64 + (b.toNat - 0x80))) = [a, b] := by
  rw [String.utf8EncodeChar, val_ofNat (.inl (by omega)), if_neg (by omega), if_pos (by omega)]
  simp only [List.cons.injEq, ← UInt8.toNat_inj, UInt8.toNat_ofNat', Nat.reducePow, and_true]
  omega

theorem encodeChar_three {a b c : UInt8} (ha : 0xE0 ≤ a.toNat ∧ a.toNat ≤ 0xEF)
    (hb : (if a.toNat = 0xE0 then 0xA0 else 0x80) ≤ b.toNat ∧
      b.toNat ≤ if a.toNat = 0xED then 0x9F else 0xBF)
    (hc : 0x80 ≤ c.toNat ∧ c.toNat ≤ 0xBF) :
    String.utf8EncodeChar (Char.ofNat
      (((a.toNat - 0xE0) * 64 + (b.toNat - 0x80)) * 64 + (c.toNat - 0x80))) = [a, b, c] := by
  have hbounds : (0x80 ≤ b.toNat ∧ b.toNat ≤ 0xBF) ∧ (a.toNat = 0xE0 → 0xA0 ≤ b.toNat) ∧
      (a.toNat = 0xED → b.toNat ≤ 0x9F) := by
    split_ifs at hb <;> omega
  clear hb
  rw [String.utf8EncodeChar, val_ofNat (by omega), if_neg (by omega), if_neg (by omega),
    if_pos (by omega)]
  simp only [List.cons.injEq, ← UInt8.toNat_inj, UInt8.toNat_ofNat', Nat.reducePow, and_true]
  omega

theorem encodeChar_four {a b c d : UInt8} (ha : 0xF0 ≤ a.toNat ∧ a.toNat ≤ 0xF4)
    (hb : (if a.toNat = 0xF0 then 0x90 else 0x80) ≤ b.toNat ∧
      b.toNat ≤ if a.toNat = 0xF4 then 0x8F else 0xBF)
    (hc : 0x80 ≤ c.toNat ∧ c.toNat ≤ 0xBF) (hd : 0x80 ≤ d.toNat ∧ d.toNat ≤ 0xBF) :
    String.utf8EncodeChar (Char.ofNat
      ((((a.toNat - 0xF0) * 64 + (b.toNat - 0x80)) * 64 + (c.toNat - 0x80)) * 64 +
        (d.toNat - 0x80))) = [a, b, c, d] := by
  have hbounds : (0x80 ≤ b.toNat ∧ b.toNat ≤ 0xBF) ∧ (a.toNat = 0xF0 → 0x90 ≤ b.toNat) ∧
      (a.toNat = 0xF4 → b.toNat ≤ 0x8F) := by
    split_ifs at hb <;> omega
  clear hb
  rw [String.utf8EncodeChar, val_ofNat (by omega), if_neg (by omega), if_neg (by omega),
    if_neg (by omega)]
  simp only [List.cons.injEq, ← UInt8.toNat_inj, UInt8.toNat_ofNat', Nat.reducePow, and_true]
  omega

theorem units_cons (a : UInt8) (os : List UInt8) :
    units (a :: os) = (start a.toNat).1 ++ unitsFrom (start a.toNat).2 os := rfl

theorem units_cons_of_pending {a : UInt8} {p : Pending} (h : start a.toNat = ([], some p)) :
    units (a :: os) = unitsFrom (some p) os := by
  rw [units_cons, h, List.nil_append]

/-- A character is read from its own octets only. -/
theorem exists_of_units_eq_cons_some (h : units os = some c :: us) :
    ∃ rest, os = String.utf8EncodeChar c ++ rest ∧ us = units rest := by
  cases os with
  | nil => exact nomatch h
  | cons a os =>
    have hrange : a.toNat < 0x80 ∨ (0xC2 ≤ a.toNat ∧ a.toNat ≤ 0xDF) ∨
        (0xE0 ≤ a.toNat ∧ a.toNat ≤ 0xEF) ∨ (0xF0 ≤ a.toNat ∧ a.toNat ≤ 0xF4) ∨
        (0x80 ≤ a.toNat ∧ a.toNat < 0xC2 ∨ 0xF4 < a.toNat) := by omega
    rcases hrange with ha | ha | ha | ha | ha
    · rw [units_cons, start_one ha] at h
      obtain ⟨hc, hrest⟩ := List.cons.inj h
      exact ⟨os, by rw [← Option.some.inj hc, encodeChar_one ha, List.singleton_append], hrest.symm⟩
    · rw [units_cons_of_pending (start_two ha)] at h
      obtain ⟨b, rest, hos, hb, hc, hrest⟩ := unitsFrom_last_iff.mp h
      exact ⟨rest, by rw [hos, hc, encodeChar_two ha hb]; rfl, hrest⟩
    · rw [units_cons_of_pending (start_three ha)] at h
      obtain ⟨b, os₁, hos, hb, h⟩ := unitsFrom_before_iff.mp h
      obtain ⟨x, rest, hos₁, hx, hc, hrest⟩ := unitsFrom_last_iff.mp h
      exact ⟨rest, by rw [hos, hos₁, hc, encodeChar_three ha hb hx]; rfl, hrest⟩
    · rw [units_cons_of_pending (start_four ha)] at h
      obtain ⟨b, os₁, hos, hb, h⟩ := unitsFrom_before_iff.mp h
      obtain ⟨x, os₂, hos₁, hx, h⟩ := unitsFrom_before_iff.mp h
      obtain ⟨y, rest, hos₂, hy, hc, hrest⟩ := unitsFrom_last_iff.mp h
      exact ⟨rest, by rw [hos, hos₁, hos₂, hc, encodeChar_four ha hb hx hy]; rfl, hrest⟩
    · rw [units_cons, start_damaged ha] at h
      exact nomatch (List.cons.inj h).1

theorem toNat_ofNat_octet {n : Nat} (h : n < 256) : (UInt8.ofNat n).toNat = n := by
  rw [UInt8.toNat_ofNat', Nat.mod_eq_of_lt h]

/-- The second of three octets has its bounds. -/
theorem second_of_three {x y : Nat} (hlow : x = 0 → 32 ≤ y) (hhigh : x = 13 → y ≤ 31)
    (hy : y < 64) :
    (if x + 224 = 0xE0 then 0xA0 else 0x80) ≤ y + 128 ∧
      y + 128 ≤ if x + 224 = 0xED then 0x9F else 0xBF := by
  split_ifs <;> omega

/-- The second of four octets has its bounds. -/
theorem second_of_four {x y : Nat} (hlow : x = 0 → 16 ≤ y) (hhigh : x = 4 → y ≤ 15)
    (hy : y < 64) :
    (if x + 240 = 0xF0 then 0x90 else 0x80) ≤ y + 128 ∧
      y + 128 ≤ if x + 240 = 0xF4 then 0x8F else 0xBF := by
  split_ifs <;> omega

/-- A character is read from its own octets, whatever follows them. -/
theorem units_encodeChar_append (c : Char) (rest : List UInt8) :
    units (String.utf8EncodeChar c ++ rest) = some c :: units rest := by
  have hc : c = Char.ofNat c.val.toNat := (Char.ofNat_toNat c).symm
  have hvalid : c.val.toNat < 0xD800 ∨ 0xDFFF < c.val.toNat ∧ c.val.toNat < 0x110000 := c.valid
  unfold String.utf8EncodeChar
  dsimp only
  generalize c.val.toNat = v at hc hvalid
  subst hc
  by_cases h1 : v ≤ 0x7F
  · rw [if_pos h1, List.singleton_append, units_cons, toNat_ofNat_octet (by omega),
      start_one (by omega)]
    rfl
  by_cases h2 : v ≤ 0x7FF
  · have ha := toNat_ofNat_octet (n := v / 64 % 32 + 192) (by omega)
    have hb := toNat_ofNat_octet (n := v % 64 + 128) (by omega)
    rw [if_neg h1, if_pos h2, List.cons_append,
      units_cons_of_pending (start_two (by omega))]
    exact unitsFrom_last_iff.mpr
      ⟨_, _, rfl, by omega, congrArg Char.ofNat (by omega), rfl⟩
  by_cases h3 : v ≤ 0xFFFF
  · have ha := toNat_ofNat_octet (n := v / 4096 % 16 + 224) (by omega)
    have hb := toNat_ofNat_octet (n := v / 64 % 64 + 128) (by omega)
    have hx := toNat_ofNat_octet (n := v % 64 + 128) (by omega)
    have hsecond := second_of_three (x := v / 4096 % 16) (y := v / 64 % 64) (by omega) (by omega)
      (by omega)
    rw [if_neg h1, if_neg h2, if_pos h3, List.cons_append,
      units_cons_of_pending (start_three (by omega))]
    refine unitsFrom_before_iff.mpr ⟨_, _, rfl, by rwa [ha, hb], ?_⟩
    exact unitsFrom_last_iff.mpr
      ⟨_, _, rfl, by omega, congrArg Char.ofNat (by omega), rfl⟩
  · have ha := toNat_ofNat_octet (n := v / 262144 % 8 + 240) (by omega)
    have hb := toNat_ofNat_octet (n := v / 4096 % 64 + 128) (by omega)
    have hx := toNat_ofNat_octet (n := v / 64 % 64 + 128) (by omega)
    have hy := toNat_ofNat_octet (n := v % 64 + 128) (by omega)
    have hsecond := second_of_four (x := v / 262144 % 8) (y := v / 4096 % 64) (by omega) (by omega)
      (by omega)
    rw [if_neg h1, if_neg h2, if_neg h3, List.cons_append,
      units_cons_of_pending (start_four (by omega))]
    refine unitsFrom_before_iff.mpr ⟨_, _, rfl, by rwa [ha, hb], ?_⟩
    refine unitsFrom_before_iff.mpr ⟨_, _, rfl, by omega, ?_⟩
    exact unitsFrom_last_iff.mpr
      ⟨_, _, rfl, by omega, congrArg Char.ofNat (by omega), rfl⟩

/-- **A character is read where its own octets stand, and nowhere else.** -/
theorem units_eq_cons_some_iff :
    units os = some c :: us ↔ ∃ rest, os = String.utf8EncodeChar c ++ rest ∧ us = units rest := by
  refine ⟨exists_of_units_eq_cons_some, ?_⟩
  rintro ⟨rest, rfl, rfl⟩
  exact units_encodeChar_append c rest

/-! ## Texts -/

theorem unitsFrom_ne_nil {pending : Option Pending} (h : pending.isSome ∨ os ≠ []) :
    unitsFrom pending os ≠ [] := by
  induction os generalizing pending with
  | nil =>
    rw [unitsFrom, if_pos (h.resolve_right (not_not_intro rfl))]
    exact List.cons_ne_nil _ _
  | cons b os ih =>
    have hstart : (start b.toNat).1 ≠ [] ∨ (start b.toNat).2.isSome := by
      unfold start
      split_ifs <;> simp
    have hleft : ∀ done left, done ≠ [] ∨ Option.isSome left → done ++ unitsFrom left os ≠ [] := by
      intro done left hdone hnil
      rw [List.append_eq_nil_iff] at hnil
      rcases hdone with hdone | hleft
      · exact hdone hnil.1
      · exact ih (.inl hleft) hnil.2
    cases pending with
    | none => exact hleft _ _ hstart
    | some p =>
      refine hleft (resume p b.toNat).1 (resume p b.toNat).2 ?_
      unfold resume
      split_ifs <;> simp

/-- Characters are read from their own octets only. -/
theorem units_eq_map_some_iff {cs : List Char} :
    units os = cs.map some ↔ os = cs.flatMap String.utf8EncodeChar := by
  induction cs generalizing os with
  | nil =>
    rw [List.map_nil, List.flatMap_nil]
    refine ⟨fun h => ?_, fun h => h ▸ rfl⟩
    by_contra hne
    exact unitsFrom_ne_nil (.inr hne) h
  | cons c cs ih =>
    rw [List.map_cons, units_eq_cons_some_iff, List.flatMap_cons]
    constructor
    · rintro ⟨rest, rfl, hrest⟩
      rw [ih.mp hrest.symm]
    · rintro rfl
      exact ⟨_, rfl, (ih.mpr rfl).symm⟩

theorem units_octets (text : String) : units (octets text) = text.toList.map some :=
  units_eq_map_some_iff.mpr (octets_eq_flatMap text)

/-- What is written is read again. -/
@[simp]
theorem lossy_octets (text : String) : lossy (octets text) = text := by
  rw [lossy, units_octets, List.map_map]
  exact (congrArg String.ofList (List.map_id _)).trans String.ofList_toList

/-- Octets that a text is written with. -/
def IsText (os : List UInt8) : Prop :=
  ∃ text, os = octets text

theorem IsText.octets_lossy (h : IsText os) : octets (lossy os) = os := by
  obtain ⟨text, rfl⟩ := h
  rw [lossy_octets]

end TokenFlow.Utf8
