import Mathlib.Data.String.Basic
import TokenFlow.Text.Utf8

/-!
# Texts in the order of their octets

Texts are ordered character by character.  What the outside of the library sees of a text are its
octets, and the order of those is the same (`Utf8.octets_lt_octets`): of two characters the one with
the lower number has the lower octet where their octets first differ (`Utf8.encodeChar_lt`).
-/
namespace TokenFlow.Utf8

theorem octets_eq_flatMap (text : String) :
    octets text = text.toList.flatMap String.utf8EncodeChar := by
  rw [octets, String.toUTF8, ← String.utf8Encode_toList, List.utf8Encode, List.data_toByteArray]

/-! ## Characters -/

theorem digit_lt {m n : Nat} (h : m < n) :
    m / 64 < n / 64 ∨ m / 64 = n / 64 ∧ m % 64 < n % 64 := by
  omega

/-- Numbers compare as their last three digits to the base 64 and what stands before them. -/
theorem digits_lt {m n : Nat} (h : m < n) :
    m / 64 / 64 / 64 < n / 64 / 64 / 64 ∨ m / 64 / 64 / 64 = n / 64 / 64 / 64 ∧
      (m / 64 / 64 % 64 < n / 64 / 64 % 64 ∨ m / 64 / 64 % 64 = n / 64 / 64 % 64 ∧
        (m / 64 % 64 < n / 64 % 64 ∨ m / 64 % 64 = n / 64 % 64 ∧ m % 64 < n % 64)) := by
  rcases digit_lt h with h | ⟨heq, h⟩
  · rcases digit_lt h with h | ⟨heq, h⟩
    · rcases digit_lt h with h | ⟨heq, h⟩
      · exact .inl h
      · exact .inr ⟨heq, .inl h⟩
    · rw [heq]
      exact .inr ⟨rfl, .inr ⟨rfl, .inl h⟩⟩
  · rw [heq]
    exact .inr ⟨rfl, .inr ⟨rfl, .inr ⟨rfl, h⟩⟩⟩

/-- **The octets of characters compare as the characters**, whatever follows them. -/
theorem encodeChar_lt {c d : Char} (h : c < d) (xs ys : List UInt8) :
    String.utf8EncodeChar c ++ xs < String.utf8EncodeChar d ++ ys := by
  have hlt : c.val.toNat < d.val.toNat := h
  have hd : d.val.toNat < 0x110000 := by
    rcases d.valid with h | h
    · exact Nat.lt_trans h (by decide)
    · exact h.2
  have hdigits := digits_lt hlt
  simp only [Nat.div_div_eq_div_mul, Nat.reduceMul] at hdigits
  unfold String.utf8EncodeChar
  dsimp only
  -- by how many octets the two characters have: if one has more, its first octet is higher, and
  -- if both have as many, the octets carry the digits of their numbers
  split_ifs <;>
    simp (disch := omega) only [List.cons_append, List.nil_append, List.cons_lt_cons_iff,
      UInt8.lt_iff_toNat_lt, ← UInt8.toNat_inj, UInt8.toNat_ofNat', Nat.reducePow,
      Nat.mod_eq_of_lt] <;>
    omega

/-! ## Texts -/

theorem flatMap_encodeChar_lt {cs ds : List Char} (h : cs < ds) :
    cs.flatMap String.utf8EncodeChar < ds.flatMap String.utf8EncodeChar := by
  induction h with
  | @nil d ds =>
    obtain ⟨x, xs, hd⟩ := List.exists_cons_of_ne_nil (String.utf8EncodeChar_ne_nil (c := d))
    rw [List.flatMap_cons, hd]
    exact .nil
  | rel h => exact encodeChar_lt h _ _
  | cons _ ih => exact List.append_left_lt ih

theorem octets_lt_of_lt {s t : String} (h : s < t) : octets s < octets t := by
  rw [octets_eq_flatMap, octets_eq_flatMap]
  exact flatMap_encodeChar_lt (String.lt_iff_toList_lt.mp h)

/-- **Texts are in the order of their octets.** -/
theorem octets_lt_octets {s t : String} : octets s < octets t ↔ s < t := by
  refine ⟨fun h => ?_, octets_lt_of_lt⟩
  rcases lt_trichotomy s t with hst | rfl | hts
  · exact hst
  · exact absurd h (List.lt_irrefl _)
  · exact absurd h (List.lt_asymm (octets_lt_of_lt hts))

end TokenFlow.Utf8
