import Mathlib.Data.List.Lex
import RootedGlob.Proofs.Octets.Offsets

/-!
# The order of encodings

The encodings of two characters differ first at a byte where that of the larger character is larger
(`utf8EncodeChar_append_lt`). So texts are in the order of their encodings (`octets_lt_octets_iff`).
-/

namespace RootedGlob.Octets

section Character

variable {bytes bytes' : List UInt8}

/-- The first bytes decide unless they are equal. -/
theorem ofNat_cons_lt {v w : Nat} (small : w < 256) (first : v ≤ w) (later : v = w → bytes < bytes') :
    UInt8.ofNat v :: bytes < UInt8.ofNat w :: bytes' := by
  rcases Nat.lt_or_eq_of_le first with less | same
  · apply List.Lex.rel
    rw [UInt8.lt_iff_toNat_lt, UInt8.toNat_ofNat', UInt8.toNat_ofNat', Nat.mod_eq_of_lt small,
      Nat.mod_eq_of_lt (less.trans small)]
    exact less
  · rw [same]
    exact .cons (later same)

theorem toNat_lt (c : Char) : c.val.toNat < 1114112 := by
  rcases c.valid with low | high
  · exact low.trans (by decide)
  · exact high.2

/-- Encodings of different characters are in their order, whatever follows them. -/
theorem utf8EncodeChar_append_lt {c d : Char} (less : c < d) (rest rest' : List UInt8) :
    String.utf8EncodeChar c ++ rest < String.utf8EncodeChar d ++ rest' := by
  have less : c.val.toNat < d.val.toNat := less
  have valid := toNat_lt d
  simp only [String.utf8EncodeChar]
  generalize c.val.toNat = v at less
  generalize d.val.toNat = w at less valid
  -- The two characters have encodings of different lengths or of the same length.
  by_cases longer : v ≤ 127 ∧ 127 < w ∨ v ≤ 2047 ∧ 2047 < w ∨ v ≤ 65535 ∧ 65535 < w
  · -- The first byte tells the number of bytes, so it is larger where there are more of them.
    have lead {first first' : Nat} {bytes bytes' : List UInt8} (small : first' < 256) (less : first < first') :
        UInt8.ofNat first :: bytes < UInt8.ofNat first' :: bytes' :=
      ofNat_cons_lt small (Nat.le_of_lt less) fun same => absurd same (Nat.ne_of_lt less)
    split_ifs <;> first | omega | exact lead (by omega) (by omega)
  · -- With the same number of bytes, the bytes are digits, the highest one first.
    by_cases one : w ≤ 127
    · rw [if_pos one, if_pos (by omega)]
      exact ofNat_cons_lt (by omega) (by omega) fun _ => by omega
    by_cases two : w ≤ 2047
    · rw [if_neg one, if_pos two, if_neg (by omega), if_pos (by omega)]
      exact ofNat_cons_lt (by omega) (by omega) fun _ => ofNat_cons_lt (by omega) (by omega) fun _ => by omega
    by_cases three : w ≤ 65535
    · rw [if_neg one, if_neg two, if_pos three, if_neg (by omega), if_neg (by omega), if_pos (by omega)]
      exact ofNat_cons_lt (by omega) (by omega) fun _ => ofNat_cons_lt (by omega) (by omega) fun _ =>
        ofNat_cons_lt (by omega) (by omega) fun _ => by omega
    · rw [if_neg one, if_neg two, if_neg three, if_neg (by omega), if_neg (by omega), if_neg (by omega)]
      exact ofNat_cons_lt (by omega) (by omega) fun _ => ofNat_cons_lt (by omega) (by omega) fun _ =>
        ofNat_cons_lt (by omega) (by omega) fun _ => ofNat_cons_lt (by omega) (by omega) fun _ => by omega

end Character

theorem octets_lt_octets {one two : Text} (less : one < two) : octets one < octets two := by
  induction less with
  | @nil c rest =>
    obtain ⟨byte, bytes, whole⟩ := List.exists_cons_of_length_pos (octets_length_pos c rest)
    rw [whole]
    exact .nil
  | rel less => exact utf8EncodeChar_append_lt less _ _
  | cons _ ih => exact List.Lex.append_left _ ih _

theorem octets_lt_octets_iff {one two : Text} : octets one < octets two ↔ one < two := by
  refine ⟨fun less => ?_, octets_lt_octets⟩
  rcases lt_trichotomy one two with first | rfl | second
  · exact first
  · exact absurd less (List.lt_irrefl _)
  · exact absurd less (List.lt_asymm (octets_lt_octets second))

theorem octets_le_octets_iff {one two : Text} : octets one ≤ octets two ↔ one ≤ two := by
  rw [← not_lt, ← octets_lt_octets_iff]
  exact Iff.rfl

end RootedGlob.Octets
