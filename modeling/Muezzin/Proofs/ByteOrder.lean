import Mathlib

/-!
# The order of bytes is the order of characters

Texts are compared character by character, by code point. UTF-8 is made such that their bytes, as
numbers, are in the same order: of two characters the lesser has fewer bytes and a lesser first one,
or as many and the first that is different is lesser.
-/

namespace Muezzin.Text

open String (utf8EncodeChar)

def bytes (text : String) : List UInt8 :=
  text.toUTF8.data.toList

theorem bytes_eq_flatMap (text : String) : bytes text = text.toList.flatMap utf8EncodeChar := by
  conv_lhs => rw [← String.ofList_toList (s := text)]
  rw [bytes, String.toUTF8_eq_toByteArray, String.toByteArray_ofList, List.utf8Encode,
    List.toList_data_toByteArray]

theorem ofNat_cons_lt {m n : Nat} {x y : List UInt8} (hfirst : m ≤ n) (hsmall : n < 256)
    (hrest : m = n → x < y) : UInt8.ofNat m :: x < UInt8.ofNat n :: y := by
  rw [List.cons_lt_cons_iff]
  rcases Nat.lt_or_eq_of_le hfirst with hless | hsame
  · exact .inl ((UInt8.ofNat_lt_iff_lt (by show m < 256; omega) hsmall).2 hless)
  · exact .inr ⟨congrArg _ hsame, hrest hsame⟩

/-- Whatever follows, the lesser of two characters gives the lesser bytes. -/
theorem utf8EncodeChar_append_lt {c d : Char} (hless : c < d) (x y : List UInt8) :
    utf8EncodeChar c ++ x < utf8EncodeChar d ++ y := by
  have hvalues : c.val.toNat < d.val.toNat := hless
  have hvalid : d.val.toNat < 1114112 := by
    rcases d.valid with hlow | hhigh
    · omega
    · exact hhigh.2
  unfold utf8EncodeChar
  generalize c.val.toNat = m at *
  generalize d.val.toNat = n at *
  dsimp only
  split
  · split_ifs
    all_goals exact ofNat_cons_lt (by omega) (by omega) (by omega)
  · split
    · rw [if_neg (by omega)]
      split_ifs
      · exact ofNat_cons_lt (by omega) (by omega) fun _ =>
          ofNat_cons_lt (by omega) (by omega) (by omega)
      all_goals exact ofNat_cons_lt (by omega) (by omega) (by omega)
    · split
      · rw [if_neg (by omega), if_neg (by omega)]
        split_ifs
        · exact ofNat_cons_lt (by omega) (by omega) fun _ =>
            ofNat_cons_lt (by omega) (by omega) fun _ =>
              ofNat_cons_lt (by omega) (by omega) (by omega)
        · exact ofNat_cons_lt (by omega) (by omega) (by omega)
      · rw [if_neg (by omega), if_neg (by omega), if_neg (by omega)]
        exact ofNat_cons_lt (by omega) (by omega) fun _ =>
          ofNat_cons_lt (by omega) (by omega) fun _ =>
            ofNat_cons_lt (by omega) (by omega) fun _ =>
              ofNat_cons_lt (by omega) (by omega) (by omega)

theorem flatMap_utf8EncodeChar_lt {cs ds : List Char} (hless : cs < ds) :
    cs.flatMap utf8EncodeChar < ds.flatMap utf8EncodeChar := by
  induction hless with
  | @nil d ds =>
    have hsome : utf8EncodeChar d ≠ [] := by
      rw [← List.length_pos_iff, String.length_utf8EncodeChar]
      exact d.utf8Size_pos
    obtain ⟨b, bs, hbytes⟩ := List.exists_cons_of_ne_nil hsome
    rw [List.flatMap_cons, hbytes]
    exact List.nil_lt_cons b _
  | rel hless => exact utf8EncodeChar_append_lt hless _ _
  | cons _ ih => exact List.append_left_lt ih

/-- Texts are in the order of their bytes. -/
theorem bytes_lt_iff {a b : String} : bytes a < bytes b ↔ a < b := by
  have honward {a b : String} (hless : a < b) : bytes a < bytes b := by
    rw [bytes_eq_flatMap, bytes_eq_flatMap]
    exact flatMap_utf8EncodeChar_lt (String.lt_iff_toList_lt.1 hless)
  refine ⟨fun hless => ?_, honward⟩
  rcases lt_trichotomy a b with hbefore | rfl | hafter
  · exact hbefore
  · exact absurd hless (List.lt_irrefl _)
  · exact absurd (honward hafter) (List.lt_asymm hless)

end Muezzin.Text
