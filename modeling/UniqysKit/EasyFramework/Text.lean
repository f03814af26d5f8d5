import UniqysKit.EasyFramework.Transaction

/-!
# Text that was written as UTF-8

The decoder replaces bytes that are no character, so it is no inverse of the encoder.  The other way
round it is one: what was written for a text is read as this text.
-/

namespace UniqysKit
namespace EasyFramework
namespace Utf8

variable {n : Nat} {partly : Partial} {rest : Bytes}

theorem toNat_ofNat (h : n < 256) : (UInt8.ofNat n).toNat = n := by
  simp [Nat.mod_eq_of_lt h]

/-! ## One byte -/

theorem decode_lead (hn : n < 256) (h : lead n = ([], some partly)) :
    decode none (UInt8.ofNat n :: rest) = decode (some partly) rest := by
  simp only [decode, next, toNat_ofNat hn, h, List.nil_append]

theorem decode_more (hn : n < 256) (h : partly.lower ≤ n ∧ n ≤ partly.upper)
    (hneeded : partly.needed ≠ 1) :
    decode (some partly) (UInt8.ofNat n :: rest) =
      decode (some ⟨partly.needed - 1, partly.codePoint * 64 + (n - 0x80), 0x80, 0xBF⟩) rest := by
  simp only [decode, next, toNat_ofNat hn, if_pos h, if_neg hneeded, List.nil_append]

theorem decode_last (hn : n < 256) (h : partly.lower ≤ n ∧ n ≤ partly.upper)
    (hneeded : partly.needed = 1) :
    decode (some partly) (UInt8.ofNat n :: rest) =
      Char.ofNat (partly.codePoint * 64 + (n - 0x80)) :: decode none rest := by
  simp only [decode, next, toNat_ofNat hn, if_pos h, if_pos hneeded, List.singleton_append]

/-! ## One character -/

section Widths

variable {v : Nat}

theorem decode_two (hmin : ¬v ≤ 0x7F) (hmax : v ≤ 0x7FF) :
    decode none (UInt8.ofNat (v / 64 % 0x20 + 0xC0) :: UInt8.ofNat (v % 0x40 + 0x80) :: rest) =
      Char.ofNat v :: decode none rest := by
  have hlead : lead (v / 64 % 0x20 + 0xC0) = ([], some ⟨1, v / 64, 0x80, 0xBF⟩) := by
    have hsum : v / 64 % 0x20 + 0xC0 - 0xC0 = v / 64 := by omega
    rw [lead, if_neg (by omega), if_pos (by omega), hsum]
  have hchar : v / 64 * 64 + (v % 0x40 + 0x80 - 0x80) = v := by omega
  rw [decode_lead (by omega) hlead, decode_last (by omega) ⟨by simp only; omega, by simp only; omega⟩ rfl]
  simp only [hchar]

/-- The bounds of the second byte keep out the surrogates and what is written shorter. -/
theorem decode_three (hmin : ¬v ≤ 0x7FF) (hmax : v ≤ 0xFFFF) (hvalid : v < 0xD800 ∨ 0xDFFF < v) :
    decode none (UInt8.ofNat (v / 4096 % 0x10 + 0xE0) :: UInt8.ofNat (v / 64 % 0x40 + 0x80) ::
      UInt8.ofNat (v % 0x40 + 0x80) :: rest) = Char.ofNat v :: decode none rest := by
  have hlead : lead (v / 4096 % 0x10 + 0xE0) = ([], some ⟨2, v / 4096,
      if v / 4096 % 0x10 + 0xE0 = 0xE0 then 0xA0 else 0x80,
      if v / 4096 % 0x10 + 0xE0 = 0xED then 0x9F else 0xBF⟩) := by
    have hsum : v / 4096 % 0x10 + 0xE0 - 0xE0 = v / 4096 := by omega
    rw [lead, if_neg (by omega), if_neg (by omega), if_pos (by omega), hsum]
  have hchar : (v / 4096 * 64 + (v / 64 % 0x40 + 0x80 - 0x80)) * 64 + (v % 0x40 + 0x80 - 0x80) = v := by
    omega
  rw [decode_lead (by omega) hlead]
  rw [decode_more (by omega) ⟨by simp only; split <;> omega, by simp only; split <;> omega⟩
    (Nat.succ_succ_ne_one 0)]
  rw [decode_last (by omega) ⟨by simp only; omega, by simp only; omega⟩ rfl]
  simp only [hchar]

theorem decode_four (hmin : ¬v ≤ 0xFFFF) (hmax : v < 0x110000) :
    decode none (UInt8.ofNat (v / 262144 % 0x08 + 0xF0) :: UInt8.ofNat (v / 4096 % 0x40 + 0x80) ::
      UInt8.ofNat (v / 64 % 0x40 + 0x80) :: UInt8.ofNat (v % 0x40 + 0x80) :: rest) =
        Char.ofNat v :: decode none rest := by
  have hlead : lead (v / 262144 % 0x08 + 0xF0) = ([], some ⟨3, v / 262144,
      if v / 262144 % 0x08 + 0xF0 = 0xF0 then 0x90 else 0x80,
      if v / 262144 % 0x08 + 0xF0 = 0xF4 then 0x8F else 0xBF⟩) := by
    have hsum : v / 262144 % 0x08 + 0xF0 - 0xF0 = v / 262144 := by omega
    rw [lead, if_neg (by omega), if_neg (by omega), if_neg (by omega), if_pos (by omega), hsum]
  have hchar : ((v / 262144 * 64 + (v / 4096 % 0x40 + 0x80 - 0x80)) * 64 +
      (v / 64 % 0x40 + 0x80 - 0x80)) * 64 + (v % 0x40 + 0x80 - 0x80) = v := by
    omega
  rw [decode_lead (by omega) hlead]
  rw [decode_more (by omega) ⟨by simp only; split <;> omega, by simp only; split <;> omega⟩
    (Nat.succ_succ_ne_one 1)]
  rw [decode_more (by omega) ⟨by simp only; omega, by simp only; omega⟩ (Nat.succ_succ_ne_one 0)]
  rw [decode_last (by omega) ⟨by simp only; omega, by simp only; omega⟩ rfl]
  simp only [hchar]

end Widths

/-- The bytes of a character are decoded to it. -/
theorem decode_utf8EncodeChar (c : Char) (rest : Bytes) :
    decode none (String.utf8EncodeChar c ++ rest) = c :: decode none rest := by
  have hofNat : Char.ofNat c.val.toNat = c := Char.ofNat_toNat c
  have hrange : c.val.toNat < 0xD800 ∨ 0xDFFF < c.val.toNat ∧ c.val.toNat < 0x110000 := c.valid
  unfold String.utf8EncodeChar
  generalize c.val.toNat = v at hofNat hrange
  rw [← hofNat]
  simp only
  split
  · rename_i hone
    simp only [List.cons_append, List.nil_append, decode, next, lead,
      toNat_ofNat (show v < 256 by omega), if_pos hone]
  · rename_i hone
    split
    · rename_i htwo
      exact decode_two hone htwo
    · rename_i htwo
      split
      · rename_i hthree
        exact decode_three htwo hthree (by omega)
      · rename_i hthree
        exact decode_four hthree (by omega)

/-! ## Texts -/

theorem decode_flatMap (chars : List Char) :
    decode none (chars.flatMap String.utf8EncodeChar) = chars := by
  induction chars with
  | nil => rfl
  | cons c chars ih =>
      rw [List.flatMap_cons, decode_utf8EncodeChar, ih]

theorem toList_loop (bytes : ByteArray) (i : Nat) (r : Bytes) :
    ByteArray.toList.loop bytes i r = r.reverse ++ bytes.data.toList.drop i := by
  fun_induction ByteArray.toList.loop bytes i r with
  | case1 i r h ih =>
      have hget : bytes.data.toList.drop i = bytes.get! i :: bytes.data.toList.drop (i + 1) := by
        rw [List.drop_eq_getElem_cons h, Array.getElem_toList]
        exact congrArg (· :: _) (getElem!_pos bytes.data i h).symm
      rw [ih, hget, List.reverse_cons, List.append_assoc]
      rfl
  | case2 i r h =>
      rw [List.drop_eq_nil_of_le (Nat.le_of_not_lt h), List.append_nil]

theorem toUTF8_toList (text : String) :
    text.toUTF8.toList = text.toList.flatMap String.utf8EncodeChar := by
  have hbytes : text.toUTF8 = (text.toList.flatMap String.utf8EncodeChar).toByteArray :=
    String.utf8Encode_toList.symm
  rw [hbytes, ByteArray.toList, toList_loop, List.drop_zero, List.toList_data_toByteArray]
  rfl

/-- The bytes of a text are decoded to it. -/
theorem toString_toUTF8 (text : String) : toString text.toUTF8.toList = text := by
  rw [toString, toUTF8_toList, decode_flatMap, String.ofList_toList]

end Utf8
end EasyFramework
end UniqysKit
