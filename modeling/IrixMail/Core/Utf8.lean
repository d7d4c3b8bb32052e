import IrixMail.Core.Text

/-! The octets of a text: an octet below 128 stands for the character of its number. -/

namespace IrixMail
open List

theorem toList_loop (bytes : ByteArray) (i : ℕ) (gathered : Bytes) :
    ByteArray.toList.loop bytes i gathered = gathered.reverse ++ bytes.data.toList.drop i := by
  fun_induction ByteArray.toList.loop bytes i gathered with
  | case1 i gathered h ih =>
    have hi : i < bytes.data.toList.length := by simpa using h
    have hget : bytes.get! i = bytes.data.toList[i] := by
      change bytes.data[i]! = _
      rw [getElem!_pos bytes.data i h]
      simp
    rw [ih, reverse_cons, append_assoc, singleton_append, hget,
      getElem_cons_drop]
  | case2 i gathered h =>
    have hi : bytes.data.toList.length ≤ i := by simpa using Nat.le_of_not_lt h
    rw [drop_eq_nil_of_le hi, append_nil]

theorem utf8Bytes_eq (s : String) : utf8Bytes s = s.toList.flatMap String.utf8EncodeChar := by
  have hdata : s.toUTF8 = (s.toList.flatMap String.utf8EncodeChar).toByteArray :=
    String.utf8Encode_toList.symm
  rw [utf8Bytes, hdata, ByteArray.toList, toList_loop, toList_data_toByteArray]
  simp

theorem fromUtf8_utf8Bytes (s : String) : fromUtf8 (utf8Bytes s) = some s := by
  have hbytes : ⟨(utf8Bytes s).toArray⟩ = s.toUTF8 := by
    rw [utf8Bytes, ByteArray.toList, toList_loop]
    simp
  rw [fromUtf8, hbytes]
  exact dif_pos s.isValidUTF8

theorem utf8Bytes_append (s t : String) : utf8Bytes (s ++ t) = utf8Bytes s ++ utf8Bytes t := by
  simp only [utf8Bytes_eq, String.toList_append, flatMap_append]

theorem mem_utf8EncodeChar {b : UInt8} (hb : b.toNat < 128) {c : Char} :
    b ∈ String.utf8EncodeChar c ↔ c.toNat = b.toNat := by
  have hlarge : ∀ n : ℕ, 128 ≤ n → n < 256 → b ≠ UInt8.ofNat n := by
    rintro n hn hn' rfl
    rw [UInt8.toNat_ofNat_of_lt' (by simpa using hn')] at hb
    omega
  have hval : c.val.toNat = c.toNat := rfl
  unfold String.utf8EncodeChar
  dsimp only
  rw [hval]
  split_ifs with h₁ h₂ h₃
  · rw [mem_singleton]
    constructor
    · rintro rfl
      rw [UInt8.toNat_ofNat_of_lt' (by rw [UInt8.size]; omega)]
    · intro h
      rw [h, UInt8.ofNat_toNat]
  · have hne : c.toNat ≠ b.toNat := by omega
    simp only [mem_cons, not_mem_nil, or_false, hne, iff_false, not_or]
    exact ⟨hlarge _ (by omega) (by omega), hlarge _ (by omega) (by omega)⟩
  · have hne : c.toNat ≠ b.toNat := by omega
    simp only [mem_cons, not_mem_nil, or_false, hne, iff_false, not_or]
    exact ⟨hlarge _ (by omega) (by omega), hlarge _ (by omega) (by omega),
      hlarge _ (by omega) (by omega)⟩
  · have hne : c.toNat ≠ b.toNat := by omega
    simp only [mem_cons, not_mem_nil, or_false, hne, iff_false, not_or]
    exact ⟨hlarge _ (by omega) (by omega), hlarge _ (by omega) (by omega),
      hlarge _ (by omega) (by omega), hlarge _ (by omega) (by omega)⟩

theorem mem_utf8Bytes {b : UInt8} (hb : b.toNat < 128) {s : String} :
    b ∈ utf8Bytes s ↔ ∃ c ∈ s.toList, c.toNat = b.toNat := by
  rw [utf8Bytes_eq, mem_flatMap]
  simp only [mem_utf8EncodeChar hb]

end IrixMail
