import EventFlow.Text.Utf8

namespace EventFlow.Text.Utf8

theorem encode_eq (text : String) : encode text = text.toList.flatMap String.utf8EncodeChar := by
  rw [encode, String.toUTF8, ← String.utf8Encode_toList, List.utf8Encode, List.data_toByteArray]

theorem encode_append (first second : String) :
    encode (first ++ second) = encode first ++ encode second := by
  simp only [encode_eq, String.toList_append, List.flatMap_append]

theorem length_encode (text : String) : (encode text).length = text.utf8ByteSize := by
  rw [encode, Array.length_toList]
  rfl

-- All octets of a character beyond ASCII have their highest bit set.
theorem exists_of_mem_utf8EncodeChar {c : Char} {octet : UInt8} (h : 0x7F < c.val.toNat)
    (hmem : octet ∈ String.utf8EncodeChar c) :
    ∃ n, octet = UInt8.ofNat n ∧ 0x80 ≤ n ∧ n < 0x100 := by
  simp only [String.utf8EncodeChar, if_neg (Nat.not_le.mpr h)] at hmem
  split at hmem
  · simp only [List.mem_cons, List.not_mem_nil, or_false] at hmem
    rcases hmem with rfl | rfl
    · exact ⟨_, rfl, by omega, by omega⟩
    · exact ⟨_, rfl, by omega, by omega⟩
  · split at hmem
    · simp only [List.mem_cons, List.not_mem_nil, or_false] at hmem
      rcases hmem with rfl | rfl | rfl
      · exact ⟨_, rfl, by omega, by omega⟩
      · exact ⟨_, rfl, by omega, by omega⟩
      · exact ⟨_, rfl, by omega, by omega⟩
    · simp only [List.mem_cons, List.not_mem_nil, or_false] at hmem
      rcases hmem with rfl | rfl | rfl | rfl
      · exact ⟨_, rfl, by omega, by omega⟩
      · exact ⟨_, rfl, by omega, by omega⟩
      · exact ⟨_, rfl, by omega, by omega⟩
      · exact ⟨_, rfl, by omega, by omega⟩

theorem ofNat_eq_newline_iff {n : Nat} (h : n < 0x100) : UInt8.ofNat n = 0x0A ↔ n = 0x0A := by
  rw [← UInt8.toNat_inj, UInt8.toNat_ofNat', Nat.mod_eq_of_lt h]
  rfl

-- Only the line end itself has the octet of a line end.
theorem count_utf8EncodeChar (c : Char) :
    (String.utf8EncodeChar c).count 0x0A = if c = '\n' then 1 else 0 := by
  by_cases hascii : c.val.toNat ≤ 0x7F
  · have hcode : String.utf8EncodeChar c = [UInt8.ofNat c.val.toNat] := if_pos hascii
    have hline : UInt8.ofNat c.val.toNat = 0x0A ↔ c = '\n' :=
      (ofNat_eq_newline_iff (by omega)).trans (@Char.toNat_inj c '\n')
    simp only [hcode, List.count_singleton, beq_iff_eq, hline]
  · have hline : c ≠ '\n' := by
      rintro rfl
      exact hascii (by decide)
    rw [if_neg hline, List.count_eq_zero]
    intro hmem
    obtain ⟨n, heq, hlow, hhigh⟩ := exists_of_mem_utf8EncodeChar (Nat.lt_of_not_le hascii) hmem
    have hn := (ofNat_eq_newline_iff hhigh).mp heq.symm
    omega

theorem count_encode (text : String) :
    (encode text).count 0x0A = text.toList.count '\n' := by
  rw [encode_eq]
  induction text.toList with
  | nil => rfl
  | cons c rest ih =>
    rw [List.flatMap_cons, List.count_append, ih, count_utf8EncodeChar, List.count_cons]
    simp [Nat.add_comm]

end EventFlow.Text.Utf8
