import Mathlib.Data.List.Basic
import ZigNif.Proofs.Except
import ZigNif.Text.Utf8

/-!
# Proofs/Text/Utf8 — decoding undoes encoding

A character has one sequence of bytes.  For each of the four lengths, two bytes or more are the
sequence of a character if and only if the decoder accepts them one after another, and the character
is the one that it puts together from them (`encodeChar_eq_two_iff` and its neighbours).  So the
decoder accepts exactly what the encoder gives, and gives back what was encoded.
-/

namespace ZigNif.Utf8

variable {c : Char} {b b₁ b₂ b₃ b₄ : UInt8} {bs : List UInt8} {k n : Nat} {t : Text}

/-! ## Bytes in numbers -/

/-- The first byte of a sequence tells how long it is; bytes that start none count as zero. -/
theorem sequenceLength_eq_iff (b : UInt8) :
    (sequenceLength b = 1 ↔ b.toNat < 0x80) ∧
    (sequenceLength b = 2 ↔ 0xc2 ≤ b.toNat ∧ b.toNat < 0xe0) ∧
    (sequenceLength b = 3 ↔ 0xe0 ≤ b.toNat ∧ b.toNat < 0xf0) ∧
    (sequenceLength b = 4 ↔ 0xf0 ≤ b.toNat ∧ b.toNat < 0xf5) ∧ sequenceLength b ≤ 4 := by
  simp only [sequenceLength, UInt8.lt_iff_toNat_lt, UInt8.reduceToNat]
  repeat' split
  all_goals omega

theorem isContinuation_iff : isContinuation b ↔ 0x80 ≤ b.toNat ∧ b.toNat < 0xc0 := by
  simp [isContinuation, UInt8.lt_iff_toNat_lt, UInt8.le_iff_toNat_le]

/-- Behind four of the first bytes, the second one is restricted: overlong forms, surrogates and
what lies behind the last code point are no sequences. -/
theorem isSecond_iff : isSecond b₁ b ↔ isContinuation b ∧
    (b₁.toNat ≠ 0xe0 ∨ 0xa0 ≤ b.toNat) ∧ (b₁.toNat ≠ 0xed ∨ b.toNat < 0xa0) ∧
    (b₁.toNat ≠ 0xf0 ∨ 0x90 ≤ b.toNat) ∧ (b₁.toNat ≠ 0xf4 ∨ b.toNat < 0x90) := by
  simp only [isSecond, Bool.and_eq_true, Bool.or_eq_true, bne_iff_ne, ne_eq, decide_eq_true_eq,
    ← UInt8.toNat_inj, UInt8.lt_iff_toNat_lt, UInt8.le_iff_toNat_le, UInt8.reduceToNat, and_assoc]

/-- The bytes of a character, as numbers. -/
theorem map_toNat_encodeChar (c : Char) : (String.utf8EncodeChar c).map UInt8.toNat =
    if c.toNat < 0x80 then [c.toNat]
    else if c.toNat < 0x800 then [0xc0 + c.toNat / 64, 0x80 + c.toNat % 64]
    else if c.toNat < 0x10000 then
      [0xe0 + c.toNat / 4096, 0x80 + c.toNat / 64 % 64, 0x80 + c.toNat % 64]
    else
      [0xf0 + c.toNat / 262144, 0x80 + c.toNat / 4096 % 64, 0x80 + c.toNat / 64 % 64,
        0x80 + c.toNat % 64] := by
  have hc : c.toNat.isValidChar := c.valid
  simp only [String.utf8EncodeChar, Char.toNat_val]
  -- the two sides make the same four cases, and the other twelve contradict each other
  repeat' split
  all_goals first | omega | skip
  all_goals simp only [List.map_cons, List.map_nil, UInt8.toNat_ofNat', List.cons.injEq, and_true]
  all_goals omega

theorem encodeChar_eq_iff : String.utf8EncodeChar c = bs ↔
    (String.utf8EncodeChar c).map UInt8.toNat = bs.map UInt8.toNat :=
  (List.map_inj_right fun _ _ => UInt8.toNat_inj.mp).symm

/-! ## The sequence of a character -/

/-- One byte encodes the character that it is the code point of. -/
theorem encodeChar_eq_one_iff : String.utf8EncodeChar c = [b₁] ↔
    sequenceLength b₁ = 1 ∧ c.toNat = b₁.toNat := by
  rw [encodeChar_eq_iff, map_toNat_encodeChar, (sequenceLength_eq_iff b₁).1]
  repeat' split
  all_goals simp
  all_goals omega

theorem encodeChar_eq_two_iff : String.utf8EncodeChar c = [b₁, b₂] ↔
    sequenceLength b₁ = 2 ∧ isSecond b₁ b₂ ∧ c.toNat = b₁.toNat % 32 * 64 + payload b₂ := by
  rw [encodeChar_eq_iff, map_toNat_encodeChar, (sequenceLength_eq_iff b₁).2.1, isSecond_iff,
    isContinuation_iff, payload]
  repeat' split
  all_goals simp
  all_goals omega

theorem encodeChar_eq_three_iff : String.utf8EncodeChar c = [b₁, b₂, b₃] ↔
    sequenceLength b₁ = 3 ∧ isSecond b₁ b₂ ∧ isContinuation b₃ ∧
      c.toNat = (b₁.toNat % 16 * 64 + payload b₂) * 64 + payload b₃ := by
  have hc : c.toNat.isValidChar := c.valid
  rw [encodeChar_eq_iff, map_toNat_encodeChar, (sequenceLength_eq_iff b₁).2.2.1, isSecond_iff,
    isContinuation_iff, isContinuation_iff, payload, payload]
  repeat' split
  all_goals simp
  · omega
  · omega
  · constructor
    · rintro ⟨hlead, hsecond, hthird⟩
      omega
    · rintro ⟨hlead, hsecond, hthird, hcode⟩
      omega
  · omega

theorem encodeChar_eq_four_iff : String.utf8EncodeChar c = [b₁, b₂, b₃, b₄] ↔
    sequenceLength b₁ = 4 ∧ isSecond b₁ b₂ ∧ isContinuation b₃ ∧ isContinuation b₄ ∧
      c.toNat = ((b₁.toNat % 8 * 64 + payload b₂) * 64 + payload b₃) * 64 + payload b₄ := by
  have hc : c.toNat.isValidChar := c.valid
  rw [encodeChar_eq_iff, map_toNat_encodeChar, (sequenceLength_eq_iff b₁).2.2.2.1, isSecond_iff,
    isContinuation_iff, isContinuation_iff, isContinuation_iff, payload, payload, payload]
  repeat' split
  all_goals simp
  · omega
  · omega
  · omega
  · constructor
    · rintro ⟨hlead, hsecond, hthird, hfourth⟩
      omega
    · rintro ⟨hlead, hsecond, hthird, hfourth, hcode⟩
      omega

/-- A character has one to four bytes. -/
theorem encodeChar_cases (c : Char) : (∃ b₁, String.utf8EncodeChar c = [b₁]) ∨
    (∃ b₁ b₂, String.utf8EncodeChar c = [b₁, b₂]) ∨
    (∃ b₁ b₂ b₃, String.utf8EncodeChar c = [b₁, b₂, b₃]) ∨
    ∃ b₁ b₂ b₃ b₄, String.utf8EncodeChar c = [b₁, b₂, b₃, b₄] := by
  simp only [String.utf8EncodeChar]
  repeat' split
  all_goals simp

/-! ## Decoding -/

/-- **The sequence of a character is decoded to the character.** -/
theorem decodeFrom_encodeChar_append (k : Nat) (c : Char) (r : List UInt8) :
    decodeFrom k (String.utf8EncodeChar c ++ r) =
      (c :: ·) <$> decodeFrom (k + (String.utf8EncodeChar c).length) r := by
  obtain ⟨b₁, h⟩ | ⟨b₁, b₂, h⟩ | ⟨b₁, b₂, b₃, h⟩ | ⟨b₁, b₂, b₃, b₄, h⟩ := encodeChar_cases c
  · obtain ⟨hlength, hcode⟩ := encodeChar_eq_one_iff.mp h
    rw [h]
    simp [decodeFrom, hlength, ← hcode]
  · obtain ⟨hlength, hsecond, hcode⟩ := encodeChar_eq_two_iff.mp h
    rw [h]
    simp [decodeFrom, hlength, hsecond, ← hcode]
  · obtain ⟨hlength, hsecond, hthird, hcode⟩ := encodeChar_eq_three_iff.mp h
    rw [h]
    simp [decodeFrom, hlength, hsecond, hthird, ← hcode]
  · obtain ⟨hlength, hsecond, hthird, hfourth, hcode⟩ := encodeChar_eq_four_iff.mp h
    rw [h]
    simp [decodeFrom, hlength, hsecond, hthird, hfourth, ← hcode]

theorem toNat_ofNat_of_isValidChar (hn : n.isValidChar) : (Char.ofNat n).toNat = n := by
  rw [Char.ofNat, dif_pos hn]
  rfl

/-- What is decoded behind a character that was put together from its sequence. -/
theorem encode_of_map_eq_ok {seq rest : List UInt8} (hseq : String.utf8EncodeChar c = seq)
    (hrest : ∀ {t : Text}, decodeFrom k rest = .ok t → encode t = rest)
    (h : (c :: ·) <$> decodeFrom k rest = .ok t) : encode t = seq ++ rest := by
  obtain ⟨t', ht', rfl⟩ := map_eq_ok_iff.mp h
  rw [encode, List.flatMap_cons, hseq, ← encode, hrest ht']

/-- **What is decoded encodes to the bytes that were read.** -/
theorem encode_of_decodeFrom (h : decodeFrom k bs = .ok t) : encode t = bs := by
  fun_induction decodeFrom k bs generalizing t with
  | case1 k =>
    cases h
    rfl
  | case3 k b₁ r₁ hlength ih =>
    have hcode : b₁.toNat.isValidChar := by
      rw [(sequenceLength_eq_iff b₁).1] at hlength
      exact .inl (by omega)
    exact encode_of_map_eq_ok
      (encodeChar_eq_one_iff.mpr ⟨hlength, toNat_ofNat_of_isValidChar hcode⟩) ih h
  | case6 k b₁ b₂ r₂ hsecond hlength ih =>
    rw [Bool.not_eq_true', Bool.not_eq_false] at hsecond
    have hcode : (b₁.toNat % 32 * 64 + payload b₂).isValidChar := by
      rw [payload]
      exact .inl (by omega)
    exact encode_of_map_eq_ok
      (encodeChar_eq_two_iff.mpr ⟨hlength, hsecond, toNat_ofNat_of_isValidChar hcode⟩) ih h
  | case9 k b₁ b₂ hsecond b₃ r₃ hthird hlength _ ih =>
    rw [Bool.not_eq_true', Bool.not_eq_false] at hsecond hthird
    have hcode : ((b₁.toNat % 16 * 64 + payload b₂) * 64 + payload b₃).isValidChar := by
      rw [isSecond_iff, isContinuation_iff] at hsecond
      have hlead := (sequenceLength_eq_iff b₁).2.2.1.mp hlength
      rw [payload, payload, Nat.isValidChar]
      omega
    have hchar := encodeChar_eq_three_iff.mpr
      ⟨hlength, hsecond, hthird, toNat_ofNat_of_isValidChar hcode⟩
    exact encode_of_map_eq_ok hchar ih h
  | case12 k b₁ n hlength b₂ hsecond hzero b₃ hthird hone b₄ r₄ hfourth ih =>
    rw [Bool.not_eq_true', Bool.not_eq_false] at hsecond hthird hfourth
    have hfour : sequenceLength b₁ = 4 := by
      have hle := (sequenceLength_eq_iff b₁).2.2.2.2
      omega
    have hcode : (((b₁.toNat % 8 * 64 + payload b₂) * 64 + payload b₃) * 64 +
        payload b₄).isValidChar := by
      rw [isSecond_iff, isContinuation_iff] at hsecond
      have hlead := (sequenceLength_eq_iff b₁).2.2.2.1.mp hfour
      rw [payload, payload, payload]
      exact .inr (by omega)
    exact encode_of_map_eq_ok
      (encodeChar_eq_four_iff.mpr
        ⟨hfour, hsecond, hthird, hfourth, toNat_ofNat_of_isValidChar hcode⟩) ih h
  | _ => cases h

/-- **What is encoded is decoded again**, wherever it stands. -/
theorem decodeFrom_encode (k : Nat) (t : Text) : decodeFrom k (encode t) = .ok t := by
  induction t generalizing k with
  | nil => rfl
  | cons c t ih =>
    rw [encode, List.flatMap_cons, decodeFrom_encodeChar_append, ← encode, ih]
    rfl

/-- **Bytes are decoded to a text if and only if they are the bytes of the text.** -/
theorem decode_eq_ok_iff : decode bs = .ok t ↔ encode t = bs := by
  refine ⟨encode_of_decodeFrom, ?_⟩
  rintro rfl
  exact decodeFrom_encode 0 t

end ZigNif.Utf8
