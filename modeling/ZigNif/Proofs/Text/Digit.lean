import ZigNif.Text.Digit

/-!
# Proofs/Text/Digit — numerals that are written and read

The decimal numeral of a number consists of digits, and denotes the number.
-/

namespace ZigNif.Text

theorem toNat_of_isDigit {c : Char} (h : c.isDigit) : 0x30 ≤ c.toNat ∧ c.toNat < 0x30 + 10 := by
  simp only [Char.isDigit, Bool.and_eq_true, decide_eq_true_eq, ge_iff_le, UInt32.le_iff_toNat_le]
    at h
  exact ⟨h.1, Nat.lt_succ_of_le h.2⟩

/-- The digits of ASCII have the values that they are written for. -/
theorem digitValue?_of_isDigit {c : Char} (h : c.isDigit) :
    digitValue? c = some (c.toNat - '0'.toNat) := by
  have hc := toNat_of_isDigit h
  simp [digitValue?, digitZeros, hc]

theorem charIsDigit_of_mem_ofNat {n : Nat} {c : Char} (h : c ∈ ofNat n) : c.isDigit :=
  Nat.isDigit_of_mem_toDigits (by decide) (by decide) h

theorem isDigit_of_mem_ofNat {n : Nat} {c : Char} (h : c ∈ ofNat n) : isDigit c := by
  rw [isDigit, digitValue?_of_isDigit (charIsDigit_of_mem_ofNat h)]
  rfl

theorem ofNat_ne_nil {n : Nat} : ofNat n ≠ [] := Nat.toDigits_ne_nil

/-- No numeral of a natural number starts with a minus sign. -/
theorem ofNat_append_ne_minus (n : Nat) (r u : Text) : ofNat n ++ r ≠ '-' :: u := by
  obtain ⟨c, w, hw⟩ := List.exists_cons_of_ne_nil (ofNat_ne_nil (n := n))
  rw [hw, List.cons_append]
  intro h
  have hdigit : '-'.isDigit :=
    charIsDigit_of_mem_ofNat (n := n) (hw ▸ (List.cons.inj h).1 ▸ List.mem_cons_self)
  exact absurd hdigit (by decide)

/-- On digits of the ASCII block, numerals are read as the library reads them. -/
theorem foldl_digitValue? {t : Text} (h : ∀ c ∈ t, c.isDigit) (n : Nat) :
    t.foldl (fun n c => 10 * n + (digitValue? c).getD 0) n = Nat.ofDigitChars 10 t n := by
  induction t generalizing n with
  | nil => rfl
  | cons c t ih =>
    obtain ⟨hc, ht⟩ := List.forall_mem_cons.mp h
    rw [List.foldl_cons, digitValue?_of_isDigit hc, Option.getD_some, ih ht,
      Nat.ofDigitChars_cons]

/-- **A number is read as it is written.** -/
theorem readNat_ofNat (n : Nat) : readNat (ofNat n) = n := by
  rw [readNat, foldl_digitValue? fun c hc => charIsDigit_of_mem_ofNat hc]
  exact Nat.ofDigitChars_ten_toDigits

/-- A number has more digits than the powers of ten up to it. -/
theorem lt_length_ofNat {n k : Nat} (hk : 0 < k) (h : Nat.pow 10 k ≤ n) : k < (ofNat n).length :=
  Nat.lt_of_not_le fun hlen =>
    Nat.not_lt_of_le h ((Nat.length_toDigits_le_iff (by decide) hk).mp hlen)

/-- A numeral is read if it is not too long. -/
theorem numeral_eq_ok_iff {digits : Text} {n : Nat} :
    numeral digits = .ok n ↔ digits.length ≤ maxDigits ∧ n = readNat digits := by
  rw [numeral]
  split
  case isTrue h => simp [h, eq_comm]
  case isFalse h => simp [h]

/-- **The numeral of a number denotes it**, unless it is too long. -/
theorem numeral_ofNat (n : Nat) :
    numeral (ofNat n) =
      if (ofNat n).length ≤ maxDigits then .ok n else .error (.read (ofNat n).length) := by
  rw [numeral, readNat_ofNat]

end ZigNif.Text
