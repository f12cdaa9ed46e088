import ZigNif.Json.Token
import ZigNif.Proofs.Text.Digit
import ZigNif.Proofs.Text.Items

/-!
# Proofs/Json/Numbers — number literals that are read

A number literal is a whole part, perhaps a fraction behind a point, and perhaps a power of ten
behind the letter for it.  The numeral of a whole number is a whole part, and is read up to its end
where what follows can be no part of a number.
-/

namespace ZigNif.Json

variable {d w r : Text} {n : Nat}

/-! ## Digits -/

/-- The text is a run of digits. -/
def IsDigits (t : Text) : Prop := t ≠ [] ∧ ∀ c ∈ t, isAsciiDigit c

/-- The text does not start with a digit. -/
def NoDigit (r : Text) : Prop := ∀ c ∈ r.head?, isAsciiDigit c = false

theorem takeWhile_digits (hd : ∀ c ∈ d, isAsciiDigit c) (hr : NoDigit r) :
    (d ++ r).takeWhile isAsciiDigit = d ∧ (d ++ r).dropWhile isAsciiDigit = r := by
  rw [List.takeWhile_append_of_pos hd, List.dropWhile_append_of_pos hd]
  cases r with
  | nil => exact ⟨List.append_nil d, rfl⟩
  | cons c r =>
    have hc := hr c rfl
    simp [hc]

theorem digitsValue_eq (t : Text) : digitsValue t = Nat.ofDigitChars 10 t 0 := by
  have hfold : ∀ (t : Text) n, t.foldl (fun n c => 10 * n + (c.toNat - '0'.toNat)) n =
      Nat.ofDigitChars 10 t n := by
    intro t
    induction t with
    | nil => exact fun _ => rfl
    | cons c t ih => exact fun n => by rw [List.foldl_cons, Nat.ofDigitChars_cons, ih]
  exact hfold t 0

theorem digitsValue_ofNat (n : Nat) : digitsValue (Text.ofNat n) = n := by
  rw [digitsValue_eq]
  exact Nat.ofDigitChars_ten_toDigits

/-! ## Parts of a literal -/

/-- The digits of a whole part: a zero alone, or digits that start with another one. -/
structure IsWhole (w : Text) : Prop where
  digits : IsDigits w
  zero : w.head? = some '0' → w = ['0']

theorem wholePart_append (hw : IsWhole w) (hr : NoDigit r) : wholePart (w ++ r) = (w, r) := by
  obtain ⟨c, u, rfl⟩ := List.exists_cons_of_ne_nil hw.digits.1
  rw [wholePart]
  split
  case isTrue h =>
    obtain rfl := Option.some.inj h
    obtain rfl := (List.cons.inj (hw.zero rfl)).2
    rfl
  case isFalse => rw [(takeWhile_digits hw.digits.2 hr).1, (takeWhile_digits hw.digits.2 hr).2]

theorem fractionPart_of_ne (h : r.head? ≠ some '.') : fractionPart r = ([], r) := by
  unfold fractionPart
  split
  case h_1 => exact absurd rfl h
  case h_2 => rfl

theorem powerPart_of_ne (h : ∀ c ∈ r.head?, c ≠ 'e' ∧ c ≠ 'E') : powerPart r = (none, r) := by
  cases r with
  | nil => rfl
  | cons c r =>
    have hc := h c rfl
    rw [powerPart]
    simp [hc]

/-! ## Whole numbers -/

/-- Only the numeral of zero starts with a zero. -/
theorem eq_zero_of_head?_ofNat (h : (Text.ofNat n).head? = some '0') : n = 0 := by
  induction n using Nat.strongRecOn with
  | ind n ih =>
    rw [Text.ofNat, Nat.toDigits_eq_if (by decide)] at h
    split at h
    case isTrue hn =>
      have hdigit : ∀ d < 10, d.digitChar = '0' → d = 0 := by decide
      exact hdigit n hn (Option.some.inj h)
    case isFalse hn =>
      rw [List.head?_append, List.head?_eq_some_head Nat.toDigits_ne_nil, Option.some_or,
        ← List.head?_eq_some_head] at h
      have htens := ih (n / 10) (by omega) h
      omega

theorem isWhole_ofNat (n : Nat) : IsWhole (Text.ofNat n) where
  digits := ⟨Text.ofNat_ne_nil, fun _ hc => Text.charIsDigit_of_mem_ofNat hc⟩
  zero h := by
    obtain rfl := eq_zero_of_head?_ofNat h
    rfl

/-- What stands behind an item goes on with no number. -/
theorem noDigit_of_ends (hr : Text.Ends r) : NoDigit r := by
  have hall : ∀ c ∈ Text.endMarks, isAsciiDigit c = false := by decide
  exact fun c hc => hall c (hr c hc)

theorem readUnsigned?_ofNat (negative : Bool) (n : Nat) (hr : Text.Ends r) :
    readUnsigned? negative (Text.ofNat n ++ r) =
      some ({ negative, whole := Text.ofNat n, fraction := [], power := none }, r) := by
  have hmark : ∀ c ∈ Text.endMarks, c ≠ '.' ∧ c ≠ 'e' ∧ c ≠ 'E' := by decide
  have hpoint : r.head? ≠ some '.' := fun h => (hmark '.' (hr '.' h)).1 rfl
  have hpower : powerPart r = (none, r) := powerPart_of_ne fun c hc => (hmark c (hr c hc)).2
  simp only [readUnsigned?, wholePart_append (isWhole_ofNat n) (noDigit_of_ends hr),
    fractionPart_of_ne hpoint, hpower, if_neg Text.ofNat_ne_nil]

/-- The literal for a whole number. -/
def intNumeral : Int → Numeral
  | .ofNat n => { negative := false, whole := Text.ofNat n, fraction := [], power := none }
  | .negSucc n => { negative := true, whole := Text.ofNat (n + 1), fraction := [], power := none }

theorem lexeme_intNumeral {n : Int} (h : Text.isWritable n) :
    (intNumeral n).lexeme = .value (.int n) := by
  have hshort : (Text.ofNat n.natAbs).length ≤ Text.maxDigits := of_decide_eq_true h
  cases n with
  | ofNat n =>
    rw [Numeral.lexeme, if_pos ⟨rfl, rfl⟩]
    exact (if_pos hshort).trans (by rw [intNumeral, digitsValue_ofNat]; rfl)
  | negSucc n =>
    rw [Numeral.lexeme, if_pos ⟨rfl, rfl⟩]
    exact (if_pos hshort).trans (by rw [intNumeral, digitsValue_ofNat]; rfl)

/-- **The numeral of a whole number is read**, whatever follows the item that it is. -/
theorem readNumeral?_ofInt (n : Int) (hr : Text.Ends r) :
    readNumeral? (Text.ofInt n ++ r) = some (intNumeral n, r) := by
  cases n with
  | ofNat n =>
    have hminus : ∀ u, Text.ofNat n ++ r ≠ '-' :: u := Text.ofNat_append_ne_minus n r
    exact (readNumeral?.eq_2 _ hminus).trans (readUnsigned?_ofNat false n hr)
  | negSucc n =>
    exact (readNumeral?.eq_1 (Text.ofNat (n + 1) ++ r)).trans (readUnsigned?_ofNat true (n + 1) hr)

end ZigNif.Json
