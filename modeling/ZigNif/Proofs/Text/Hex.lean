import Mathlib.Data.List.Basic
import ZigNif.Json.Token
import ZigNif.Json.Writer

/-!
# Proofs/Text/Hex — hexadecimal numerals that are written and read

The hexadecimal numeral of a number denotes the number, however many zeros fill it up; a code unit
is written with exactly four digits.
-/

namespace ZigNif

namespace Text

variable {d n : Nat} {c : Char} {t : Text}

/-- A digit has the value that it is written for. -/
theorem hexValue?_digitChar (h : d < 16) : hexValue? d.digitChar = some d := by
  revert d
  decide

/-- Another digit counts once, and all before it sixteen times as much. -/
theorem hexNumeral?_append_singleton (t : Text) (c : Char) : hexNumeral? (t ++ [c]) =
    (hexNumeral? t).bind fun n => (hexValue? c).map (16 * n + ·) := by
  rw [hexNumeral?, List.foldlM_append]
  refine Option.bind_congr fun n _ => ?_
  exact bind_pure _

theorem hexNumeral?_toDigits (n : Nat) : hexNumeral? (Nat.toDigits 16 n) = some n := by
  induction n using Nat.strongRecOn with
  | ind n ih =>
    rw [Nat.toDigits_eq_if (by decide)]
    split
    case isTrue h =>
      have hnil : hexNumeral? [] = some 0 := rfl
      rw [← List.nil_append [_], hexNumeral?_append_singleton, hnil, hexValue?_digitChar h]
      exact congrArg some (Nat.zero_add n)
    case isFalse h =>
      have hdigit : hexValue? (n % 16).digitChar = some (n % 16) :=
        hexValue?_digitChar (Nat.mod_lt n (by decide))
      rw [hexNumeral?_append_singleton, ih (n / 16) (by omega), hdigit]
      exact congrArg some (Nat.div_add_mod n 16)

/-- Zeros in front add nothing. -/
theorem hexNumeral?_replicate_append (k : Nat) (t : Text) :
    hexNumeral? (List.replicate k '0' ++ t) = hexNumeral? t := by
  induction k with
  | zero => rfl
  | succ k ih => exact ih

/-- **A number is read as it is written**, whatever it is padded to. -/
theorem hexNumeral?_hex (width n : Nat) : hexNumeral? (hex width n) = some n :=
  (hexNumeral?_replicate_append _ _).trans (hexNumeral?_toDigits n)

/-- Every character of a hexadecimal numeral is a digit. -/
theorem exists_of_mem_toDigits (h : c ∈ Nat.toDigits 16 n) : ∃ d < 16, c = d.digitChar := by
  induction n using Nat.strongRecOn with
  | ind n ih =>
    rw [Nat.toDigits_eq_if (by decide)] at h
    split at h
    case isTrue hn => exact ⟨n, hn, List.mem_singleton.mp h⟩
    case isFalse =>
      rcases List.mem_append.mp h with h | h
      · exact ih (n / 16) (by omega) h
      · exact ⟨n % 16, Nat.mod_lt n (by decide), List.mem_singleton.mp h⟩

theorem exists_of_mem_hex {width : Nat} (h : c ∈ hex width n) : ∃ d < 16, c = d.digitChar := by
  rcases List.mem_append.mp h with h | h
  · exact ⟨0, by decide, List.eq_of_mem_replicate h⟩
  · exact exists_of_mem_toDigits h

/-- A number that fits is padded to the width. -/
theorem length_hex {width : Nat} (h : (Nat.toDigits 16 n).length ≤ width) :
    (hex width n).length = width := by
  rw [hex, List.length_append, List.length_replicate, Nat.sub_add_cancel h]

end Text

namespace Json

/-- **The escape of a code unit is read as the code unit.** -/
theorem exists_unitEscape_eq {n : Nat} (h : n < 0x10000) :
    ∃ a b c d, unitEscape n = ['\\', 'u', a, b, c, d] ∧ hex4? a b c d = some n := by
  have hle : (Nat.toDigits 16 n).length ≤ 4 :=
    (Nat.length_toDigits_le_iff (by decide) (by decide)).mpr h
  obtain ⟨a, b, c, d, hdigits⟩ := List.length_eq_four.mp (Text.length_hex hle)
  refine ⟨a, b, c, d, ?_, ?_⟩
  · rw [unitEscape, hdigits]
    rfl
  · rw [hex4?, ← hdigits, Text.hexNumeral?_hex]

end Json

end ZigNif
