/-!
# Number/Binary64 — double-precision numbers as data

A finite number is a sign, a mantissa below `2 ^ 53` and a power of two, so that equality is
decidable and every operation is integer arithmetic.  Reading a decimal rounds its exact value to
the nearest number, and a value halfway between two goes to the one with an even mantissa.
-/

namespace ZigNif

/-- A double-precision number.  `finite negative mantissa exponent` is `± mantissa · 2 ^ exponent`;
the mantissa is below `2 ^ 53`, the exponent at least `-1074`, and one of them is at its bound:
the mantissa at least `2 ^ 52`, or the exponent `-1074`. -/
inductive Binary64
  | nan
  | infinity (negative : Bool)
  | finite (negative : Bool) (mantissa : Nat) (exponent : Int)
  deriving DecidableEq, Repr

namespace Binary64

/-- Zero with a sign. -/
def zero (negative : Bool) : Binary64 := .finite negative 0 (-1074)

/-- Whether the number is zero of either sign. -/
def isZero : Binary64 → Bool
  | .finite _ 0 _ => true
  | _ => false

/-- The integer nearest to `num / den`, the even one of two. -/
def roundedQuotient (num den : Nat) : Nat :=
  let q := num / den
  let r := num % den
  if 2 * r > den ∨ (2 * r = den ∧ q % 2 = 1) then q + 1 else q

/-- `num / den · 2 ^ k` as a fraction. -/
def scaled (num den : Nat) (k : Int) : Nat × Nat :=
  if 0 ≤ k then (num * Nat.pow 2 k.toNat, den) else (num, den * Nat.pow 2 (-k).toNat)

/-- The number nearest to the positive fraction `num / den`. -/
def ofFraction (negative : Bool) (num den : Nat) : Binary64 :=
  let guess : Int := (Nat.log2 num : Int) - Nat.log2 den
  let (a, b) := scaled num den (-guess)
  let magnitude := if a < b then guess - 1 else guess
  let exponent := max (magnitude - 52) (-1074)
  let (a, b) := scaled num den (-exponent)
  let mantissa := roundedQuotient a b
  let (mantissa, exponent) :=
    if mantissa = Nat.pow 2 53 then (Nat.pow 2 52, exponent + 1) else (mantissa, exponent)
  if exponent > 971 then .infinity negative else .finite negative mantissa exponent

/-- The number nearest to `± digits · 10 ^ exponent`.  Decimals far outside the range are settled
by their magnitude alone. -/
def ofDecimal (negative : Bool) (digits : Nat) (exponent : Int) : Binary64 :=
  if digits = 0 then zero negative
  else
    let magnitude : Int := (Nat.toDigits 10 digits).length + exponent
    if magnitude > 310 then .infinity negative
    else if magnitude < -330 then zero negative
    else if 0 ≤ exponent then ofFraction negative (digits * Nat.pow 10 exponent.toNat) 1
    else ofFraction negative digits (Nat.pow 10 (-exponent).toNat)

example : ofDecimal false 1 0 = .finite false (Nat.pow 2 52) (-52) := by decide +kernel
example : ofDecimal true 5 (-324) = .finite true 1 (-1074) := by decide +kernel
example : ofDecimal false 18 308 = .infinity false := by decide +kernel

end Binary64

end ZigNif
