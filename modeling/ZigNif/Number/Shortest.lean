import ZigNif.Number.Binary64
import ZigNif.Text.Basic

/-!
# Number/Shortest — the shortest decimal that reads back

A finite number is written with the fewest decimal digits whose value rounds to it; of two such
decimals the nearer is taken, and of two equally near ones the even.  On the grid of multiples of
`10 ^ k` only the two neighbours of the value have to be tried.
-/

namespace ZigNif

/-- A decimal `digits · 10 ^ exponent`. -/
structure Decimal where
  digits : Nat
  exponent : Int
  deriving DecidableEq, Repr

namespace Binary64

/-- The values that round to a number, times `den`: `value` itself and the bounds around it, which
belong to them if `closed`. -/
structure Basin where
  low : Nat
  value : Nat
  high : Nat
  den : Nat
  closed : Bool

/-- The values that round to `mantissa · 2 ^ exponent`: halfway to the neighbours on either side.
The lower neighbour is half as far away where the exponent changes. -/
def basin (mantissa : Nat) (exponent : Int) : Basin :=
  let below := if mantissa = Nat.pow 2 52 ∧ exponent > -1074 then 1 else 2
  let num := if exponent ≥ 2 then Nat.pow 2 (exponent - 2).toNat else 1
  let den := if exponent ≥ 2 then 1 else Nat.pow 2 (2 - exponent).toNat
  { low := (4 * mantissa - below) * num
    value := 4 * mantissa * num
    high := (4 * mantissa + 2) * num
    den := den
    closed := mantissa % 2 = 0 }

/-- The position of the leading decimal digit of the positive fraction `num / den`. -/
def leadingPosition (num den : Nat) : Int :=
  if den ≤ num then (Nat.toDigits 10 (num / den)).length - 1
  else
    let places := (Nat.toDigits 10 (den / num)).length
    if num * Nat.pow 10 (places - 1) ≥ den then 1 - (places : Int) else -(places : Int)

/-- The decimal on the grid of multiples of `10 ^ k` that reads back, if there is one. -/
def Basin.onGrid? (b : Basin) (k : Int) : Option Decimal :=
  -- everything times `10 ^ -k`, so that the grid is that of the multiples of `unit`
  let up := if 0 ≤ k then 1 else Nat.pow 10 (-k).toNat
  let unit := b.den * if 0 ≤ k then Nat.pow 10 k.toNat else 1
  let low := b.low * up
  let value := b.value * up
  let high := b.high * up
  let floor := value / unit
  let floorHits := low < floor * unit ∨ (b.closed ∧ low = floor * unit)
  let ceilHits := (floor + 1) * unit < high ∨ (b.closed ∧ (floor + 1) * unit = high)
  let rest := value % unit
  if floorHits ∧ (¬ ceilHits ∨ 2 * rest < unit ∨ (2 * rest = unit ∧ floor % 2 = 0)) then
    some ⟨floor, k⟩
  else if ceilHits then some ⟨floor + 1, k⟩
  else none

/-- The shortest decimal that reads back as the positive number `mantissa · 2 ^ exponent`;
seventeen digits always do. -/
def shortest (mantissa : Nat) (exponent : Int) : Decimal :=
  let b := basin mantissa exponent
  let top := leadingPosition b.value b.den
  ((List.range 17).findSome? fun (n : Nat) => b.onGrid? (top - n)).getD ⟨b.value / b.den, 0⟩

/-! ## The text of a number -/

/-- The digits without trailing zeros, and the position of the decimal point from their start. -/
def pointed (d : Decimal) : Text × Int :=
  let all := Text.ofNat d.digits
  (Text.dropEndWhile (· = '0') all, all.length + d.exponent)

/-- Digits with a decimal point after the first `point` of them.  The point stays among the digits,
with zeros filled in, from four places before them to sixteen places after their start; a number
of any other size is written with a power of ten of at least two digits. -/
def placed (digits : Text) (point : Int) : Text :=
  if -4 < point ∧ point ≤ 0 then "0." ++ List.replicate (-point).toNat '0' ++ digits
  else if 0 < point ∧ point ≤ 16 then
    let whole := digits.take point.toNat
    let fraction := digits.drop point.toNat
    whole ++ List.replicate (point.toNat - whole.length) '0' ++ "." ++
      (if fraction = [] then ['0'] else fraction)
  else
    let power := point - 1
    let size := Text.ofNat power.natAbs
    digits.take 1 ++ (if digits.length = 1 then [] else '.' :: digits.drop 1) ++
      "e" ++ (if power < 0 then "-" else "+") ++
      List.replicate (2 - size.length) '0' ++ size

/-- The unsigned text of a finite number. -/
def magnitudeText (mantissa : Nat) (exponent : Int) : Text :=
  if mantissa = 0 then "0.0"
  else
    let (digits, point) := pointed (shortest mantissa exponent)
    placed digits point

/-- The sign in front of a number. -/
def signText (negative : Bool) : Text := if negative then ['-'] else []

/-- The text of a number, given the words for infinity and for no number. -/
def text (infinity nan : Text) : Binary64 → Text
  | .nan => nan
  | .infinity negative => signText negative ++ infinity
  | .finite negative mantissa exponent => signText negative ++ magnitudeText mantissa exponent

example : text [] [] (ofDecimal false 5 (-324)) = "5e-324" := by decide +kernel
example : text [] [] (ofDecimal true 1 16) = "-1e+16" := by decide +kernel
example : text [] [] (ofDecimal false 56294995342131225 (-2)) = "562949953421312.2" := by
  decide +kernel

end Binary64

end ZigNif
