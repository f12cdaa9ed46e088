import ZigNif.Text.Basic

/-!
# Text/Digit — decimal digits of every script

The Unicode decimal digits come in blocks of ten, zero to nine in order, so the list of the zeros
is the whole table.  A numeral is a run of digits, and it may not be longer than `maxDigits`.
-/

namespace ZigNif.Text

/-- The code points of the digits zero. -/
def digitZeros : List Nat :=
  [0x30, 0x660, 0x6f0, 0x7c0, 0x966, 0x9e6, 0xa66, 0xae6, 0xb66, 0xbe6, 0xc66, 0xce6, 0xd66,
    0xde6, 0xe50, 0xed0, 0xf20, 0x1040, 0x1090, 0x17e0, 0x1810, 0x1946, 0x19d0, 0x1a80, 0x1a90,
    0x1b50, 0x1bb0, 0x1c40, 0x1c50, 0xa620, 0xa8d0, 0xa900, 0xa9d0, 0xa9f0, 0xaa50, 0xabf0,
    0xff10, 0x104a0, 0x10d30, 0x11066, 0x110f0, 0x11136, 0x111d0, 0x112f0, 0x11450, 0x114d0,
    0x11650, 0x116c0, 0x11730, 0x118e0, 0x11950, 0x11c50, 0x11d50, 0x11da0, 0x16a60, 0x16ac0,
    0x16b50, 0x1d7ce, 0x1d7d8, 0x1d7e2, 0x1d7ec, 0x1d7f6, 0x1e140, 0x1e2f0, 0x1e950, 0x1fbf0]

/-- The value of a decimal digit of any script. -/
def digitValue? (c : Char) : Option Nat :=
  (digitZeros.find? fun z => z ≤ c.toNat && c.toNat < z + 10).map (c.toNat - ·)

/-- Whether the character is a decimal digit of some script. -/
def isDigit (c : Char) : Bool := (digitValue? c).isSome

/-- The number that a run of decimal digits denotes, most significant first. -/
def readNat (t : Text) : Nat := t.foldl (fun n c => 10 * n + (digitValue? c).getD 0) 0

/-! ## Numerals -/

/-- The most digits that a numeral may have. -/
def maxDigits : Nat := 4300

/-- A numeral with too many digits: one that is read, and so many, or one that would be written. -/
inductive LongNumeral
  | read (length : Nat)
  | written
  deriving DecidableEq, Repr

/-- What is wrong with the numeral, in words. -/
def LongNumeral.message (n : LongNumeral) : Text :=
  let found : Text := match n with
    | read length => ": value has " ++ ofNat length ++ " digits"
    | written => []
  "Exceeds the limit (" ++ ofNat maxDigits ++ " digits) for integer string conversion" ++ found ++
    "; use sys.set_int_max_str_digits() to increase the limit"

/-- The number that a run of digits denotes, unless the run is too long. -/
def numeral (digits : Text) : Except LongNumeral Nat :=
  if digits.length ≤ maxDigits then .ok (readNat digits) else .error (.read digits.length)

/-- Whether the numeral of a number is short enough; a sign does not count. -/
def isWritable (n : Int) : Bool := (ofNat n.natAbs).length ≤ maxDigits

example : digitZeros.length = 66 := rfl
example : readNat "٤２7" = 427 := by decide

end ZigNif.Text
