import ZigNif.Text.Basic

/-!
# Text/Utf8 — text as bytes

Encoding writes each character as one to four bytes.  Decoding accepts exactly the shortest forms
of scalar values; otherwise it says at which byte the first ill-formed sequence starts, how many
bytes belong to it, and what is wrong with it.
-/

namespace ZigNif.Utf8

/-- The bytes of a text. -/
def encode (t : Text) : List UInt8 := t.flatMap String.utf8EncodeChar

/-- What is wrong with an ill-formed sequence: no sequence starts with its first byte, a byte
that has to continue it does not, or the text ends inside it. -/
inductive Reason
  | startByte
  | continuationByte
  | endOfData
  deriving DecidableEq, Repr

/-- The first ill-formed sequence: the offset of its first byte, that byte, and its length. -/
structure Fault where
  offset : Nat
  lead : UInt8
  length : Nat
  reason : Reason
  deriving DecidableEq, Repr

namespace Fault

/-- The fault in words. -/
def message (f : Fault) : Text :=
  let place : Text :=
    if f.length = 1 then "byte 0x" ++ Text.hex 2 f.lead.toNat ++ " in position " ++ Text.ofNat f.offset
    else "bytes in position " ++ Text.ofNat f.offset ++ "-" ++ Text.ofNat (f.offset + f.length - 1)
  let reason : Text := match f.reason with
    | .startByte => "invalid start byte"
    | .continuationByte => "invalid continuation byte"
    | .endOfData => "unexpected end of data"
  "'utf-8' codec can't decode " ++ place ++ ": " ++ reason

end Fault

/-! ## Decoding -/

/-- How many bytes a sequence has that starts with `b`; none starts with a continuation byte, with
`C0` or `C1`, or above `F4`. -/
def sequenceLength (b : UInt8) : Nat :=
  if b < 0x80 then 1 else if b < 0xc2 then 0 else if b < 0xe0 then 2 else if b < 0xf0 then 3
  else if b < 0xf5 then 4 else 0

/-- Whether `b` continues a sequence. -/
def isContinuation (b : UInt8) : Bool := 0x80 ≤ b && b < 0xc0

/-- Whether `b` may follow `lead`: a continuation byte that leads neither to an overlong form, nor
to a surrogate, nor beyond the last code point. -/
def isSecond (lead b : UInt8) : Bool :=
  isContinuation b &&
  (lead != 0xe0 || 0xa0 ≤ b) && (lead != 0xed || b < 0xa0) &&
  (lead != 0xf0 || 0x90 ≤ b) && (lead != 0xf4 || b < 0x90)

/-- The low six bits of a continuation byte. -/
def payload (b : UInt8) : Nat := b.toNat % 64

/-- `decode` with the offset of the first byte. -/
def decodeFrom (offset : Nat) : List UInt8 → Except Fault Text
  | [] => .ok []
  | b₁ :: r₁ =>
    let fault (length : Nat) (reason : Reason) : Except Fault Text :=
      .error { offset, lead := b₁, length, reason }
    match sequenceLength b₁ with
    | 0 => fault 1 .startByte
    | 1 => (Char.ofNat b₁.toNat :: ·) <$> decodeFrom (offset + 1) r₁
    | n + 2 =>
      match r₁ with
      | [] => fault 1 .endOfData
      | b₂ :: r₂ =>
        if !isSecond b₁ b₂ then fault 1 .continuationByte
        else if n = 0 then
          (Char.ofNat (b₁.toNat % 32 * 64 + payload b₂) :: ·) <$> decodeFrom (offset + 2) r₂
        else match r₂ with
          | [] => fault 2 .endOfData
          | b₃ :: r₃ =>
            if !isContinuation b₃ then fault 2 .continuationByte
            else if n = 1 then
              (Char.ofNat ((b₁.toNat % 16 * 64 + payload b₂) * 64 + payload b₃) :: ·) <$>
                decodeFrom (offset + 3) r₃
            else match r₃ with
              | [] => fault 3 .endOfData
              | b₄ :: r₄ =>
                if !isContinuation b₄ then fault 3 .continuationByte
                else
                  (Char.ofNat (((b₁.toNat % 8 * 64 + payload b₂) * 64 + payload b₃) * 64
                    + payload b₄) :: ·) <$> decodeFrom (offset + 4) r₄

/-- The text that the bytes encode, or the first ill-formed sequence. -/
def decode (bytes : List UInt8) : Except Fault Text := decodeFrom 0 bytes

example : (decode (encode "aé名😀")).toOption = some "aé名😀".toList := by decide +kernel

example : (match decode [0x61, 0xc3, 0x28] with
    | .ok _ => none
    | .error fault => some fault) = some ⟨1, 0xc3, 1, .continuationByte⟩ := by decide +kernel

end ZigNif.Utf8
