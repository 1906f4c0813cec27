/-
Hexadecimal text of byte strings.

Two digits a byte, lower case when written, either case when read. A text
of odd length is refused before any digit is looked at; otherwise the first
character that is no digit is named by the byte offset where it stands.
-/
import StakeChain.Bytes

namespace StakeChain.Hex

/-- Why a text is no hexadecimal form of the bytes asked for. -/
inductive Error where
  /-- The text has an odd number of bytes. -/
  | oddLength
  /-- The byte at this offset is no digit. -/
  | invalidCharacter (byte : UInt8) (position : Nat)
  /-- The text is well formed, but holds some other number of bytes than asked. -/
  | wrongSize (expected : Nat)
deriving DecidableEq, Repr

/-- The lower-case digit of a value below sixteen. -/
def digit (n : Nat) : Char :=
  Char.ofNat (if n < 10 then n + 0x30 else n + 0x57)

/-- The value of a digit, given as its ASCII byte. -/
def digitValue (b : UInt8) : Option UInt8 :=
  if 0x30 ≤ b ∧ b ≤ 0x39 then some (b - 0x30)
  else if 0x61 ≤ b ∧ b ≤ 0x66 then some (b - 0x57)
  else if 0x41 ≤ b ∧ b ≤ 0x46 then some (b - 0x37)
  else none

/-- The two digits of a byte. -/
def digitsOfByte (b : UInt8) : List Char :=
  [digit (b.toNat / 16), digit (b.toNat % 16)]

/-- The hexadecimal text of a byte string. -/
def encode (bs : Bytes) : String :=
  String.ofList (bs.flatMap digitsOfByte)

/-- Digit pairs read from an even number of bytes; `position` is the offset of the first. -/
def decodePairs (position : Nat) (acc : Bytes) : Bytes → Except Error Bytes
  | hi :: lo :: rest =>
      match digitValue hi, digitValue lo with
      | none, _ => .error (.invalidCharacter hi position)
      | some _, none => .error (.invalidCharacter lo (position + 1))
      | some h, some l => decodePairs (position + 2) ((h * 16 + l) :: acc) rest
  | _ => .ok acc.reverse

/-- The bytes a hexadecimal text stands for. -/
def decode (text : String) : Except Error Bytes :=
  let bytes := text.toUTF8.toList
  if bytes.length % 2 = 1 then .error .oddLength else decodePairs 0 [] bytes

/-- Digits of a number to base sixteen, without leading zeros. -/
def ofNat (n : Nat) : String :=
  String.ofList (Nat.toDigits 16 n)

/-- A byte shown as the Latin-1 character of its value, between quotes. Characters that would
not show, the quote and the backslash are written as escapes. -/
def quoteLatin (b : UInt8) : String :=
  let body :=
    if b = 0 then "\\0"
    else if b = 9 then "\\t"
    else if b = 10 then "\\n"
    else if b = 13 then "\\r"
    else if b = 39 then "\\'"
    else if b = 92 then "\\\\"
    else if b < 0x20 ∨ (0x7f ≤ b ∧ b ≤ 0xa0) ∨ b = 0xad then "\\u\x7b" ++ ofNat b.toNat ++ "\x7d"
    else String.singleton (Char.ofNat b.toNat)
  "'" ++ body ++ "'"

namespace Error

/-- What is said of a refused text. -/
def message : Error → String
  | oddLength => "Odd number of digits"
  | invalidCharacter b position =>
      "Invalid character " ++ quoteLatin b ++ " at position " ++ toString position
  | wrongSize expected => "expected " ++ toString expected ++ " bytes"

end Error

end StakeChain.Hex
