/-
Script numbers and truth.

A number is its magnitude, least significant byte first, with the sign in
the top bit of the last byte. The shortest form of zero is the empty byte
string. A stack item is true unless all its bytes are zero, where a lone
sign bit at the end counts as zero.
-/
import StakeChain.Script

namespace StakeChain.ScriptNumber

/-- The base-256 digits of a number, least significant first, without leading zeros. -/
def magnitude (n : Nat) : Bytes :=
  if n = 0 then [] else UInt8.ofNat n :: magnitude (n / 256)
termination_by n

/-- Puts the sign on a magnitude, in a byte of its own when the top bit is taken. -/
def signed (negative : Bool) : Bytes → Bytes
  | [] => []
  | [b] =>
      if b ≥ 0x80 then [b, if negative then 0x80 else 0]
      else [if negative then b ||| 0x80 else b]
  | b :: c :: rest => b :: signed negative (c :: rest)

/-- The shortest form of a number. -/
def encode (n : Int) : Bytes :=
  signed (n < 0) (magnitude n.natAbs)

/-- Whether no shorter byte string stands for the same number: the last byte holds more than a
sign, or the one before it needs all its bits. -/
def isMinimal (bs : Bytes) : Bool :=
  match bs.reverse with
  | [] => true
  | last :: rest =>
      last &&& 0x7f != 0 ||
        match rest with
        | previous :: _ => previous &&& 0x80 != 0
        | [] => false

/-- The number a byte string stands for. -/
def value (bs : Bytes) : Int :=
  match bs.getLast? with
  | none => 0
  | some last =>
      let n := Bytes.toNatLE bs
      let signBit := 0x80 * Nat.pow 256 (bs.length - 1)
      if last ≥ 0x80 then -((n - signBit : Nat) : Int) else n

/-- Reads an operand of at most `maxLength` bytes, in shortest form when that is asked for. -/
def decode (bs : Bytes) (minimal : Bool) (maxLength : Nat) : Option Int :=
  if bs.length > maxLength then none
  else if minimal && !isMinimal bs then none
  else some (value bs)

/-- Whether a stack item is true. -/
def isTrue : Bytes → Bool
  | [] => false
  | b :: rest => if b ≠ 0 then !(rest.isEmpty && b == 0x80) else isTrue rest

/-- The form of a truth value on the stack. -/
def ofBool (b : Bool) : Bytes :=
  if b then [1] else []

end StakeChain.ScriptNumber

namespace StakeChain.Script

/-- The shortest operation that pushes a number. -/
def pushInt (n : Int) : Bytes :=
  if n = 0 then [Opcode.op0]
  else if n = -1 then [Opcode.negative1]
  else if 1 ≤ n ∧ n ≤ 16 then [Opcode.ofSmallInt n.toNat]
  else pushData (ScriptNumber.encode n)

end StakeChain.Script
