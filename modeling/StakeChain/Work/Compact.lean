/-
Targets in compact form.

A header has 32 bits for its target: a length in bytes, a sign, and the
three leading bytes. A form may stand for a negative number or for one too
wide; both are told, since neither is a target.
-/
import StakeChain.Work.U256

namespace StakeChain.Compact

/-- What a compact form stands for. -/
structure Expansion where
  /-- The number without its sign; where it is too wide, its low bits. -/
  value : U256
  negative : Bool
  overflow : Bool
deriving DecidableEq

/-- The length in bytes. -/
def exponent (bits : UInt32) : Nat :=
  bits.toNat / 0x1000000

/-- The leading bytes, without the sign. -/
def mantissa (bits : UInt32) : Nat :=
  bits.toNat % 0x800000

/-- Whether the sign is set. -/
def signed (bits : UInt32) : Bool :=
  bits.toNat.testBit 23

/-- The leading bytes of the number: those that a length below three cuts off are gone. -/
def leading (bits : UInt32) : Nat :=
  mantissa bits >>> (8 * (3 - exponent bits))

/-- Expands a compact form. -/
def expand (bits : UInt32) : Expansion :=
  let size := exponent bits
  let word := leading bits
  { value := BitVec.ofNat 256 word <<< (8 * (size - 3))
    negative := word != 0 && signed bits
    overflow :=
      word != 0 && (decide (size > 34) || decide (word > 0xff ∧ size > 33)
        || decide (word > 0xffff ∧ size > 32)) }

/-- The three leading bytes of a number that is `size` bytes long. -/
def leadingOf (value : U256) (size : Nat) : Nat :=
  if size ≤ 3 then value.toNat <<< (8 * (3 - size)) else value.toNat >>> (8 * (size - 3))

/-- The compact form of a number. Where the bit of the sign would be set, the leading bytes
move down by one byte. -/
def ofValue (value : U256) : UInt32 :=
  let size := (U256.bitLength value + 7) / 8
  let word := leadingOf value size
  if word.testBit 23 then UInt32.ofNat (word / 256 + (size + 1) * 0x1000000)
  else UInt32.ofNat (word + size * 0x1000000)

/-- The target of a compact form, if it stands for one: neither negative, nor zero, nor too
wide. -/
def target? (bits : UInt32) : Option U256 :=
  let e := expand bits
  if e.negative || e.overflow || e.value == 0 then none else some e.value

end StakeChain.Compact
