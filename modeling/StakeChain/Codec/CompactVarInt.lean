/-
Base-128 integers of the disk records.

The most significant group of seven bits comes first, every byte but the
last has its top bit set, and every group but the last is stored less one.
So each 64-bit number has exactly one form, of at most ten bytes.
-/
import StakeChain.Codec.Stream

namespace StakeChain.Codec

/-- The continuation bytes of a number, in front of bytes already written. -/
def compactOnto (n : Nat) (acc : Bytes) : Bytes :=
  if n < 128 then UInt8.ofNat (n + 128) :: acc
  else compactOnto (n / 128 - 1) (UInt8.ofNat (n % 128 + 128) :: acc)
termination_by n

/-- The form of a number. -/
def compactVarInt (n : Nat) : Bytes :=
  if n < 128 then [UInt8.ofNat n]
  else compactOnto (n / 128 - 1) [UInt8.ofNat (n % 128)]

/-- The largest 64-bit number. -/
def maxUInt64 : Nat := 0xffffffffffffffff

/-- Reads groups onto a number already read; the bytes left bound the number of groups. -/
def Read.compactOnto : (fuel : Nat) → Nat → Read Nat
  | 0, _ => throw .endOfStream
  | fuel + 1, n => do
      let b ← Read.byte
      if n > maxUInt64 / 128 then throw .compactVarIntOverflow
      else
        let n := n * 128 + b.toNat % 128
        if b.toNat < 128 then pure n
        else if n = maxUInt64 then throw .compactVarIntOverflow
        else compactOnto fuel (n + 1)

/-- A number in base-128 form. After ten groups the number is complete or too large, so the
bound of eleven is never met. -/
def Read.compactVarInt : Read Nat :=
  Read.compactOnto 11 0

/-- A 64-bit number in base-128 form. -/
structure CompactVarInt where
  value : UInt64
deriving DecidableEq, Repr

instance : Wire CompactVarInt where
  write _ v := compactVarInt v.value.toNat
  read := (CompactVarInt.mk ∘ UInt64.ofNat) <$> Read.compactVarInt

end StakeChain.Codec
