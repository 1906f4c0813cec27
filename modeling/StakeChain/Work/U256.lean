/-
Arithmetic on 256-bit numbers.

Targets and work are 256-bit words, and are calculated with as four words of
64 bits. Addition and subtraction wrap; the carry, products and quotients are
told apart from what was lost. Division is long division to base two, one bit
of the quotient at a time.
-/
import StakeChain.Bytes.Digest
import StakeChain.Work.Limbs

namespace StakeChain

/-- A 256-bit number. -/
abbrev U256 := BitVec 256

namespace U256

/-- The four words of a number. -/
def limbs (a : U256) : Limbs :=
  Limbs.ofNat 4 a.toNat

/-- The number in four words. -/
def ofLimbs (a : Limbs) : U256 :=
  BitVec.ofNat 256 (Limbs.toNat a)

theorem length_limbs (a : U256) : a.limbs.length = 4 := rfl

/-- The sum, and whether it was too large and wrapped. -/
def overflowingAdd (a b : U256) : U256 × Bool :=
  let sum := Limbs.add false a.limbs b.limbs
  (ofLimbs sum.1, sum.2)

/-- The sum, if it fits. -/
def checkedAdd (a b : U256) : Option U256 :=
  match overflowingAdd a b with
  | (sum, false) => some sum
  | (_, true) => none

/-- The product with a 64-bit factor, if it fits. -/
def checkedMul (a : U256) (factor : UInt64) : Option U256 :=
  let product := Limbs.mul factor 0 a.limbs
  if product.2 = 0 then some (ofLimbs product.1) else none

/-- Shifts to the left. What is shifted beyond the width is lost. -/
def shiftLeft (a : U256) (n : Nat) : U256 :=
  ofLimbs (Limbs.shiftLeft a.limbs n)

/-- Shifts to the right. -/
def shiftRight (a : U256) (n : Nat) : U256 :=
  ofLimbs (Limbs.shiftRight a.limbs n)

/-- The number of bits that are needed. -/
def bitLength (a : U256) : Nat :=
  Limbs.bitLength a.limbs

/-- The quotient rounded down, unless the divisor is zero. -/
def checkedDiv (a divisor : U256) : Option U256 :=
  (Limbs.divide a.limbs divisor.limbs).map ofLimbs

/-- The low 64 bits. -/
def low64 (a : U256) : UInt64 :=
  UInt64.ofNat a.toNat

/-- The number of a 64-bit number. -/
def ofUInt64 (n : UInt64) : U256 :=
  n.toBitVec.zeroExtend 256

/-- The order of the numbers. -/
def order (a b : U256) : Ordering :=
  Limbs.order a.limbs b.limbs

/-- The number written in a hash, least significant byte first. -/
def ofHash (h : Hash256) : U256 :=
  ofLimbs (Limbs.ofBytes 4 h.bytes)

/-- The hash that the number is written in. -/
def toHash (a : U256) : Hash256 :=
  ⟨Limbs.toBytes a.limbs, Limbs.length_toBytes a.limbs⟩

/-- The shown form: 64 digits to base sixteen. -/
def display (a : U256) : String :=
  Hex.encode (Bytes.ofNatBE 32 a.toNat)

end U256

end StakeChain
