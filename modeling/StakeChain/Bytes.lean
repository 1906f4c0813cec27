/-
Byte strings and the integers written in them.

A byte string is a list of bytes. A natural number is written in a fixed
number of bytes, least or most significant byte first; the two readings
are Horner sums over the list, and reading what was written gives the
number back modulo `256 ^ width`.
-/

namespace StakeChain

/-- A byte string, first byte first. -/
abbrev Bytes := List UInt8

/-- Which end of a number is written first. -/
inductive ByteOrder where
  | little
  | big
deriving DecidableEq, Repr

namespace Bytes

/-- The `width` low base-256 digits of a number, least significant first. -/
def ofNatLE : (width : Nat) → Nat → Bytes
  | 0, _ => []
  | width + 1, n => UInt8.ofNat n :: ofNatLE width (n / 256)

/-- The `width` low base-256 digits of a number, most significant first. -/
def ofNatBE (width n : Nat) : Bytes :=
  (ofNatLE width n).reverse

/-- The number whose base-256 digits are the bytes, least significant first. -/
def toNatLE (bs : Bytes) : Nat :=
  bs.foldr (fun b acc => b.toNat + 256 * acc) 0

/-- The number whose base-256 digits are the bytes, most significant first. -/
def toNatBE (bs : Bytes) : Nat :=
  bs.foldl (fun acc b => 256 * acc + b.toNat) 0

/-- A number in `width` bytes of the given order. -/
def ofNat : ByteOrder → (width : Nat) → Nat → Bytes
  | .little, width, n => ofNatLE width n
  | .big, width, n => ofNatBE width n

/-- The number written in the bytes under the given order. -/
def toNat : ByteOrder → Bytes → Nat
  | .little, bs => toNatLE bs
  | .big, bs => toNatBE bs

/-- The first `n` bytes and the rest, when there are that many. -/
def splitExact (n : Nat) (bs : Bytes) : Option (Bytes × Bytes) :=
  let head := bs.take n
  if head.length = n then some (head, bs.drop n) else none

/-- Zero bytes. -/
def zeros (n : Nat) : Bytes :=
  List.replicate n 0

/-! ## Widths -/

@[simp] theorem length_ofNatLE (width n : Nat) : (ofNatLE width n).length = width := by
  induction width generalizing n with
  | zero => rfl
  | succ width ih => simp [ofNatLE, ih]

@[simp] theorem length_ofNatBE (width n : Nat) : (ofNatBE width n).length = width := by
  simp [ofNatBE]

@[simp] theorem length_ofNat (order : ByteOrder) (width n : Nat) :
    (ofNat order width n).length = width := by
  cases order <;> simp [ofNat]

end Bytes

end StakeChain
