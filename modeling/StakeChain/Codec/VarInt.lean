/-
Lengths and counts on the wire.

Below 253 a number is one byte; above, a marker byte says whether two, four
or eight bytes follow, least significant first whatever the byte order in
force. Only the shortest form is read.
-/
import StakeChain.Codec.Stream

namespace StakeChain.Codec

/-- The shortest form of a number below `2 ^ 64`. -/
def varInt (n : Nat) : Bytes :=
  if n < 0xfd then [UInt8.ofNat n]
  else if n ≤ 0xffff then 0xfd :: Bytes.ofNatLE 2 n
  else if n ≤ 0xffffffff then 0xfe :: Bytes.ofNatLE 4 n
  else 0xff :: Bytes.ofNatLE 8 n

/-- The length of the shortest form. -/
def varIntLength (n : Nat) : Nat :=
  if n < 0xfd then 1 else if n ≤ 0xffff then 3 else if n ≤ 0xffffffff then 5 else 9

theorem length_varInt (n : Nat) : (varInt n).length = varIntLength n := by
  unfold varInt varIntLength
  split
  · rfl
  split
  · simp
  split <;> simp

/-- A number in the next `width` bytes, refused when a shorter form would do. -/
def Read.above (width least : Nat) : Read Nat := do
  let n ← Read.natLE width
  if n < least then throw .nonCanonicalVarInt else pure n

/-- A number in its shortest form. -/
def Read.varInt : Read Nat := do
  let marker ← Read.byte
  if marker = 0xfd then Read.above 2 0xfd
  else if marker = 0xfe then Read.above 4 0x10000
  else if marker = 0xff then Read.above 8 0x100000000
  else pure marker.toNat

/-- A length or count, refused above the limit. -/
def Read.size : Read Nat := do
  let n ← Read.varInt
  if n > maxSize then throw (.oversizedVector n) else pure n

/-- A byte string after its length. -/
def varBytes (bs : Bytes) : Bytes :=
  varInt bs.length ++ bs

/-- A byte string after its length. -/
def Read.varBytes : Read Bytes := do
  Read.bytes (← Read.size)

/-- A list after its count. -/
def writeList {α : Type} [Wire α] (f : Format) (items : List α) : Bytes :=
  varInt items.length ++ items.flatMap (write f)

/-- A list after its count. -/
def Read.list {α : Type} [Wire α] : Read (List α) := do
  Read.many read (← Read.size)

/-- A 64-bit number in the shortest form. -/
structure VarInt where
  value : UInt64
deriving DecidableEq, Repr

instance : Wire VarInt where
  write _ v := varInt v.value.toNat
  read := (VarInt.mk ∘ UInt64.ofNat) <$> Read.varInt

end StakeChain.Codec
