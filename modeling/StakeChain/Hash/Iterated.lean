/-
Iterated hashing with length padding.

A message is padded with one set bit, zeros, and its length in bits, up to
a whole number of blocks; a compression function then absorbs the blocks
in order. The functions of this family differ only in the state, in the
block and length widths, and in the order of bytes within a word.
-/
import StakeChain.Bytes

namespace StakeChain.Hash

/-- The parameters of one iterated hash. -/
structure Iterated (State : Type) where
  /-- Bytes in a block. -/
  blockWidth : Nat
  /-- Bytes of the length field that ends the last block. -/
  lengthWidth : Nat
  order : ByteOrder
  start : State
  compress : State → Bytes → State

namespace Iterated

variable {State : Type}

/-- The bytes appended to a message of `len` bytes: the marker bit, the fewest zeros that fill
a block, and the length in bits. -/
def padding (f : Iterated State) (len : Nat) : Bytes :=
  let used := (len + 1 + f.lengthWidth) % f.blockWidth
  let fill := if used = 0 then 0 else f.blockWidth - used
  0x80 :: (Bytes.zeros fill ++ Bytes.ofNat f.order f.lengthWidth (8 * len))

/-- Absorbs `count` blocks from the front of the bytes. -/
def absorb (f : Iterated State) : (count : Nat) → State → Bytes → State
  | 0, s, _ => s
  | count + 1, s, bs => absorb f count (f.compress s (bs.take f.blockWidth)) (bs.drop f.blockWidth)

/-- The state after a whole message and its padding. -/
def run (f : Iterated State) (message : Bytes) : State :=
  let padded := message ++ f.padding message.length
  f.absorb (padded.length / f.blockWidth) f.start padded

end Iterated

/-- The words of a byte string, `width` bytes each. -/
def wordsOf (order : ByteOrder) (width : Nat) : (count : Nat) → Bytes → List Nat
  | 0, _ => []
  | count + 1, bs =>
      Bytes.toNat order (bs.take width) :: wordsOf order width count (bs.drop width)

end StakeChain.Hash
