/-
What is kept of a block for staking.

Beside the header of every block its kind is kept, and the modifier from
which later blocks draw. For a staked block the coin that staked is kept
too, with the hash that proved the stake.
-/
import StakeChain.Block
import StakeChain.Codec.CompactVarInt

namespace StakeChain

open Codec (Wire Read)

/-- The record of one block. -/
structure StakeRecord where
  /-- Three bits have a meaning; others are kept. -/
  flags : UInt32
  modifier : Hash256
  /-- The coin that staked, or the null place. -/
  prevout : OutPoint
  time : UInt32
  /-- The hash that proved the stake, or zero. -/
  proof : Hash256
deriving DecidableEq

namespace StakeRecord

/-- The bit of a staked block. -/
def stakedBit : UInt32 := 1

/-- The bit that the modifier takes its randomness from. -/
def entropyBit : UInt32 := 2

/-- The bit of a block that made a modifier of its own. -/
def modifierBit : UInt32 := 4

/-- The record that says nothing. -/
def empty : StakeRecord :=
  ⟨0, Digest.zero, OutPoint.null, 0, Digest.zero⟩

/-- Whether a bit is set. -/
def has (r : StakeRecord) (bit : UInt32) : Bool :=
  r.flags &&& bit == bit

/-- Sets or clears a bit. -/
def put (r : StakeRecord) (bit : UInt32) (value : Bool) : StakeRecord :=
  { r with flags := if value then r.flags ||| bit else r.flags &&& ~~~bit }

/-- Whether the block was staked. -/
def isProofOfStake (r : StakeRecord) : Bool :=
  r.has stakedBit

/-- The bit of randomness of the block. -/
def entropy (r : StakeRecord) : Bool :=
  r.has entropyBit

/-- Whether the block made a modifier. -/
def hasOwnModifier (r : StakeRecord) : Bool :=
  r.has modifierBit

/-- The record with another bit of randomness. -/
def withEntropy (r : StakeRecord) (value : Bool) : StakeRecord :=
  r.put entropyBit value

/-- The record with another modifier. -/
def withModifier (r : StakeRecord) (modifier : Hash256) (own : Bool) : StakeRecord :=
  { r with modifier := modifier }.put modifierBit own

/-- The record of a block as far as the block tells: its kind, and the coin that staked. -/
def ofBlock (b : Block) : StakeRecord :=
  match b.txs with
  | _ :: stake :: _ =>
      match stake.inputs with
      | input :: _ =>
          if stake.isCoinstake then
            { empty.put stakedBit true with prevout := input.prevout, time := b.header.time }
          else empty
      | [] => empty
  | _ => empty

/-- The bits are the low 32 of what is stored. -/
instance : Wire StakeRecord where
  write f r :=
    Codec.compactVarInt r.flags.toNat ++ Codec.write f r.modifier ++ Codec.write f r.prevout
      ++ Codec.write f r.time ++ Codec.write f r.proof
  read := do
    let flags ← Read.compactVarInt
    let modifier ← Codec.read
    let prevout ← Codec.read
    let time ← Codec.read
    let proof ← Codec.read
    pure ⟨UInt32.ofNat flags, modifier, prevout, time, proof⟩

end StakeRecord

end StakeChain
