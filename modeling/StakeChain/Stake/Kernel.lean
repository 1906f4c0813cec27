/-
Stakes and their proof.

A coin stakes at a time when the hash of its kernel is not above the target
times the value of the coin. The kernel holds the modifier of the block
before, which is itself a hash over earlier kernels, so that nobody can
tell long before which coin may stake.
-/
import StakeChain.Coin
import StakeChain.Rejection
import StakeChain.Stake.Record
import StakeChain.Work.Compact

namespace StakeChain.Stake

/-- The bit of randomness of a block: the lowest one of its id. -/
def entropyOf (hash : Hash256) : Bool :=
  hash.toNat % 2 == 1

/-- Whether a time has no bit in common with the mask. -/
def onMask (time mask : UInt32) : Bool :=
  time &&& mask == 0

/-- The modifier of a block from the one before and its kernel: the hash of the coin that
staked, or its own hash if it was mined. The first block has zero. -/
def modifier (previous : Option StakeRecord) (kernel : Hash256) : Hash256 :=
  match previous with
  | none => Digest.zero
  | some r => hash256 (Codec.encode .ids kernel ++ Codec.encode .ids r.modifier)

/-- The hash of a kernel: modifier, time of the coin, its place, and the time of the block. -/
def kernelHash (modifier : Hash256) (coinTime : UInt32) (prevout : OutPoint)
    (blockTime : UInt32) : Hash256 :=
  hash256
    (Codec.encode .ids modifier ++ Codec.encode .ids coinTime ++ Codec.encode .ids prevout
      ++ Codec.encode .ids blockTime)

/-- The weight of a coin: its value, nothing if that is negative. -/
def weight (value : Int64) : UInt64 :=
  if value < 0 then 0 else value.toUInt64

/-- Whether a kernel meets the target times the weight. Every kernel meets a product too wide
for a hash. -/
def meets (kernel : Hash256) (target : U256) (weight : UInt64) : Bool :=
  match U256.checkedMul target weight with
  | some product => (U256.ofHash kernel).ule product
  | none => true

/-- The hash of the kernel of a coin, if the coin may stake at that time. -/
def checkKernel (previous : StakeRecord) (bits : UInt32) (coin : Coin) (prevout : OutPoint)
    (blockTime : UInt32) : Except ConsensusError Hash256 :=
  if blockTime < coin.time then .error .stakeTimeViolation
  else
    let kernel := kernelHash previous.modifier coin.time prevout blockTime
    if meets kernel (Compact.expand bits).value (weight coin.output.value) then .ok kernel
    else .error .stakeHashInvalidTarget

end StakeChain.Stake
