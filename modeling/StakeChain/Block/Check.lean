/-
What is asked of a block by itself.

Sizes are in bytes on the wire without the signature of the block. A byte
outside of witnesses weighs more than one inside, by the factor of the
network.
-/
import StakeChain.Block
import StakeChain.Params
import StakeChain.Rejection
import StakeChain.Script.Number
import StakeChain.Tx.SigOps

namespace StakeChain.Block

/-! ## Sizes -/

/-- The size without witnesses. -/
def baseSize (b : Block) : Nat :=
  Codec.encodedSize Codec.Context.network.withoutWitness b

/-- The size with witnesses. -/
def totalSize (b : Block) : Nat :=
  Codec.encodedSize .network b

/-- The size in which bytes outside of witnesses count more. -/
def weight (b : Block) (p : Params) : Except Fault Nat := do
  let extra ← difference p.witnessScaleFactor.toNat 1
  let scaled ← fitWord 64 (b.baseSize * extra)
  fitWord 64 (scaled + b.totalSize)

/-- Checks that there are transactions, but not too many, and that they are not too long. -/
def checkSize (b : Block) (p : Params) : Verdict := do
  let scale := p.witnessScaleFactor.toNat
  let limit := p.maxBlockWeight.toNat
  Verdict.demand (!b.txs.isEmpty) .badBlockLength
  let count ← (fitWord 64 (b.txs.length * scale)).mapError .fault
  Verdict.demand (count ≤ limit) .badBlockLength
  let size ← (fitWord 64 (b.baseSize * scale)).mapError .fault
  Verdict.demand (size ≤ limit) .badBlockLength

/-- Checks the weight. -/
def checkWeight (b : Block) (p : Params) : Verdict := do
  let weight ← (b.weight p).mapError .fault
  Verdict.demand (weight ≤ p.maxBlockWeight.toNat) .badBlockWeight

/-! ## The coinbase -/

/-- Checks that the first transaction, and no other, is a coinbase. -/
def checkCoinbase (b : Block) : Verdict := do
  Verdict.demand (b.txs.head?.any Tx.isCoinbase) .badCoinbaseMissing
  Verdict.demand (!(b.txs.drop 1).any Tx.isCoinbase) .badMultipleCoinbase

/-- How the script of a coinbase has to start: with a push of the height. -/
def heightPush (height : Nat) : Script :=
  ⟨Script.pushInt height⟩

/-- Checks that the coinbase starts with the height. -/
def checkHeight (b : Block) (height : Nat) : Verdict :=
  match b.txs.head?.bind fun tx => tx.inputs.head? with
  | none => .error (.consensus .badCoinbaseMissing)
  | some input =>
      Verdict.demand ((heightPush height).bytes.isPrefixOf input.scriptSig.bytes)
        .badCoinbaseHeight

/-- The plain count of signature operations. -/
def legacySigOps (b : Block) : Nat :=
  (b.txs.map Tx.legacySigOps).foldr (· + ·) 0

/-! ## Rewards -/

/-- A sum kept within 64 bits with a sign: what is beyond an end becomes that end. -/
def saturatingAdd (a b : Int) : Int :=
  max Int64.minValue.toInt (min Int64.maxValue.toInt (a + b))

/-- Checks that the coinbase of a mined block pays no more than fees and reward. -/
def checkCoinbaseReward (b : Block) (fees reward : Int) : Verdict :=
  match b.txs.head?.bind Tx.totalOut? with
  | none => .error (.consensus .badCoinbaseAmount)
  | some paid => Verdict.demand (paid ≤ saturatingAdd fees reward) .badCoinbaseAmount

/-- Checks that a coinstake creates no more than fees and reward. -/
def checkCoinstakeReward (minted fees reward : Int) : Verdict :=
  Verdict.demand (minted ≤ saturatingAdd fees reward) .badCoinstakeAmount

end StakeChain.Block
