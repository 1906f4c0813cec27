/-
Rules of networks with staking.
-/
import StakeChain.Block.Check
import StakeChain.Merkle.Commitment
import StakeChain.Stake.Kernel
import StakeChain.Stake.Signature
import StakeChain.Validation.Candidate

namespace StakeChain.StakeRule

/-- The parameters of staking. -/
def params (c : Candidate) : Except Rejection StakeParams :=
  match c.params.stake with
  | some s => .ok s
  | none => .error (.consensus .badStakeBlock)

/-! ## The block by itself -/

/-- Whether an output of a coinbase, given with its index, pays nothing: it has no amount, and
no script unless it is the commitment to witnesses. -/
def paysNothing (commitment : Option Nat) (o : TxOut × Nat) : Bool :=
  o.1.value == 0 && (o.1.script.bytes.isEmpty || some o.2 == commitment)

/-- Mined blocks come no later than the last height for them, only the second transaction
stakes, and the coinbase of a staked block pays nothing. -/
def blockType : PlainRule where
  name := "PosBlockTypeRule"
  check c := do
    let p ← params c
    let b := c.block
    Verdict.demand (b.isProofOfStake || c.height ≤ p.lastPowBlock.toNat) .proofOfWorkTooHigh
    Verdict.demand (!(b.txs.drop 2).any Tx.isCoinstake) .badMultipleCoinstake
    if b.isProofOfStake then
      let outputs := (b.txs.head?.map Tx.outputs).getD []
      Verdict.demand (outputs.zipIdx.all (paysNothing (Commitment.index? b))) .badStakeBlock

/-- The block is signed as its kind asks. -/
def signature : PlainRule where
  name := "PosBlockSignatureRule"
  check c := Verdict.demand (Stake.isSigned c.block) .badBlockSignature

/-- The time of a staked block is on the mask, after the block before, and not too far ahead. -/
def timeMask : PlainRule where
  name := "PosTimeMaskRule"
  check c := do
    if c.block.isProofOfStake then
      let p ← params c
      let time := c.header.time
      Verdict.demand (Stake.onMask time p.stakeTimestampMask) .stakeTimeViolation
      Verdict.demand (c.previous?.all fun b => b.tip.header.time < time) .blockTimestampTooEarly
      Verdict.demand (time.toNat ≤ c.adjustedTime.toNat + p.futureDrift.toNat)
        .blockTimestampTooFar

/-- Only a coinbase or a coinstake has outputs like the marker, and the coinstake of a staked
block pays somewhere. -/
def coinstakeShape : PlainRule where
  name := "PosCoinstakeShapeRule"
  check c := do
    let plain := c.block.txs.filter fun tx => !tx.isCoinbase && !tx.isCoinstake
    Verdict.demand (plain.all fun tx => !tx.outputs.any TxOut.isMarker) .nonCoinstake
    if c.block.isProofOfStake then
      let outputs := (c.block.txs[1]?.map Tx.outputs).getD []
      Verdict.demand ((outputs.drop 1).any fun o => !o.script.bytes.isEmpty) .emptyCoinstake

/-! ## The stake -/

/-- The first input of the coinstake. -/
def stakeInput? (b : Block) : Option TxIn := do
  (← b.txs[1]?).inputs.head?

/-- The record of a staked block: its coin is deep enough and its kernel meets the target. -/
def stakedRecord (c : Candidate) (p : StakeParams) (previous : StakeRecord) (prevout : OutPoint)
    (coin : Coin) : Except Rejection StakeRecord := do
  Verdict.demand (p.stakeMinConfirmations.toNat ≤ c.height - coin.height.toNat)
    .invalidStakeDepth
  let proof ←
    (Stake.checkKernel previous c.header.bits coin prevout c.header.time).mapError .consensus
  let record := { StakeRecord.ofBlock c.block with proof := proof }
  pure (record.withModifier (Stake.modifier (some previous) prevout.hash) true)

/-- The record of a mined block. -/
def minedRecord (c : Candidate) (previous : Option StakeRecord) : StakeRecord :=
  (StakeRecord.ofBlock c.block).withModifier (Stake.modifier previous c.hash) true

/-- The record of a block, given the coins that its transactions spend. -/
def record (c : Candidate) (inputCoins : List (List Coin)) : Except Rejection StakeRecord := do
  let p ← params c
  let previous := c.previous?.bind fun b => b.tip.stake
  let record ←
    if c.block.isProofOfStake then
      match previous, stakeInput? c.block, inputCoins[1]?.bind List.head? with
      | none, _, _ => throw (.consensus .prevStakeNull)
      | some _, none, _ => throw (.fault .outOfRange)
      | some _, some _, none => throw (.consensus .readTxPrevFailed)
      | some r, some input, some coin => stakedRecord c p r input.prevout coin
    else pure (minedRecord c previous)
  pure (record.withEntropy (Stake.entropyOf c.hash))

/-- A staked block proves its stake; the record of the block is kept. -/
def proofOfStake : CoinRule where
  name := "CheckProofOfStakeRule"
  readsCoins := true
  run c _ := do
    let r ← Validation.ofExcept (record c (← get).inputCoins)
    modify fun p => { p with stake := some r }

/-- Checks a coinstake whose coins are given, the first of which is guarded by the script: if it
is a cold-staking script, all coins are, all outputs are after the marker, and nothing is
lost. -/
def checkColdStaking (coins : List Coin) (script : Script) (stake : Tx) : Verdict :=
  if script.coldStaking?.isSome then do
    Verdict.demand (coins.all fun coin => coin.output.script == script) .badColdstakeInputs
    Verdict.demand ((stake.outputs.drop 1).all fun o => o.script == script) .badColdstakeOutputs
    match sumInt64From 0 (coins.map fun coin => coin.output.value.toInt), stake.totalOut? with
    | none, _ => throw (.fault .overflow)
    | some _, none => throw (.consensus .badColdstakeAmount)
    | some valueIn, some valueOut => Verdict.demand (valueIn ≤ valueOut) .badColdstakeAmount
  else .ok ()

/-- A coinstake of a coin under a cold-staking script keeps everything under that script. -/
def coldStaking : CoinRule where
  name := "PosColdStakingRule"
  readsCoins := true
  run c _ := do
    if c.block.isProofOfStake then
      match (← get).inputCoins[1]?, c.block.txs[1]? with
      | some (first :: rest), some stake =>
          Validation.ofExcept
            (checkColdStaking (first :: rest) first.output.script stake)
      | _, _ => pure ()

end StakeChain.StakeRule
