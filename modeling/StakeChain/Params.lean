/-
What the rules need to know about a network.

A network is a record of limits, schedules and difficulty parameters. It
has a second record of its own where blocks may be staked.
-/
import Std.Data.ExtTreeMap
import StakeChain.Bytes.Digest
import StakeChain.Fault

namespace StakeChain

/-- A change of the rules that miners vote for with one bit of the block version. -/
structure DeploymentParams where
  name : String
  /-- The bit that signals for it. -/
  bit : UInt8
  /-- The median time from which votes are counted. -/
  startTime : Int64
  /-- The median time at which it fails unless enough votes were counted. -/
  timeout : Int64
deriving DecidableEq

namespace DeploymentParams

/-- The start time of a deployment that needs no votes. -/
def alwaysActiveTime : Int64 := -1

/-- The timeout of a deployment that does not fail. -/
def noTimeout : Int64 := Int64.maxValue

/-- A deployment that needs no votes. -/
def alwaysActive (name : String) (bit : UInt8) : DeploymentParams :=
  ⟨name, bit, alwaysActiveTime, noTimeout⟩

end DeploymentParams

/-- The smallest unit counted in one coin. -/
def coinUnit : Int64 := 100000000

/-- More than can ever exist. -/
def maxMoney : Int64 := 21000000 * coinUnit

/-- What is known about staking on a network. -/
structure StakeParams where
  /-- The last height at which a block may be mined. -/
  lastPowBlock : UInt32
  /-- How deep a coin has to be before it stakes. -/
  stakeMinConfirmations : UInt32
  /-- How deep the outputs of a coinstake have to be before they are spent. -/
  coinstakeMaturity : UInt32
  /-- The bits of the time that are zero in a staked block. -/
  stakeTimestampMask : UInt32
  /-- How many seconds a staked block may run ahead. -/
  futureDrift : UInt32
  targetSpacing : UInt32
  targetTimespan : UInt32
  /-- The reward of a staked block without fees. -/
  posReward : Int64
  /-- The height of the one block with a reward of its own, zero for none. -/
  premineHeight : UInt32
  premineReward : Int64
  /-- The easiest target for staking, in compact form. -/
  posLimit : UInt32
deriving DecidableEq

/-- What is assumed where nothing else is said. -/
def StakeParams.standard : StakeParams where
  lastPowBlock := 12500
  stakeMinConfirmations := 50
  coinstakeMaturity := 50
  stakeTimestampMask := 0x0f
  futureDrift := 15
  targetSpacing := 64
  targetTimespan := 16 * 60
  posReward := coinUnit
  premineHeight := 0
  premineReward := 0
  posLimit := 0x1b00ffff

/-- Hashes that blocks at some heights have to have. -/
abbrev Checkpoints := Std.ExtTreeMap UInt32 Hash256 compare

/-- What is known about a network. -/
structure Params where
  maxBlockBaseSize : UInt64
  maxBlockWeight : UInt64
  maxBlockSerializedSize : UInt64
  /-- How much more a byte weighs that is not in a witness. -/
  witnessScaleFactor : UInt64
  maxBlockSigOpsCost : UInt64
  /-- How deep the outputs of a coinbase have to be before they are spent. -/
  coinbaseMaturity : UInt32
  maxMoney : Int64
  /-- The number of blocks after which the subsidy halves. -/
  subsidyHalvingInterval : UInt32
  initialSubsidy : Int64
  /-- The easiest target for mining, in compact form. -/
  powLimit : UInt32
  powTargetTimespan : UInt32
  powTargetSpacing : UInt32
  powNoRetargeting : Bool
  /-- Blocks that come late may have the easiest target. -/
  powAllowMinDifficultyBlocks : Bool
  /-- The block time from which script hashes are looked behind. -/
  bip16Time : UInt32
  bip34Height : UInt32
  bip65Height : UInt32
  bip66Height : UInt32
  checkpoints : Checkpoints
  /-- How many seconds a block may run ahead. -/
  maxFutureBlockTime : UInt32
  /-- The number of blocks whose times have a say in the median. -/
  medianTimeSpan : UInt64
  /-- The number of blocks in which votes are counted. -/
  minerConfirmationWindow : UInt32
  ruleChangeActivationThreshold : UInt32
  deployments : List DeploymentParams
  /-- Present where blocks may be staked. -/
  stake : Option StakeParams

namespace Params

/-! ## Networks -/

/-- The main network. -/
def main : Params where
  maxBlockBaseSize := 1000000
  maxBlockWeight := 4000000
  maxBlockSerializedSize := 4000000
  witnessScaleFactor := 4
  maxBlockSigOpsCost := 80000
  coinbaseMaturity := 100
  maxMoney := StakeChain.maxMoney
  subsidyHalvingInterval := 210000
  initialSubsidy := 50 * coinUnit
  powLimit := 0x1d00ffff
  powTargetTimespan := 2016 * 600
  powTargetSpacing := 600
  powNoRetargeting := false
  powAllowMinDifficultyBlocks := false
  bip16Time := 1333238400
  bip34Height := 227931
  bip65Height := 388381
  bip66Height := 363725
  checkpoints := ∅
  maxFutureBlockTime := 2 * 60 * 60
  medianTimeSpan := 11
  minerConfirmationWindow := 2016
  ruleChangeActivationThreshold := 1916
  deployments :=
    [⟨"csv", 0, 1462060800, 1493596800⟩,
     ⟨"segwit", 1, 1479168000, 1510704000⟩,
     ⟨"coldstaking", 2, 1700000000, DeploymentParams.noTimeout⟩]
  stake := none

/-- A network for tests: the easiest target everywhere, and no deployment to wait for. -/
def regtest : Params :=
  { main with
    powLimit := 0x207fffff
    powNoRetargeting := true
    powAllowMinDifficultyBlocks := true
    subsidyHalvingInterval := 150
    bip16Time := 0
    bip34Height := 500
    bip65Height := 1351
    bip66Height := 1251
    minerConfirmationWindow := 144
    ruleChangeActivationThreshold := 108
    deployments :=
      [DeploymentParams.alwaysActive "csv" 0, DeploymentParams.alwaysActive "segwit" 1,
       DeploymentParams.alwaysActive "coldstaking" 2] }

/-- A network for tests on which blocks may be staked. -/
def stakeRegtest : Params :=
  { regtest with
    stake := some
      { StakeParams.standard with
        lastPowBlock := 12
        stakeMinConfirmations := 10
        coinstakeMaturity := 10
        posLimit := 0x207fffff }
    coinbaseMaturity := 10 }

/-! ## Derived values -/

/-- Whether blocks may be staked. -/
def isProofOfStake (p : Params) : Bool :=
  p.stake.isSome

/-- The deployment at an index. -/
def deployment? (p : Params) (index : Nat) : Option DeploymentParams :=
  p.deployments[index]?

/-- The number of blocks between two changes of the mining target. -/
def retargetInterval (p : Params) : Except Fault UInt32 :=
  if p.powTargetSpacing = 0 then .error .divisionByZero
  else .ok (p.powTargetTimespan / p.powTargetSpacing)

/-- Whether an amount is neither negative nor more than the network allows. -/
def inMoneyRange (p : Params) (value : Int) : Bool :=
  0 ≤ value && value ≤ p.maxMoney.toInt

end Params

/-- Whether an amount is neither negative nor more than can exist on any network. -/
def inMoneyRange (value : Int) : Bool :=
  0 ≤ value && value ≤ maxMoney.toInt

end StakeChain
