/-
Network parameters as JSON.

Fields are written in the order of the record. All of them may be left out
when reading, apart from those of a deployment; what is left out is as on
the main network.
-/
import StakeChain.Json.Digest
import StakeChain.Json.Parser
import StakeChain.Json.Printer
import StakeChain.Params

namespace StakeChain

namespace DeploymentParams

/-- The fields of a deployment. -/
def fieldNames : List String :=
  ["name", "bit", "start_time", "timeout"]

def toJson (d : DeploymentParams) : Json :=
  Json.ofFields
    [("name", Json.ofString d.name), ("bit", Json.ofNat d.bit.toNat),
     ("start_time", .int d.startTime.toInt), ("timeout", .int d.timeout.toInt)]

def readJson : Json.Reader DeploymentParams := fun j => do
  let r ← Json.readRecord fieldNames j
  let name ← r.required "name" Json.readString
  let bit ← r.required "bit" Json.readUInt8
  let startTime ← r.required "start_time" Json.readInt64
  let timeout ← r.required "timeout" Json.readInt64
  pure ⟨name, bit, startTime, timeout⟩

end DeploymentParams

namespace StakeParams

/-- The fields of the staking record. -/
def fieldNames : List String :=
  ["last_pow_block", "stake_min_confirmations", "coinstake_maturity", "stake_timestamp_mask",
   "future_drift", "target_spacing", "target_timespan", "pos_reward", "premine_height",
   "premine_reward", "pos_limit"]

def toJson (s : StakeParams) : Json :=
  Json.ofFields
    [("last_pow_block", Json.ofNat s.lastPowBlock.toNat),
     ("stake_min_confirmations", Json.ofNat s.stakeMinConfirmations.toNat),
     ("coinstake_maturity", Json.ofNat s.coinstakeMaturity.toNat),
     ("stake_timestamp_mask", Json.ofNat s.stakeTimestampMask.toNat),
     ("future_drift", Json.ofNat s.futureDrift.toNat),
     ("target_spacing", Json.ofNat s.targetSpacing.toNat),
     ("target_timespan", Json.ofNat s.targetTimespan.toNat),
     ("pos_reward", .int s.posReward.toInt),
     ("premine_height", Json.ofNat s.premineHeight.toNat),
     ("premine_reward", .int s.premineReward.toInt),
     ("pos_limit", Json.ofNat s.posLimit.toNat)]

def readJson : Json.Reader StakeParams := fun j => do
  let r ← Json.readRecord fieldNames j
  let d := standard
  pure
    { lastPowBlock := ← r.withDefault "last_pow_block" Json.readUInt32 d.lastPowBlock
      stakeMinConfirmations :=
        ← r.withDefault "stake_min_confirmations" Json.readUInt32 d.stakeMinConfirmations
      coinstakeMaturity :=
        ← r.withDefault "coinstake_maturity" Json.readUInt32 d.coinstakeMaturity
      stakeTimestampMask :=
        ← r.withDefault "stake_timestamp_mask" Json.readUInt32 d.stakeTimestampMask
      futureDrift := ← r.withDefault "future_drift" Json.readUInt32 d.futureDrift
      targetSpacing := ← r.withDefault "target_spacing" Json.readUInt32 d.targetSpacing
      targetTimespan := ← r.withDefault "target_timespan" Json.readUInt32 d.targetTimespan
      posReward := ← r.withDefault "pos_reward" Json.readInt64 d.posReward
      premineHeight := ← r.withDefault "premine_height" Json.readUInt32 d.premineHeight
      premineReward := ← r.withDefault "premine_reward" Json.readInt64 d.premineReward
      posLimit := ← r.withDefault "pos_limit" Json.readUInt32 d.posLimit }

end StakeParams

namespace Checkpoints

def toJson (c : Checkpoints) : Json :=
  Json.ofFields (c.toList.map fun (height, hash) => (toString height.toNat, hash.toJson))

/-- A height is written as an integer in its JSON form, without blanks and escapes. -/
def readHeight (key : List Char) : Option UInt32 :=
  match Json.scanNumber key with
  | some (height, []) => Json.readUInt32 height
  | _ => none

/-- Of two hashes for one height the latter counts. -/
def readJson : Json.Reader Checkpoints
  | .obj members =>
      members.foldlM
        (fun c m => do
          let height ← readHeight m.1
          let hash ← Digest.readJson 32 m.2
          pure (c.insert height hash))
        ∅
  | _ => none

end Checkpoints

namespace Params

/-- The fields of a network. -/
def fieldNames : List String :=
  ["max_block_base_size", "max_block_weight", "max_block_serialized_size",
   "witness_scale_factor", "max_block_sigops_cost", "coinbase_maturity", "max_money",
   "subsidy_halving_interval", "initial_subsidy", "pow_limit", "pow_target_timespan",
   "pow_target_spacing", "pow_no_retargeting", "pow_allow_min_difficulty_blocks",
   "bip16_time", "bip34_height", "bip65_height", "bip66_height", "checkpoints",
   "max_future_block_time", "median_time_span", "miner_confirmation_window",
   "rule_change_activation_threshold", "deployments", "pos"]

def toJson (p : Params) : Json :=
  Json.ofFields
    [("max_block_base_size", Json.ofNat p.maxBlockBaseSize.toNat),
     ("max_block_weight", Json.ofNat p.maxBlockWeight.toNat),
     ("max_block_serialized_size", Json.ofNat p.maxBlockSerializedSize.toNat),
     ("witness_scale_factor", Json.ofNat p.witnessScaleFactor.toNat),
     ("max_block_sigops_cost", Json.ofNat p.maxBlockSigOpsCost.toNat),
     ("coinbase_maturity", Json.ofNat p.coinbaseMaturity.toNat),
     ("max_money", .int p.maxMoney.toInt),
     ("subsidy_halving_interval", Json.ofNat p.subsidyHalvingInterval.toNat),
     ("initial_subsidy", .int p.initialSubsidy.toInt),
     ("pow_limit", Json.ofNat p.powLimit.toNat),
     ("pow_target_timespan", Json.ofNat p.powTargetTimespan.toNat),
     ("pow_target_spacing", Json.ofNat p.powTargetSpacing.toNat),
     ("pow_no_retargeting", .bool p.powNoRetargeting),
     ("pow_allow_min_difficulty_blocks", .bool p.powAllowMinDifficultyBlocks),
     ("bip16_time", Json.ofNat p.bip16Time.toNat),
     ("bip34_height", Json.ofNat p.bip34Height.toNat),
     ("bip65_height", Json.ofNat p.bip65Height.toNat),
     ("bip66_height", Json.ofNat p.bip66Height.toNat),
     ("checkpoints", Checkpoints.toJson p.checkpoints),
     ("max_future_block_time", Json.ofNat p.maxFutureBlockTime.toNat),
     ("median_time_span", Json.ofNat p.medianTimeSpan.toNat),
     ("miner_confirmation_window", Json.ofNat p.minerConfirmationWindow.toNat),
     ("rule_change_activation_threshold", Json.ofNat p.ruleChangeActivationThreshold.toNat),
     ("deployments", .arr (p.deployments.map DeploymentParams.toJson)),
     ("pos", (p.stake.map StakeParams.toJson).getD .null)]

def readJson : Json.Reader Params := fun j => do
  let r ← Json.readRecord fieldNames j
  let d := main
  pure
    { maxBlockBaseSize := ← r.withDefault "max_block_base_size" Json.readUInt64 d.maxBlockBaseSize
      maxBlockWeight := ← r.withDefault "max_block_weight" Json.readUInt64 d.maxBlockWeight
      maxBlockSerializedSize :=
        ← r.withDefault "max_block_serialized_size" Json.readUInt64 d.maxBlockSerializedSize
      witnessScaleFactor :=
        ← r.withDefault "witness_scale_factor" Json.readUInt64 d.witnessScaleFactor
      maxBlockSigOpsCost :=
        ← r.withDefault "max_block_sigops_cost" Json.readUInt64 d.maxBlockSigOpsCost
      coinbaseMaturity := ← r.withDefault "coinbase_maturity" Json.readUInt32 d.coinbaseMaturity
      maxMoney := ← r.withDefault "max_money" Json.readInt64 d.maxMoney
      subsidyHalvingInterval :=
        ← r.withDefault "subsidy_halving_interval" Json.readUInt32 d.subsidyHalvingInterval
      initialSubsidy := ← r.withDefault "initial_subsidy" Json.readInt64 d.initialSubsidy
      powLimit := ← r.withDefault "pow_limit" Json.readUInt32 d.powLimit
      powTargetTimespan :=
        ← r.withDefault "pow_target_timespan" Json.readUInt32 d.powTargetTimespan
      powTargetSpacing := ← r.withDefault "pow_target_spacing" Json.readUInt32 d.powTargetSpacing
      powNoRetargeting := ← r.withDefault "pow_no_retargeting" Json.readBool d.powNoRetargeting
      powAllowMinDifficultyBlocks :=
        ← r.withDefault "pow_allow_min_difficulty_blocks" Json.readBool
            d.powAllowMinDifficultyBlocks
      bip16Time := ← r.withDefault "bip16_time" Json.readUInt32 d.bip16Time
      bip34Height := ← r.withDefault "bip34_height" Json.readUInt32 d.bip34Height
      bip65Height := ← r.withDefault "bip65_height" Json.readUInt32 d.bip65Height
      bip66Height := ← r.withDefault "bip66_height" Json.readUInt32 d.bip66Height
      checkpoints := ← r.withDefault "checkpoints" Checkpoints.readJson d.checkpoints
      maxFutureBlockTime :=
        ← r.withDefault "max_future_block_time" Json.readUInt32 d.maxFutureBlockTime
      medianTimeSpan := ← r.withDefault "median_time_span" Json.readUInt64 d.medianTimeSpan
      minerConfirmationWindow :=
        ← r.withDefault "miner_confirmation_window" Json.readUInt32 d.minerConfirmationWindow
      ruleChangeActivationThreshold :=
        ← r.withDefault "rule_change_activation_threshold" Json.readUInt32
            d.ruleChangeActivationThreshold
      deployments :=
        ← r.withDefault "deployments" (Json.readList DeploymentParams.readJson) d.deployments
      stake := ← r.withDefault "pos" (Json.readOption StakeParams.readJson) d.stake }

/-- The parameters written in a JSON text. -/
def ofJsonText? (text : String) : Option Params := do
  readJson (← Json.parse text)

/-- The JSON text of the parameters, indented. -/
def toJsonText (p : Params) : String :=
  Json.pretty 0 p.toJson

end Params

end StakeChain
