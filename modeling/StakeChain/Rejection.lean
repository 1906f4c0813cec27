/-
Why blocks and transactions are rejected.

Every reason has a name, a code by which peers and users know it, and a
text. A validation ends early in three ways: with a reason, because it was
cancelled, or with a fault of whoever called it.
-/
import StakeChain.Eval.Error

namespace StakeChain

/-- Why a block or a transaction is rejected. -/
inductive ConsensusError where
  | timeTooOld
  | timeTooNew
  | badDiffBits
  | highHash
  | badVersion
  | checkpointViolation
  | badPrevBlock
  | invalidPrevTip
  | badMerkleRoot
  | badTransactionDuplicate
  | badCoinbaseMissing
  | badMultipleCoinbase
  | badBlockLength
  | badBlockWeight
  | badBlockSigOps
  | badWitnessNonceSize
  | badWitnessMerkleMatch
  | unexpectedWitness
  | badTransactionNoInput
  | badTransactionNoOutput
  | badTransactionOversize
  | badTransactionNegativeOutput
  | badTransactionTooLargeOutput
  | badTransactionTooLargeTotalOutput
  | badTransactionDuplicateInputs
  | badCoinbaseSize
  | badTransactionNullPrevout
  | badTransactionNonFinal
  | badCoinbaseHeight
  | badTransactionBip30
  | badTransactionMissingInput
  | badTransactionPrematureCoinbaseSpending
  | badTransactionPrematureCoinstakeSpending
  | badTransactionInputValueOutOfRange
  | badTransactionInBelowOut
  | badTransactionNegativeFee
  | badTransactionFeeOutOfRange
  | badCoinbaseAmount
  | badCoinstakeAmount
  | badTransactionScriptError (e : ScriptError)
  | nonCoinstake
  | readTxPrevFailed
  | invalidStakeDepth
  | stakeTimeViolation
  | prevStakeNull
  | stakeHashInvalidTarget
  | emptyCoinstake
  | badMultipleCoinstake
  | badStakeBlock
  | coinstakeVerifySignatureFailed
  | blockTimestampTooFar
  | blockTimestampTooEarly
  | badBlockSignature
  | proofOfWorkTooHigh
  | setStakeEntropyBitFailed
  | modifierNotFound
  | badColdstakeAmount
  | badColdstakeInputs
  | badColdstakeOutputs
  | badUndoData
  | blockNotInChain
deriving DecidableEq, Repr

namespace ConsensusError

/-- Every reason but the failure of a script. -/
def plain : List ConsensusError :=
  [timeTooOld, timeTooNew, badDiffBits, highHash, badVersion, checkpointViolation, badPrevBlock,
   invalidPrevTip, badMerkleRoot, badTransactionDuplicate, badCoinbaseMissing,
   badMultipleCoinbase, badBlockLength, badBlockWeight, badBlockSigOps, badWitnessNonceSize,
   badWitnessMerkleMatch, unexpectedWitness, badTransactionNoInput, badTransactionNoOutput,
   badTransactionOversize, badTransactionNegativeOutput, badTransactionTooLargeOutput,
   badTransactionTooLargeTotalOutput, badTransactionDuplicateInputs, badCoinbaseSize,
   badTransactionNullPrevout, badTransactionNonFinal, badCoinbaseHeight, badTransactionBip30,
   badTransactionMissingInput, badTransactionPrematureCoinbaseSpending,
   badTransactionPrematureCoinstakeSpending, badTransactionInputValueOutOfRange,
   badTransactionInBelowOut, badTransactionNegativeFee, badTransactionFeeOutOfRange,
   badCoinbaseAmount, badCoinstakeAmount, nonCoinstake, readTxPrevFailed, invalidStakeDepth,
   stakeTimeViolation, prevStakeNull, stakeHashInvalidTarget, emptyCoinstake,
   badMultipleCoinstake, badStakeBlock, coinstakeVerifySignatureFailed, blockTimestampTooFar,
   blockTimestampTooEarly, badBlockSignature, proofOfWorkTooHigh, setStakeEntropyBitFailed,
   modifierNotFound, badColdstakeAmount, badColdstakeInputs, badColdstakeOutputs, badUndoData,
   blockNotInChain]

/-- The name of a reason. -/
def name : ConsensusError → String
  | timeTooOld => "TimeTooOld"
  | timeTooNew => "TimeTooNew"
  | badDiffBits => "BadDiffBits"
  | highHash => "HighHash"
  | badVersion => "BadVersion"
  | checkpointViolation => "CheckpointViolation"
  | badPrevBlock => "BadPrevBlock"
  | invalidPrevTip => "InvalidPrevTip"
  | badMerkleRoot => "BadMerkleRoot"
  | badTransactionDuplicate => "BadTransactionDuplicate"
  | badCoinbaseMissing => "BadCoinbaseMissing"
  | badMultipleCoinbase => "BadMultipleCoinbase"
  | badBlockLength => "BadBlockLength"
  | badBlockWeight => "BadBlockWeight"
  | badBlockSigOps => "BadBlockSigOps"
  | badWitnessNonceSize => "BadWitnessNonceSize"
  | badWitnessMerkleMatch => "BadWitnessMerkleMatch"
  | unexpectedWitness => "UnexpectedWitness"
  | badTransactionNoInput => "BadTransactionNoInput"
  | badTransactionNoOutput => "BadTransactionNoOutput"
  | badTransactionOversize => "BadTransactionOversize"
  | badTransactionNegativeOutput => "BadTransactionNegativeOutput"
  | badTransactionTooLargeOutput => "BadTransactionTooLargeOutput"
  | badTransactionTooLargeTotalOutput => "BadTransactionTooLargeTotalOutput"
  | badTransactionDuplicateInputs => "BadTransactionDuplicateInputs"
  | badCoinbaseSize => "BadCoinbaseSize"
  | badTransactionNullPrevout => "BadTransactionNullPrevout"
  | badTransactionNonFinal => "BadTransactionNonFinal"
  | badCoinbaseHeight => "BadCoinbaseHeight"
  | badTransactionBip30 => "BadTransactionBip30"
  | badTransactionMissingInput => "BadTransactionMissingInput"
  | badTransactionPrematureCoinbaseSpending => "BadTransactionPrematureCoinbaseSpending"
  | badTransactionPrematureCoinstakeSpending => "BadTransactionPrematureCoinstakeSpending"
  | badTransactionInputValueOutOfRange => "BadTransactionInputValueOutOfRange"
  | badTransactionInBelowOut => "BadTransactionInBelowOut"
  | badTransactionNegativeFee => "BadTransactionNegativeFee"
  | badTransactionFeeOutOfRange => "BadTransactionFeeOutOfRange"
  | badCoinbaseAmount => "BadCoinbaseAmount"
  | badCoinstakeAmount => "BadCoinstakeAmount"
  | badTransactionScriptError _ => "BadTransactionScriptError"
  | nonCoinstake => "NonCoinstake"
  | readTxPrevFailed => "ReadTxPrevFailed"
  | invalidStakeDepth => "InvalidStakeDepth"
  | stakeTimeViolation => "StakeTimeViolation"
  | prevStakeNull => "PrevStakeNull"
  | stakeHashInvalidTarget => "StakeHashInvalidTarget"
  | emptyCoinstake => "EmptyCoinstake"
  | badMultipleCoinstake => "BadMultipleCoinstake"
  | badStakeBlock => "BadStakeBlock"
  | coinstakeVerifySignatureFailed => "CoinstakeVerifySignatureFailed"
  | blockTimestampTooFar => "BlockTimestampTooFar"
  | blockTimestampTooEarly => "BlockTimestampTooEarly"
  | badBlockSignature => "BadBlockSignature"
  | proofOfWorkTooHigh => "ProofOfWorkTooHigh"
  | setStakeEntropyBitFailed => "SetStakeEntropyBitFailed"
  | modifierNotFound => "ModifierNotFound"
  | badColdstakeAmount => "BadColdstakeAmount"
  | badColdstakeInputs => "BadColdstakeInputs"
  | badColdstakeOutputs => "BadColdstakeOutputs"
  | badUndoData => "BadUndoData"
  | blockNotInChain => "BlockNotInChain"

/-- The code of a reason. -/
def code : ConsensusError → String
  | timeTooOld => "time-too-old"
  | timeTooNew => "time-too-new"
  | badDiffBits => "bad-diffbits"
  | highHash => "high-hash"
  | badVersion => "bad-version"
  | checkpointViolation => "checkpoint-violation"
  | badPrevBlock => "bad-prevblk"
  | invalidPrevTip => "invalid-prev-tip"
  | badMerkleRoot => "bad-txnmrklroot"
  | badTransactionDuplicate => "bad-txns-duplicate"
  | badCoinbaseMissing => "bad-cb-missing"
  | badMultipleCoinbase => "bad-cb-multiple"
  | badBlockLength => "bad-blk-length"
  | badBlockWeight => "bad-blk-weight"
  | badBlockSigOps => "bad-blk-sigops"
  | badWitnessNonceSize => "bad-witness-nonce-size"
  | badWitnessMerkleMatch => "bad-witness-merkle-match"
  | unexpectedWitness => "unexpected-witness"
  | badTransactionNoInput => "bad-txns-vin-empty"
  | badTransactionNoOutput => "bad-txns-vout-empty"
  | badTransactionOversize => "bad-txns-oversize"
  | badTransactionNegativeOutput => "bad-txns-vout-negative"
  | badTransactionTooLargeOutput => "bad-txns-vout-toolarge"
  | badTransactionTooLargeTotalOutput => "bad-txns-txouttotal-toolarge"
  | badTransactionDuplicateInputs => "bad-txns-inputs-duplicate"
  | badCoinbaseSize => "bad-cb-length"
  | badTransactionNullPrevout => "bad-txns-prevout-null"
  | badTransactionNonFinal => "bad-txns-nonfinal"
  | badCoinbaseHeight => "bad-cb-height"
  | badTransactionBip30 => "bad-txns-BIP30"
  | badTransactionMissingInput => "bad-txns-inputs-missingorspent"
  | badTransactionPrematureCoinbaseSpending => "bad-txns-premature-spend-of-coinbase"
  | badTransactionPrematureCoinstakeSpending => "bad-txns-premature-spend-of-coinstake"
  | badTransactionInputValueOutOfRange => "bad-txns-inputvalues-outofrange"
  | badTransactionInBelowOut => "bad-txns-in-belowout"
  | badTransactionNegativeFee => "bad-txns-fee-negative"
  | badTransactionFeeOutOfRange => "bad-txns-fee-outofrange"
  | badCoinbaseAmount => "bad-cb-amount"
  | badCoinstakeAmount => "bad-cs-amount"
  | badTransactionScriptError _ => "mandatory-script-verify-flag-failed"
  | nonCoinstake => "non-coinstake"
  | readTxPrevFailed => "read-txPrev-failed"
  | invalidStakeDepth => "invalid-stake-depth"
  | stakeTimeViolation => "stake-time-violation"
  | prevStakeNull => "prev-stake-null"
  | stakeHashInvalidTarget => "proof-of-stake-hash-invalid-target"
  | emptyCoinstake => "empty-coinstake"
  | badMultipleCoinstake => "bad-cs-multiple"
  | badStakeBlock => "bad-stake-block"
  | coinstakeVerifySignatureFailed => "verify-signature-failed-on-coinstake"
  | blockTimestampTooFar => "block-timestamp-to-far"
  | blockTimestampTooEarly => "block-timestamp-to-early"
  | badBlockSignature => "bad-block-signature"
  | proofOfWorkTooHigh => "proof-of-work-too-heigh"
  | setStakeEntropyBitFailed => "set-stake-entropy-bit-failed"
  | modifierNotFound => "modifier-not-found"
  | badColdstakeAmount => "bad-cold-stake-amount"
  | badColdstakeInputs => "bad-cold-stake-inputs"
  | badColdstakeOutputs => "bad-cold-stake-outputs"
  | badUndoData => "bad-undo-data"
  | blockNotInChain => "block-not-in-chain"

/-- What is said of the block. -/
def message : ConsensusError → String
  | timeTooOld => "block's timestamp is too early"
  | timeTooNew => "block timestamp too far in the future"
  | badDiffBits => "incorrect proof of work"
  | highHash => "proof of work failed"
  | badVersion => "block version rejected"
  | checkpointViolation => "block header hash does not match the checkpointed value"
  | badPrevBlock => "previous block hash does not match the chained header"
  | invalidPrevTip => "invalid previous tip"
  | badMerkleRoot => "hashMerkleRoot mismatch"
  | badTransactionDuplicate => "duplicate transaction"
  | badCoinbaseMissing => "first tx is not coinbase"
  | badMultipleCoinbase => "more than one coinbase"
  | badBlockLength => "size limits failed"
  | badBlockWeight => "weight limit failed"
  | badBlockSigOps => "out-of-bounds SigOpCount"
  | badWitnessNonceSize => "invalid witness nonce size"
  | badWitnessMerkleMatch => "witness merkle commitment mismatch"
  | unexpectedWitness => "unexpected witness data found"
  | badTransactionNoInput => "transaction has no inputs"
  | badTransactionNoOutput => "transaction has no outputs"
  | badTransactionOversize => "transaction larger than max block weight"
  | badTransactionNegativeOutput => "transaction output negative"
  | badTransactionTooLargeOutput => "transaction output too large"
  | badTransactionTooLargeTotalOutput => "transaction total output too large"
  | badTransactionDuplicateInputs => "duplicate inputs"
  | badCoinbaseSize => "coinbase script size out of range"
  | badTransactionNullPrevout => "transaction input refers to a null previous output"
  | badTransactionNonFinal => "non-final transaction"
  | badCoinbaseHeight => "block height mismatch in coinbase"
  | badTransactionBip30 => "tried to overwrite transaction"
  | badTransactionMissingInput => "input missing or already spent"
  | badTransactionPrematureCoinbaseSpending => "tried to spend coinbase at depth below maturity"
  | badTransactionPrematureCoinstakeSpending => "tried to spend coinstake at depth below maturity"
  | badTransactionInputValueOutOfRange => "input values out of range"
  | badTransactionInBelowOut => "value in < value out"
  | badTransactionNegativeFee => "fee is negative"
  | badTransactionFeeOutOfRange => "fee out of range"
  | badCoinbaseAmount => "coinbase pays too much"
  | badCoinstakeAmount => "coinstake pays too much"
  | badTransactionScriptError e => "script verification failed: " ++ e.message
  | nonCoinstake => "coinstake is not the second transaction"
  | readTxPrevFailed => "could not read the staked output"
  | invalidStakeDepth => "staked output has not reached the minimum depth"
  | stakeTimeViolation => "coinstake time violation"
  | prevStakeNull => "previous stake modifier is missing"
  | stakeHashInvalidTarget => "kernel hash does not meet the stake target"
  | emptyCoinstake => "coinstake has no outputs after the marker"
  | badMultipleCoinstake => "more than one coinstake"
  | badStakeBlock => "coinstake found in a proof of work block"
  | coinstakeVerifySignatureFailed => "coinstake input signature failed to verify"
  | blockTimestampTooFar => "block timestamp is too far in the future of the coinstake"
  | blockTimestampTooEarly => "block timestamp is earlier than the previous median"
  | badBlockSignature => "bad block signature"
  | proofOfWorkTooHigh => "proof of work block after the last proof of work height"
  | setStakeEntropyBitFailed => "could not derive the stake entropy bit"
  | modifierNotFound => "stake modifier could not be computed"
  | badColdstakeAmount => "cold staking amount decreased"
  | badColdstakeInputs => "cold staking inputs spend different scripts"
  | badColdstakeOutputs => "cold staking outputs do not return to the staking script"
  | badUndoData => "undo data does not match the disconnected block"
  | blockNotInChain => "block is not part of the current chain"

/-- The reason of a name, other than the failure of a script. -/
def ofName? (name : String) : Option ConsensusError :=
  plain.find? fun e => e.name == name

end ConsensusError

/-- How a validation ends early. -/
inductive Rejection where
  /-- The block or transaction breaks a rule. -/
  | consensus (e : ConsensusError)
  /-- It was told to stop. -/
  | cancelled
  /-- It could not be carried out. -/
  | fault (f : Fault)
deriving DecidableEq, Repr

namespace Rejection

/-- What is said of a validation that was told to stop. -/
def cancelledMessage : String :=
  "validation cancelled before commit"

/-- A rejected script as a rejected block. -/
def ofHalt : Halt → Rejection
  | .error e => consensus (.badTransactionScriptError e)
  | .fault f => fault f

end Rejection

/-- The outcome of a check: nothing, or why there is none. -/
abbrev Verdict := Except Rejection Unit

namespace Verdict

/-- Rejects unless the condition holds. -/
def demand (condition : Bool) (e : ConsensusError) : Verdict :=
  if condition then .ok () else .error (.consensus e)

end Verdict

end StakeChain
