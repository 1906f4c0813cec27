/-
The ways in which a script fails.
-/
import StakeChain.Fault

namespace StakeChain

/-- Why a script does not verify. -/
inductive ScriptError where
  | unknownError
  | evalFalse
  | opReturn
  | scriptSize
  | pushSize
  | opCount
  | stackSize
  | sigCount
  | pubkeyCount
  | verify
  | equalVerify
  | checkMultiSigVerify
  | checkSigVerify
  | numEqualVerify
  | badOpcode
  | disabledOpcode
  | invalidStackOperation
  | invalidAltstackOperation
  | unbalancedConditional
  | negativeLockTime
  | unsatisfiedLockTime
  | sigHashType
  | sigDer
  | minimalData
  | sigPushOnly
  | sigHighS
  | sigNullDummy
  | pubkeyType
  | cleanStack
  | minimalIf
  | sigNullFail
  | discourageUpgradableNops
  | discourageUpgradableWitnessProgram
  | witnessProgramWrongLength
  | witnessProgramWitnessEmpty
  | witnessProgramMismatch
  | witnessMalleated
  | witnessMalleatedP2SH
  | witnessUnexpected
  | witnessPubkeyType
  | checkColdStakeVerify
deriving DecidableEq, Repr

namespace ScriptError

/-- Every reason, in the order of the type. -/
def all : List ScriptError :=
  [unknownError, evalFalse, opReturn, scriptSize,
   pushSize, opCount, stackSize, sigCount,
   pubkeyCount, verify, equalVerify, checkMultiSigVerify,
   checkSigVerify, numEqualVerify, badOpcode, disabledOpcode,
   invalidStackOperation, invalidAltstackOperation, unbalancedConditional, negativeLockTime,
   unsatisfiedLockTime, sigHashType, sigDer, minimalData,
   sigPushOnly, sigHighS, sigNullDummy, pubkeyType,
   cleanStack, minimalIf, sigNullFail, discourageUpgradableNops,
   discourageUpgradableWitnessProgram, witnessProgramWrongLength,
   witnessProgramWitnessEmpty, witnessProgramMismatch,
   witnessMalleated, witnessMalleatedP2SH, witnessUnexpected, witnessPubkeyType,
   checkColdStakeVerify]

/-- The name of a reason. -/
def name : ScriptError → String
  | unknownError => "UnknownError"
  | evalFalse => "EvalFalse"
  | opReturn => "OpReturn"
  | scriptSize => "ScriptSize"
  | pushSize => "PushSize"
  | opCount => "OpCount"
  | stackSize => "StackSize"
  | sigCount => "SigCount"
  | pubkeyCount => "PubkeyCount"
  | verify => "Verify"
  | equalVerify => "EqualVerify"
  | checkMultiSigVerify => "CheckMultiSigVerify"
  | checkSigVerify => "CheckSigVerify"
  | numEqualVerify => "NumEqualVerify"
  | badOpcode => "BadOpcode"
  | disabledOpcode => "DisabledOpcode"
  | invalidStackOperation => "InvalidStackOperation"
  | invalidAltstackOperation => "InvalidAltstackOperation"
  | unbalancedConditional => "UnbalancedConditional"
  | negativeLockTime => "NegativeLockTime"
  | unsatisfiedLockTime => "UnsatisfiedLockTime"
  | sigHashType => "SigHashType"
  | sigDer => "SigDer"
  | minimalData => "MinimalData"
  | sigPushOnly => "SigPushOnly"
  | sigHighS => "SigHighS"
  | sigNullDummy => "SigNullDummy"
  | pubkeyType => "PubkeyType"
  | cleanStack => "CleanStack"
  | minimalIf => "MinimalIf"
  | sigNullFail => "SigNullFail"
  | discourageUpgradableNops => "DiscourageUpgradableNops"
  | discourageUpgradableWitnessProgram => "DiscourageUpgradableWitnessProgram"
  | witnessProgramWrongLength => "WitnessProgramWrongLength"
  | witnessProgramWitnessEmpty => "WitnessProgramWitnessEmpty"
  | witnessProgramMismatch => "WitnessProgramMismatch"
  | witnessMalleated => "WitnessMalleated"
  | witnessMalleatedP2SH => "WitnessMalleatedP2SH"
  | witnessUnexpected => "WitnessUnexpected"
  | witnessPubkeyType => "WitnessPubkeyType"
  | checkColdStakeVerify => "CheckColdStakeVerify"

/-- What is said of the script. -/
def message : ScriptError → String
  | unknownError => "unknown error"
  | evalFalse => "script evaluated without error but finished with a false/empty top stack element"
  | opReturn => "OP_RETURN was encountered"
  | scriptSize => "script is too big"
  | pushSize => "push value size limit exceeded"
  | opCount => "operation limit exceeded"
  | stackSize => "stack size limit exceeded"
  | sigCount => "signature count negative or greater than pubkey count"
  | pubkeyCount => "pubkey count negative or limit exceeded"
  | verify => "script failed an OP_VERIFY operation"
  | equalVerify => "script failed an OP_EQUALVERIFY operation"
  | checkMultiSigVerify => "script failed an OP_CHECKMULTISIGVERIFY operation"
  | checkSigVerify => "script failed an OP_CHECKSIGVERIFY operation"
  | numEqualVerify => "script failed an OP_NUMEQUALVERIFY operation"
  | badOpcode => "opcode missing or not understood"
  | disabledOpcode => "attempted to use a disabled opcode"
  | invalidStackOperation => "operation not valid with the current stack size"
  | invalidAltstackOperation => "operation not valid with the current altstack size"
  | unbalancedConditional => "invalid OP_IF construction"
  | negativeLockTime => "negative locktime"
  | unsatisfiedLockTime => "locktime requirement not satisfied"
  | sigHashType => "signature hash type missing or not understood"
  | sigDer => "non-canonical DER signature"
  | minimalData => "data push larger than necessary"
  | sigPushOnly => "only non-push operators allowed in signatures"
  | sigHighS => "non-canonical signature: S value is unnecessarily high"
  | sigNullDummy => "dummy CHECKMULTISIG argument must be zero"
  | pubkeyType => "public key is neither compressed or uncompressed"
  | cleanStack => "extra items left on stack after execution"
  | minimalIf => "OP_IF/NOTIF argument must be minimal"
  | sigNullFail => "signature must be zero for failed CHECK(MULTI)SIG operation"
  | discourageUpgradableNops => "NOPx reserved for soft-fork upgrades"
  | discourageUpgradableWitnessProgram => "witness version reserved for soft-fork upgrades"
  | witnessProgramWrongLength => "witness program has incorrect length"
  | witnessProgramWitnessEmpty => "witness program was passed an empty witness"
  | witnessProgramMismatch => "witness program hash mismatch"
  | witnessMalleated => "witness requires empty scriptSig"
  | witnessMalleatedP2SH => "witness requires only-redeemscript scriptSig"
  | witnessUnexpected => "witness provided for non-witness script"
  | witnessPubkeyType => "using non-compressed keys in segwit"
  | checkColdStakeVerify => "OP_CHECKCOLDSTAKEVERIFY used outside a coinstake"

end ScriptError

/-- How an evaluation ends early: with a verdict about the script, or with a fault of whoever
runs it. -/
inductive Halt where
  | error (e : ScriptError)
  | fault (f : Fault)
deriving DecidableEq, Repr

end StakeChain
