/-
What an evaluation asks about the spending transaction.

A checker answers four questions: whether a signature is valid, whether the
transaction is locked until a time or for a while, and whether it stakes.
Three of them are about one input; where the transaction has no such input
there is no answer but a fault.
-/
import StakeChain.Key.Verify
import StakeChain.Sighash

namespace StakeChain

/-- An answer, where there is one. -/
abbrev Answer := Except Fault Bool

/-- Whether an answer is there and is yes. -/
def Answer.isYes : Answer → Bool
  | .ok b => b
  | .error _ => false

/-- The answers about one spend. -/
structure Checker where
  /-- Whether a signature with its hash type is valid for a key and a script code. -/
  signature : (sig key : Bytes) → (code : Script) → HashVersion → Answer
  /-- Whether the transaction is locked at least until that height or time. -/
  lockTime : Int → Answer
  /-- Whether the input is locked at least for that many blocks or that much time. -/
  sequence : Int → Answer
  /-- Whether the transaction is a coinstake. -/
  coldStake : Bool

namespace Checker

/-- No transaction at hand: every question is answered with no. -/
def null : Checker where
  signature _ _ _ _ := .ok false
  lockTime _ := .ok false
  sequence _ := .ok false
  coldStake := false

/-- Whether two lock times are of one kind, and the demanded one is not after the other. -/
def lockTimeCovers (actual : Nat) (demanded : Int) : Bool :=
  ((actual : Int) < lockTimeThreshold) == (demanded < lockTimeThreshold) && demanded ≤ actual

/-- Whether two relative locks are of one kind, and the demanded one is not longer. -/
def sequenceCovers (actual : Nat) (demanded : Nat) : Bool :=
  let mask := sequenceTypeFlag ||| sequenceMask
  let a := actual &&& mask
  let d := demanded &&& mask
  (a < sequenceTypeFlag) == (d < sequenceTypeFlag) && d ≤ a

/-- The checker of one input of a transaction. A lock time is compared before the input is looked
at, a relative lock after that; an empty signature is invalid for any input. -/
def ofTx (tx : Tx) (index : Nat) (amount : Int64) (shared : Option TxDigests) : Checker where
  signature sig key code version :=
    match sig.getLast? with
    | none => .ok false
    | some hashType => do
        let digest ← signatureHash code tx index ⟨hashType.toUInt32⟩ amount version shared
        pure (Key.verifyEcdsa key sig.dropLast digest.bytes)
  lockTime demanded :=
    if lockTimeCovers tx.lockTime.toNat demanded then do
      let i ← tx.inputAt index
      pure (i.sequence != sequenceFinal)
    else .ok false
  sequence demanded := do
    let i ← tx.inputAt index
    pure (2 ≤ tx.version.toUInt32 && !i.sequence.toNat.testBit sequenceDisableBit
      && sequenceCovers i.sequence.toNat demanded.toNat)
  coldStake := tx.isCoinstake

end Checker

end StakeChain
