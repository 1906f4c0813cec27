/-
What is asked of a transaction by itself.

No coin is looked up here: there are inputs and outputs, amounts are in
range alone and together, no output is spent twice, and only a coinbase
names no output.
-/
import Std.Data.ExtTreeSet
import StakeChain.Params
import StakeChain.Rejection
import StakeChain.Tx

namespace StakeChain.Tx

/-- Whether no place occurs twice, nor any that was seen before. -/
def distinctFrom (seen : Std.ExtTreeSet OutPoint compare) : List OutPoint → Bool
  | [] => true
  | o :: rest => !seen.contains o && distinctFrom (seen.insert o) rest

/-- Whether no output is spent twice. -/
def hasDistinctInputs (tx : Tx) : Bool :=
  distinctFrom ∅ (tx.inputs.map TxIn.prevout)

/-- Checks amounts and their sum, which starts with that of the outputs before. -/
def checkAmounts (p : Params) (total : Int) : List TxOut → Verdict
  | [] => .ok ()
  | o :: rest => do
      let value := o.value.toInt
      Verdict.demand (0 ≤ value) .badTransactionNegativeOutput
      Verdict.demand (value ≤ p.maxMoney.toInt) .badTransactionTooLargeOutput
      let total ← (fitAmount (total + value)).mapError .fault
      Verdict.demand (p.inMoneyRange total) .badTransactionTooLargeTotalOutput
      checkAmounts p total rest

/-- The least and the greatest length of the script of a coinbase. -/
def minCoinbaseScript : Nat := 2

@[inherit_doc minCoinbaseScript] def maxCoinbaseScript : Nat := 100

/-- Whether the script of a coinbase has the right length. -/
def hasCoinbaseScript (tx : Tx) : Bool :=
  tx.inputs.all fun i =>
    minCoinbaseScript ≤ i.scriptSig.size && i.scriptSig.size ≤ maxCoinbaseScript

/-- Checks a transaction by itself. -/
def check (tx : Tx) (p : Params) : Verdict := do
  Verdict.demand (!tx.inputs.isEmpty) .badTransactionNoInput
  Verdict.demand (!tx.outputs.isEmpty) .badTransactionNoOutput
  let size ← (fitWord 64 (tx.baseSize * p.witnessScaleFactor.toNat)).mapError .fault
  Verdict.demand (size ≤ p.maxBlockWeight.toNat) .badTransactionOversize
  checkAmounts p 0 tx.outputs
  Verdict.demand tx.hasDistinctInputs .badTransactionDuplicateInputs
  if tx.isCoinbase then Verdict.demand tx.hasCoinbaseScript .badCoinbaseSize
  else
    Verdict.demand (!tx.inputs.any fun i => i.prevout.isNull) .badTransactionNullPrevout

/-- Whether a transaction may be in a block of that height, when lock times are compared with
that time. -/
def isFinal (tx : Tx) (height : Nat) (time : Int) : Bool :=
  let lock := tx.lockTime.toNat
  let cutoff : Int := if lock < lockTimeThreshold then height else time
  lock == 0 || lock < cutoff || tx.inputs.all fun i => i.sequence == sequenceFinal

end StakeChain.Tx
