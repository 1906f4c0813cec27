/-
Rules about the body of a block and about its transactions by themselves.
-/
import StakeChain.Block.Check
import StakeChain.Merkle.Commitment
import StakeChain.Tx.Check
import StakeChain.Validation.Candidate

namespace StakeChain.BodyRule

/-! ## The body as a whole -/

/-- The header commits to the transactions, and the list is not a longer one with the same
root. -/
def merkleRoot : PlainRule where
  name := "BlockMerkleRootRule"
  check c := do
    let root := c.block.merkleRoot
    Verdict.demand (root.hash == c.header.merkleRoot) .badMerkleRoot
    Verdict.demand (!root.mutated) .badTransactionDuplicate

/-- The first transaction, and no other, is a coinbase. -/
def coinbase : PlainRule where
  name := "EnsureCoinbaseRule"
  check c := c.block.checkCoinbase

/-- The block is not too long, neither without nor with its witnesses. -/
def size : PlainRule where
  name := "BlockSizeRule"
  check c := do
    c.block.checkSize c.params
    Verdict.demand (c.block.totalSize ≤ c.params.maxBlockSerializedSize.toNat) .badBlockLength

/-- The block commits to its witnesses. -/
def commitment : PlainRule where
  name := "WitnessCommitmentsRule"
  check c := Commitment.check c.block c.rules.script.witness

/-- The block is not too heavy. -/
def weight : PlainRule where
  name := "BlockWeightRule"
  check c := c.block.checkWeight c.params

/-! ## Single transactions -/

/-- Every transaction is right by itself. -/
def transactions : PlainRule where
  name := "CheckTransactionsRule"
  check c := c.block.txs.forM fun tx => tx.check c.params

/-- The plain count of signature operations does not cost too much. -/
def sigOps : PlainRule where
  name := "CheckSigOpsRule"
  check c := do
    let cost ←
      (fitWord 64 (c.block.legacySigOps * c.params.witnessScaleFactor.toNat)).mapError .fault
    Verdict.demand (cost ≤ c.params.maxBlockSigOpsCost.toNat) .badBlockSigOps

/-- The time that lock times are compared with: the median time of the headers before if the
rules say so, and else the time of the block. -/
def lockCutoff (c : Candidate) : Except Fault UInt32 :=
  match c.previous? with
  | some b =>
      if c.rules.lockTime.medianTime then b.medianTime c.params.medianTimeSpan.toNat
      else .ok c.header.time
  | none => .ok c.header.time

/-- Every transaction is final. -/
def lockTime : PlainRule where
  name := "TransactionLocktimeRule"
  check c := do
    let cutoff ← (lockCutoff c).mapError .fault
    Verdict.demand (c.block.txs.all fun tx => tx.isFinal c.height cutoff.toNat)
      .badTransactionNonFinal

/-- The coinbase starts with the height, where that is asked for. -/
def coinbaseHeight : PlainRule where
  name := "CoinbaseHeightRule"
  check c := if c.rules.bip34 then c.block.checkHeight c.height else .ok ()

end StakeChain.BodyRule
