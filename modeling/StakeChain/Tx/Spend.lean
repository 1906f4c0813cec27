/-
What is asked of the coins that a transaction spends, and what it leaves.

Coins of a coinbase or a coinstake have to be deep enough. What comes in
has to cover what goes out; the rest is the fee. Coinstakes are let create
coins here, which the reward of their block bounds.
-/
import StakeChain.Coin
import StakeChain.Params
import StakeChain.Rejection

namespace StakeChain.Tx

/-- How deep the outputs of a coinstake have to be. -/
def coinstakeMaturity (p : Params) : UInt32 :=
  match p.stake with
  | some s => s.coinstakeMaturity
  | none => p.coinbaseMaturity

/-- Checks that a coin may be spent at a height. -/
def checkMaturity (p : Params) (height : Nat) (coin : Coin) : Verdict := do
  let depth := height - coin.height.toNat
  Verdict.demand (!coin.isCoinbase || p.coinbaseMaturity.toNat ≤ depth)
    .badTransactionPrematureCoinbaseSpending
  Verdict.demand (!coin.isCoinstake || (coinstakeMaturity p).toNat ≤ depth)
    .badTransactionPrematureCoinstakeSpending

/-- The sum of the coins spent at a height, when those before had that total. Each amount and
each part of the sum has to be in range. -/
def valueInFrom (p : Params) (height : Nat) (total : Int) : List Coin → Except Rejection Int
  | [] => .ok total
  | coin :: rest => do
      checkMaturity p height coin
      let value := coin.output.value.toInt
      let sum := total + value
      Verdict.demand (fitsInt64 sum && inMoneyRange value && p.inMoneyRange sum)
        .badTransactionInputValueOutOfRange
      valueInFrom p height sum rest

/-- The fee of a transaction that spends these coins at a height; zero for a coinstake. -/
def fee (tx : Tx) (coins : List Coin) (height : Nat) (p : Params) : Except Rejection Int := do
  let valueIn ← valueInFrom p height 0 coins
  if tx.isCoinstake then pure 0
  else
    match tx.totalOut? with
    | none => throw (.consensus .badTransactionTooLargeTotalOutput)
    | some valueOut => do
        Verdict.demand (valueOut ≤ valueIn) .badTransactionInBelowOut
        let fee ← (fitAmount (valueIn - valueOut)).mapError .fault
        Verdict.demand (0 ≤ fee) .badTransactionNegativeFee
        Verdict.demand (p.inMoneyRange fee) .badTransactionFeeOutOfRange
        pure fee

/-- The places of all outputs of a transaction. -/
def outputPlaces (tx : Tx) : List OutPoint :=
  let id := tx.id
  (List.range tx.outputs.length).map fun k => ⟨id, UInt32.ofNat k⟩

/-- The coin of an output. -/
def coinOf (tx : Tx) (height : Nat) (time : UInt32) (o : TxOut) : Coin where
  output := o
  height := UInt32.ofNat height
  isCoinbase := tx.isCoinbase
  isCoinstake := tx.isCoinstake
  time := time
  redeemScript := none

/-- The coins that a transaction creates in a block of that height and time: its outputs that
can be spent at all. -/
def createdCoins (tx : Tx) (height : Nat) (time : UInt32) : List (OutPoint × Coin) :=
  let id := tx.id
  (tx.outputs.zipIdx.filter fun o => !o.1.script.isUnspendable).map fun o =>
    (⟨id, UInt32.ofNat o.2⟩, tx.coinOf height time o.1)

end StakeChain.Tx
