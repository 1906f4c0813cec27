/-
Rules about the coins that a block spends and creates.

The coins from earlier blocks are loaded first. Then the transactions are
gone through in order: each takes its coins from those loaded and those
created before it in the block, and adds its own. What is left of the
block's own coins in the end is what it creates.
-/
import StakeChain.Block.Check
import StakeChain.Eval.Verify
import StakeChain.Subsidy
import StakeChain.Validation.Candidate

namespace StakeChain

namespace Validation

/-! ## Loading -/

/-- Looks up some coins, one after another, and adds those that are there. -/
def load (s : Surroundings) (found : CoinSet) : List OutPoint → Validation CoinSet
  | [] => pure found
  | o :: rest => do
      match ← lookup s o with
      | some coin => load s (found.insert o coin) rest
      | none => load s found rest

end Validation

/-! ## Spending -/

/-- How far the transactions of a block were gone through. -/
structure Spending where
  /-- The coins that may be spent. -/
  available : CoinSet
  /-- The places of the coins among them that the block created. -/
  own : CoinSet.Places
  /-- The places of all coins that the block created, latest first. -/
  ownOrder : List OutPoint
  /-- The coins from earlier blocks that were spent, latest first. -/
  spent : PlacedCoins
  /-- The coins spent by each transaction, latest transaction first. -/
  inputCoins : List (List Coin)
  fees : Int
  minted : Int
  sigOpCost : Nat

namespace Spending

/-- Before the first transaction. -/
def start (loaded : CoinSet) : Spending :=
  ⟨loaded, ∅, [], [], [], 0, 0, 0⟩

/-- Takes a coin that may be spent. -/
def take (s : Spending) (o : OutPoint) : Except Rejection (Coin × Spending) :=
  match s.available[o]? with
  | none => .error (.consensus .badTransactionMissingInput)
  | some coin =>
      let left := { s with available := s.available.erase o }
      if s.own.contains o then .ok (coin, { left with own := s.own.erase o })
      else .ok (coin, { left with spent := (o, coin) :: s.spent })

/-- Takes several coins in order, after those in `taken`, which are in reverse. -/
def takeAll (s : Spending) (taken : List Coin) :
    List OutPoint → Except Rejection (List Coin × Spending)
  | [] => .ok (taken.reverse, s)
  | o :: rest => do
      let (coin, s) ← s.take o
      s.takeAll (coin :: taken) rest

/-- Takes the coins of a transaction; its relative lock times have to be met. A coinbase takes
none. -/
def takeInputs (c : Candidate) (s : Spending) (tx : Tx) :
    Except Rejection (List Coin × Spending) :=
  if tx.isCoinbase then .ok ([], s)
  else do
    let (coins, s) ← s.takeAll [] (tx.inputs.map TxIn.prevout)
    Verdict.demand
      (tx.meetsSequenceLocks c.rules.lockTime (coins.map Coin.height) c.branch)
      .badTransactionNonFinal
    pure (coins, s)

/-- What a transaction creates beyond the coins it spends. -/
def mintedBy (tx : Tx) (coins : List Coin) : Except Rejection Int :=
  match tx.totalOut? with
  | none => .error (.consensus .badTransactionTooLargeTotalOutput)
  | some out =>
      let valueIn := (coins.map fun coin => coin.output.value.toInt).foldr (· + ·) 0
      (fitAmount (out - valueIn)).mapError .fault

/-- Counts in the fee of a transaction, or what it mints if it stakes. -/
def account (c : Candidate) (s : Spending) (tx : Tx) (coins : List Coin) :
    Except Rejection Spending :=
  if tx.isCoinbase then .ok s
  else do
    let fee ← tx.fee coins c.height c.params
    if tx.isCoinstake then
      let minted ← mintedBy tx coins
      pure { s with minted := minted }
    else
      let fees := s.fees + fee
      Verdict.demand (fitsInt64 fees && c.params.inMoneyRange fees) .badTransactionFeeOutOfRange
      pure { s with fees := fees }

/-- Adds the coins that a transaction creates. -/
def create (s : Spending) (coins : PlacedCoins) : Spending :=
  coins.foldl
    (fun s (o, coin) =>
      { s with
        available := s.available.insert o coin
        own := s.own.insert o
        ownOrder := o :: s.ownOrder })
    s

/-- Goes through one transaction. -/
def step (c : Candidate) (s : Spending) (tx : Tx) : Except Rejection Spending := do
  let (coins, s) ← s.takeInputs c tx
  let cost := s.sigOpCost + tx.sigOpCost coins c.rules.script
  Verdict.demand (cost ≤ c.params.maxBlockSigOpsCost.toNat) .badBlockSigOps
  let s ← s.account c tx coins
  let s := s.create (tx.createdCoins c.height c.header.time)
  pure { s with inputCoins := coins :: s.inputCoins, sigOpCost := cost }

/-- Goes through all transactions. -/
def steps (c : Candidate) (s : Spending) : List Tx → Except Rejection Spending
  | [] => .ok s
  | tx :: rest => do
      let s ← s.step c tx
      s.steps c rest

/-- The coins at some places, each place counted once. -/
def collect (available : CoinSet) (acc : PlacedCoins) : List OutPoint → PlacedCoins
  | [] => acc.reverse
  | o :: rest =>
      match available[o]? with
      | some coin => collect (available.erase o) ((o, coin) :: acc) rest
      | none => collect available acc rest

/-- The coins of the block that are left, in the order they were created. -/
def created (s : Spending) : PlacedCoins :=
  collect s.available [] s.ownOrder.reverse

end Spending

/-- Checks that a block pays no more than fees and reward: in its coinbase if it was mined, in
its coinstake if it was staked. -/
def Candidate.checkReward (c : Candidate) (fees minted : Int) : Verdict := do
  let reward ←
    (Subsidy.reward (UInt32.ofNat c.height) c.isStaked c.params).mapError .fault
  if c.isStaked then Block.checkCoinstakeReward minted fees reward
  else c.block.checkCoinbaseReward fees reward

namespace CoinsRule

/-- The coins that the block spends from earlier blocks are looked up. -/
def loadCoins : CoinRule where
  name := "LoadCoinviewRule"
  readsCoins := true
  run c s := do
    let loaded ← Validation.load s ∅ (CoinSet.externalPlaces c.block)
    modify fun p => { p with loaded := loaded }

/-- No output that the block creates is there and unspent, where that is asked for. -/
def bip30 : CoinRule where
  name := "Bip30Rule"
  readsCoins := true
  run c s := do
    if c.rules.bip30 then
      let free ← CoinSet.noneAt (Validation.lookup s) c.block.outputPlaces
      Validation.demand free .badTransactionBip30

/-- The coins that the block spends are there, may be spent, and cover what it pays. -/
def spendCoins : CoinRule where
  name := "CoinViewRule"
  readsCoins := true
  run c _ := do
    let loaded := (← get).loaded
    modify fun p => { p with loaded := ∅ }
    let s ← Validation.ofExcept ((Spending.start loaded).steps c c.block.txs)
    modify fun p =>
      { p with
        inputCoins := s.inputCoins.reverse
        spent := s.spent.reverse
        created := s.created
        fees := s.fees
        minted := s.minted }
    Validation.ofExcept (c.checkReward s.fees s.minted)

/-! ## Scripts -/

/-- Runs the scripts of the inputs of a transaction from an index on, with the coins that the
transaction spends. -/
def checkInputs (c : Candidate) (s : Surroundings) (tx : Tx) (shared : TxDigests)
    (coins : List Coin) : (index : Nat) → (inputs : List TxIn) → Validation Unit
  | _, [] => pure ()
  | index, _ :: rest => do
      Validation.checkCancelled s
      match coins[index]? with
      | none => throw (.fault .outOfRange)
      | some coin => do
          Validation.ofExcept
            ((Eval.verifyInput tx index coin.output c.rules.script (some shared)).mapError
              Rejection.ofHalt)
          checkInputs c s tx shared coins (index + 1) rest

/-- Runs the scripts of all transactions but coinbases. -/
def checkTxs (c : Candidate) (s : Surroundings) : List (Tx × Option (List Coin)) → Validation Unit
  | [] => pure ()
  | (tx, coins) :: rest => do
      if !tx.isCoinbase then
        checkInputs c s tx (TxDigests.ofTx tx) (coins.getD []) 0 tx.inputs
      checkTxs c s rest

/-- Every script that guards a spent coin is satisfied. -/
def scripts : CoinRule where
  name := "CheckScriptsRule"
  readsCoins := false
  run c s := do
    let coins := (← get).inputCoins
    checkTxs c s (c.block.txs.zipIdx.map fun (tx, k) => (tx, coins[k]?))

end CoinsRule

end StakeChain
