/-
How a block is validated.

Four phases follow each other, each a list of rules; the first rule that
fails ends the validation and names the reason. The first three look at the
candidate alone. The fourth looks up coins. Scripts are run while others
may change the coins, so the spent ones are looked up once more in the end.
-/
import StakeChain.Validation.Body
import StakeChain.Validation.Coins
import StakeChain.Validation.Header
import StakeChain.Validation.Staking

namespace StakeChain

/-! ## The rules of a network -/

namespace Params

/-- Some rules where blocks may be staked, none elsewhere. -/
def whereStaked {α : Type} (p : Params) (rules : List α) : List α :=
  if p.isProofOfStake then rules else []

/-- The rules about headers. -/
def headerRules (_ : Params) : List PlainRule :=
  [HeaderRule.previous, HeaderRule.time, HeaderRule.difficulty, HeaderRule.work,
   HeaderRule.version, HeaderRule.checkpoint]

/-- The rules about the body as a whole. -/
def integrityRules (p : Params) : List PlainRule :=
  [BodyRule.merkleRoot, BodyRule.coinbase, BodyRule.size]
    ++ p.whereStaked [StakeRule.blockType, StakeRule.signature]
    ++ [BodyRule.commitment, BodyRule.weight]

/-- The rules about transactions by themselves. -/
def partialRules (p : Params) : List PlainRule :=
  [BodyRule.transactions, BodyRule.sigOps, BodyRule.lockTime, BodyRule.coinbaseHeight]
    ++ p.whereStaked [StakeRule.timeMask, StakeRule.coinstakeShape]

/-- The rules about coins. -/
def coinRules (p : Params) : List CoinRule :=
  [CoinsRule.loadCoins, CoinsRule.bip30, CoinsRule.spendCoins]
    ++ p.whereStaked [StakeRule.proofOfStake, StakeRule.coldStaking]
    ++ [CoinsRule.scripts]

/-- The rules of the first three phases. -/
def plainRules (p : Params) : List PlainRule :=
  p.headerRules ++ p.integrityRules ++ p.partialRules

/-- The names of all rules in the order in which they are applied. -/
def ruleNames (p : Params) : List String :=
  p.plainRules.map PlainRule.name ++ p.coinRules.map CoinRule.name

end Params

namespace PlainRule

/-- Every rule that looks at the candidate alone. -/
def all : List PlainRule :=
  Params.stakeRegtest.plainRules

/-- The rule of a name. -/
def ofName? (name : String) : Option PlainRule :=
  all.find? fun r => r.name == name

end PlainRule

namespace CoinRule

/-- Every rule about coins. -/
def all : List CoinRule :=
  Params.stakeRegtest.coinRules

/-- The rule of a name. -/
def ofName? (name : String) : Option CoinRule :=
  all.find? fun r => r.name == name

end CoinRule

/-! ## Validation -/

namespace Candidate

/-- Applies rules in order. -/
def checkAll (c : Candidate) (rules : List PlainRule) : Verdict :=
  rules.forM fun r => r.check c

/-- The first three phases. -/
def checkPlain (c : Candidate) : Verdict :=
  c.checkAll c.params.plainRules

/-- Applies rules about coins in order, unless told to stop. -/
def runAll (c : Candidate) (s : Surroundings) : List CoinRule → Validation Unit
  | [] => pure ()
  | r :: rest => do
      Validation.checkCancelled s
      r.run c s
      c.runAll s rest

end Candidate

/-- What a block was found to do. -/
structure Validated where
  /-- The branch that ends with the block, with its stake record if it has one. -/
  branch : Branch
  /-- What the block takes away. -/
  undo : Undo
  /-- What the block leaves behind. -/
  created : PlacedCoins
  stake : Option StakeRecord
  fees : Int

namespace Validated

/-- The coins after the block. -/
def applyTo (v : Validated) (set : CoinSet) : CoinSet :=
  set.change (v.undo.spent.map (·.1)) v.created

end Validated

namespace Candidate

/-- Looks up spent coins once more: they have to be as they were. -/
def confirmSpent (s : Surroundings) : PlacedCoins → Validation Unit
  | [] => pure ()
  | (o, coin) :: rest => do
      let found ← Validation.lookup s o
      Validation.demand (found == some coin) .badTransactionMissingInput
      confirmSpent s rest

/-- What a block does, as found by the rules. -/
def outcome (c : Candidate) (p : Progress) : Validated where
  branch := { c.branch with tip := { c.branch.tip with stake := p.stake } }
  undo := ⟨p.spent⟩
  created := p.created
  stake := p.stake
  fees := p.fees

/-- The fourth phase. -/
def runCoins (c : Candidate) (s : Surroundings) : Validation Validated := do
  set Progress.start
  let rules := c.params.coinRules
  c.runAll s rules
  Validation.checkCancelled s
  if rules.any fun r => !r.readsCoins then confirmSpent s (← get).spent
  pure (c.outcome (← get))

/-- The fourth phase, from what is found around. -/
def validateCoins (c : Candidate) (s : Surroundings) : Except Rejection Validated :=
  match c.runCoins s Progress.start with
  | .ok v _ => .ok v
  | .error e _ => .error e

/-- The fourth phase against a set of coins, of which the surroundings are made. The set is
changed once, after everything else. -/
def commitCoins (c : Candidate) (around : CoinSet → Surroundings) :
    EStateM Rejection CoinSet Validated := do
  let set ← get
  match c.validateCoins (around set) with
  | .error e => throw e
  | .ok v =>
      modify v.applyTo
      pure v

/-- All four phases. -/
def validate (c : Candidate) (s : Surroundings) : Except Rejection Validated := do
  c.checkPlain
  c.validateCoins s

end Candidate

/-! ## Blocks -/

namespace Block

/-- A block after a branch, under the rules that follow from the branch. -/
def candidate (b : Block) (p : Params) (previous : Option Branch) (adjustedTime : UInt32) :
    Deployment.Query Candidate := do
  let rules ← BlockRules.ofBlock p previous b.header
  Candidate.ofBlock p b previous adjustedTime rules

/-- Validates a block after a branch against a set of coins; the branch with the block, and the
coins after it. -/
def connect (b : Block) (p : Params) (previous : Option Branch) (adjustedTime : UInt32)
    (set : CoinSet) : Deployment.Query (Except Rejection (Validated × CoinSet)) := do
  let c ← b.candidate p previous adjustedTime
  pure ((c.validate (.still set)).map fun v => (v, v.applyTo set))

end Block

end StakeChain
