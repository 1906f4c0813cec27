/-
What rules look at.

A candidate is a block in its place, with the rules in force for it. Some
rules look at the candidate alone. The others also look up coins, in
surroundings that may change while they do, and build up the effect of the
block.
-/
import StakeChain.CoinSet
import StakeChain.Deployment.Rules

namespace StakeChain

/-- A block in its place. -/
structure Candidate where
  params : Params
  block : Block
  /-- The branch that ends with the header of the block. -/
  branch : Branch
  /-- What the network takes for the current time. -/
  adjustedTime : UInt32
  rules : BlockRules

namespace Candidate

/-- The branch that ends with the header of a block. -/
def place (previous : Option Branch) (header : BlockHeader) : Except Fault Branch :=
  match previous with
  | none => .ok (Branch.root header)
  | some b => b.extend header none

/-- A block after a branch. -/
def ofBlock (p : Params) (block : Block) (previous : Option Branch) (adjustedTime : UInt32)
    (rules : BlockRules) : Except Fault Candidate := do
  let branch ← place previous block.header
  pure ⟨p, block, branch, adjustedTime, rules⟩

/-- The branch before the block. -/
def previous? (c : Candidate) : Option Branch :=
  c.branch.parent?

/-- The height of the block. -/
def height (c : Candidate) : Nat :=
  c.branch.height

/-- The id of the block. -/
def hash (c : Candidate) : Hash256 :=
  c.branch.hash

/-- The header of the block. -/
def header (c : Candidate) : BlockHeader :=
  c.block.header

/-- Whether the block is staked, on a network where blocks may be. -/
def isStaked (c : Candidate) : Bool :=
  c.params.isProofOfStake && c.block.isProofOfStake

end Candidate

/-- A rule that looks at the candidate alone. -/
structure PlainRule where
  name : String
  check : Candidate → Verdict

/-! ## Coins -/

/-- What a validation meets while it runs. What is there may change between two lookups, so
every answer is given for the lookups made before, latest first. -/
structure Surroundings where
  /-- The coin that a lookup finds. -/
  find : List OutPoint → OutPoint → Option Coin
  /-- Whether the validation was told to stop. -/
  cancelled : List OutPoint → Bool

/-- Surroundings in which nothing changes. -/
def Surroundings.still (set : CoinSet) : Surroundings where
  find _ o := set[o]?
  cancelled _ := false

/-- The effect of a block as far as it was found, and the lookups made for it. -/
structure Progress where
  /-- The coins looked up so far, latest first. -/
  lookups : List OutPoint
  /-- The coins from earlier blocks that the block may spend. -/
  loaded : CoinSet
  /-- The coins that each transaction spends, by input. -/
  inputCoins : List (List Coin)
  /-- The coins from earlier blocks that the block spends. -/
  spent : PlacedCoins
  /-- The coins that the block leaves behind. -/
  created : PlacedCoins
  fees : Int
  /-- What the coinstake creates beyond what it spends. -/
  minted : Int
  stake : Option StakeRecord

/-- Nothing found yet. -/
def Progress.start : Progress :=
  ⟨[], ∅, [], [], [], 0, 0, none⟩

/-- A part of a validation; what it found is kept when it ends early. -/
abbrev Validation (α : Type) := EStateM Rejection Progress α

namespace Validation

/-- Ends with a reason. -/
def reject {α : Type} (e : ConsensusError) : Validation α :=
  throw (.consensus e)

/-- Ends with a reason unless the condition holds. -/
def demand (condition : Bool) (e : ConsensusError) : Validation Unit :=
  if condition then pure () else reject e

/-- Takes the outcome of a check. -/
def ofExcept {α : Type} (r : Except Rejection α) : Validation α :=
  match r with
  | .ok a => pure a
  | .error e => throw e

/-- Looks up a coin. -/
def lookup (s : Surroundings) (o : OutPoint) : Validation (Option Coin) := do
  let before := (← get).lookups
  modify fun p => { p with lookups := o :: before }
  pure (s.find before o)

/-- Ends if the validation was told to stop. -/
def checkCancelled (s : Surroundings) : Validation Unit := do
  if s.cancelled (← get).lookups then throw .cancelled else pure ()

end Validation

/-- A rule that looks up coins or builds up the effect of the block. -/
structure CoinRule where
  name : String
  /-- Whether the rule looks up coins, so that nobody may change them meanwhile. -/
  readsCoins : Bool
  run : Candidate → Surroundings → Validation Unit

end StakeChain
