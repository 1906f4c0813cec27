/-
What blocks may pay to their makers.

The subsidy of mined blocks halves at regular heights. Staked blocks have a
flat reward, and one mined block of a staking network may have a reward of
its own.
-/
import StakeChain.Params

namespace StakeChain.Subsidy

/-- After that many halvings nothing is left. -/
def maxHalvings : Nat := 64

/-- The initial subsidy after some halvings, each rounded down. -/
def halved (p : Params) (halvings : Nat) : Int :=
  if halvings < maxHalvings then p.initialSubsidy.toInt >>> halvings else 0

/-- The subsidy at a height. -/
def atHeight (height : UInt32) (p : Params) : Except Fault Int := do
  let halvings ← quotient height.toNat p.subsidyHalvingInterval.toNat
  pure (halved p halvings)

/-- The reward of a mined block, without fees. -/
def mined (height : UInt32) (p : Params) : Except Fault Int :=
  match p.stake with
  | some s =>
      if s.premineHeight ≠ 0 ∧ height = s.premineHeight then .ok s.premineReward.toInt
      else atHeight height p
  | none => atHeight height p

/-- The reward of a staked block, without fees. -/
def staked (p : Params) : Int :=
  match p.stake with
  | some s => s.posReward.toInt
  | none => 0

/-- The reward of a block of either kind, without fees. -/
def reward (height : UInt32) (proofOfStake : Bool) (p : Params) : Except Fault Int :=
  if proofOfStake then .ok (staked p) else mined height p

/-- Adds the subsidies of `halvings` halvings and later ones to a sum; `fuel` of them are
left to look at. -/
def supplyFrom (p : Params) (blocks : Int) (total : Int) :
    (fuel : Nat) → (halvings : Nat) → Except Fault Int
  | 0, _ => .ok total
  | fuel + 1, halvings => do
      let interval : Int := p.subsidyHalvingInterval.toNat
      let start := halvings * interval
      if start ≥ blocks then pure total
      else
        let part ← fitAmount (min (blocks - start) interval * halved p halvings)
        let total ← fitAmount (total + part)
        supplyFrom p blocks total fuel (halvings + 1)

/-- The sum of all subsidies up to a height. -/
def supply (height : UInt32) (p : Params) : Except Fault Int :=
  supplyFrom p (height.toNat + 1) 0 maxHalvings 0

end StakeChain.Subsidy
