/-
The target that the next block of a branch has to have.
-/
import StakeChain.Chain.Branch
import StakeChain.Work.Retarget

namespace StakeChain.Branch

/-! ## Networks without staking -/

/-- The target of the last block that did not take the easiest one because it came late. -/
def lastRegular (p : Params) (interval : Nat) (tip : Link) : List Link → UInt32
  | [] => tip.header.bits
  | l :: rest =>
      if tip.height % interval = 0 ∨ tip.header.bits ≠ p.powLimit then tip.header.bits
      else lastRegular p interval l rest

/-- The target between two changes: the last one. Where late blocks may take the easiest one, it
is the easiest one more than two spacings after the last block, and else the last that was not
taken so. -/
def targetBetween (b : Branch) (interval : Nat) (time : UInt32) (p : Params) : UInt32 :=
  if p.powAllowMinDifficultyBlocks then
    if time.toNat > b.tip.header.time.toNat + 2 * p.powTargetSpacing.toNat then p.powLimit
    else lastRegular p interval b.tip b.below
  else b.tip.header.bits

/-- The target of the block after a branch, where nothing is staked. The period that a change
looks at starts `interval - 1` blocks before its last one. -/
def nextWork (previous : Option Branch) (time : UInt32) (p : Params) : Except Fault UInt32 :=
  match previous with
  | none => .ok p.powLimit
  | some b => do
      let interval ← p.retargetInterval
      let interval := interval.toNat
      let height ← fitWord 32 (b.height + 1)
      let phase ← remainder height interval
      if phase ≠ 0 then pure (targetBetween b interval time p)
      else
        let first := b.ancestor? (b.height - (interval - 1))
        let firstTime := (first.getD b).tip.header.time
        pure (Work.nextPeriod b.tip.header.bits b.tip.header.time firstTime p)

/-! ## Networks with staking -/

/-- The last block of a kind; the first block of all if there is none. -/
def lastOfKind (proofOfStake : Bool) (tip : Link) : List Link → Branch
  | [] => ⟨tip, []⟩
  | l :: rest =>
      if tip.isProofOfStake = proofOfStake then ⟨tip, l :: rest⟩
      else lastOfKind proofOfStake l rest

/-- The target of the block after a branch for one kind of blocks, on a network with staking: it
follows the time between the last two of that kind. The first block of all is none of them. -/
def nextOfKind (b : Branch) (proofOfStake : Bool) (limit spacing timespan : UInt32) :
    Except Fault UInt32 :=
  let last := lastOfKind proofOfStake b.tip b.below
  match last.below with
  | [] => .ok limit
  | l :: rest =>
      let before := lastOfKind proofOfStake l rest
      if before.below.isEmpty then .ok limit
      else
        Work.nextBlock last.tip.header.time last.tip.header.bits before.tip.header.time limit
          spacing timespan

/-- The target of the block after a branch. -/
def nextTarget (previous : Option Branch) (time : UInt32) (proofOfStake : Bool) (p : Params) :
    Except Fault UInt32 :=
  match p.stake with
  | none => nextWork previous time p
  | some s =>
      let limit := if proofOfStake then s.posLimit else p.powLimit
      match previous with
      | none => .ok limit
      | some b => b.nextOfKind proofOfStake limit s.targetSpacing s.targetTimespan

end StakeChain.Branch
