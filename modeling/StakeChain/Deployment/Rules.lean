/-
The rules in force for one block.

Older rules hold from a time or a height on, newer ones from the time their
deployment is active.
-/
import StakeChain.Chain.SequenceLock
import StakeChain.Deployment
import StakeChain.Eval.Flags

namespace StakeChain

/-- The rules in force for one block. -/
structure BlockRules where
  script : Flags
  lockTime : LockTimeRules
  /-- No transaction may create an output that is there and unspent. -/
  bip30 : Bool
  /-- The coinbase starts with the height. -/
  bip34 : Bool
deriving DecidableEq, Repr

namespace BlockRules

/-- The place of relative lock times among the deployments. -/
def csvIndex : Nat := 0

/-- The place of witnesses among the deployments. -/
def segwitIndex : Nat := 1

/-- The place of cold staking among the deployments. -/
def coldStakingIndex : Nat := 2

/-- The height of the block after a branch. -/
def heightAfter (previous : Option Branch) : Except Fault Nat :=
  match previous with
  | none => .ok 0
  | some b => fitWord 32 (b.height + 1)

/-- The rules for the block with a header after a branch. -/
def ofBlock (p : Params) (previous : Option Branch) (header : BlockHeader) :
    Deployment.Query BlockRules := do
  let height ← heightAfter previous
  let csv ← Deployment.isActive p csvIndex previous
  let segwit ← Deployment.isActive p segwitIndex previous
  let coldStaking ← Deployment.isActive p coldStakingIndex previous
  let bip34 := decide (p.bip34Height.toNat ≤ height)
  pure
    { script :=
        { Flags.none with
          p2sh := p.bip16Time ≤ header.time
          derSignatures := p.bip66Height.toNat ≤ height
          checkLockTimeVerify := p.bip65Height.toNat ≤ height
          checkSequenceVerify := csv
          witness := segwit
          nullDummy := segwit
          checkColdStakeVerify := coldStaking }
      lockTime := ⟨csv, csv⟩
      bip30 := !bip34
      bip34 := bip34 }

end BlockRules

end StakeChain
