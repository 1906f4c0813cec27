/-
Rules about headers: the place of a block, its time, its target and its
version.
-/
import StakeChain.Chain.Target
import StakeChain.Validation.Candidate

namespace StakeChain.HeaderRule

/-- The header names the block before it; the first block names zero. -/
def previous : PlainRule where
  name := "PrevBlockRule"
  check c :=
    let expected := (c.previous?.map Branch.hash).getD Digest.zero
    Verdict.demand (c.header.prev == expected) .badPrevBlock

/-- The time is after the median of the last headers, where there are any. -/
def checkMedian (c : Candidate) : Verdict :=
  match c.previous? with
  | none => .ok ()
  | some b => do
      let median ← (b.medianTime c.params.medianTimeSpan.toNat).mapError .fault
      Verdict.demand (median < c.header.time) .timeTooOld

/-- The time is after the median of the last headers, and not too far ahead. -/
def time : PlainRule where
  name := "HeaderTimeChecksRule"
  check c := do
    checkMedian c
    Verdict.demand
      (c.header.time.toNat ≤ c.adjustedTime.toNat + c.params.maxFutureBlockTime.toNat)
      .timeTooNew

/-- The target is the one that follows from the branch. -/
def difficulty : PlainRule where
  name := "CheckDifficultyRule"
  check c := do
    let expected ←
      (Branch.nextTarget c.previous? c.header.time c.block.isProofOfStake c.params).mapError
        .fault
    Verdict.demand (c.header.bits == expected) .badDiffBits

/-- A mined block has the work that its target asks for. A staked one proves its stake later. -/
def work : PlainRule where
  name := "HeaderProofOfWorkRule"
  check c :=
    Verdict.demand (c.isStaked || Work.meets c.hash c.header.bits c.params.powLimit) .highHash

/-- Whether a version was given up before a height. -/
def isRetired (p : Params) (version : Int32) (height : Nat) : Bool :=
  (version < 2 && p.bip34Height.toNat ≤ height)
    || (version < 3 && p.bip66Height.toNat ≤ height)
    || (version < 4 && p.bip65Height.toNat ≤ height)

/-- The version is not one that was given up before that height. -/
def version : PlainRule where
  name := "HeaderVersionRule"
  check c := Verdict.demand (!isRetired c.params c.header.version c.height) .badVersion

/-- Where the network says which block stands at a height, it is this one. -/
def checkpoint : PlainRule where
  name := "CheckpointsRule"
  check c :=
    Verdict.demand (c.params.checkpoints[UInt32.ofNat c.height]?.all (· == c.hash))
      .checkpointViolation

end StakeChain.HeaderRule
