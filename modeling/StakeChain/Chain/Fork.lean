/-
Where branches part, and how to change from one to another.

The branch with the most work counts. To change over, the blocks above the
last common header are undone, last one first, and those of the other
branch are connected, lowest first.
-/
import StakeChain.Chain.Branch
import StakeChain.Rejection

namespace StakeChain.Branch

/-- Goes down two branches in step until their last headers have one hash. -/
def meet (a b : Link) : List Link → List Link → Option Branch
  | as, bs =>
      if a.hash = b.hash then some ⟨a, as⟩
      else
        match as, bs with
        | a' :: as, b' :: bs => meet a' b' as bs
        | _, _ => none

/-- The last common header of two branches. -/
def fork? (a b : Branch) : Option Branch := do
  let height := min a.height b.height
  let a ← a.ancestor? height
  let b ← b.ancestor? height
  meet a.tip b.tip a.below b.below

/-- The branches above some height, last one first. -/
def above (height : Nat) (tip : Link) : List Link → List Branch
  | [] => if tip.height ≤ height then [] else [⟨tip, []⟩]
  | l :: rest =>
      if tip.height ≤ height then [] else ⟨tip, l :: rest⟩ :: above height l rest

end Branch

/-- A change from one branch to another. -/
structure Reorganization where
  /-- The last common header. -/
  fork : Branch
  /-- What is undone, last one first. -/
  disconnect : List Branch
  /-- What is connected, lowest first. -/
  connect : List Branch

namespace Reorganization

/-- The number of blocks that are undone. -/
def depth (r : Reorganization) : Nat :=
  r.disconnect.length

/-- Whether a candidate counts instead of the tip: it has more work. -/
def isBetter (candidate tip : Branch) : Bool :=
  tip.tip.work.ult candidate.tip.work

/-- The change from the tip to a candidate. -/
def plan (tip candidate : Branch) : Except ConsensusError Reorganization :=
  match tip.fork? candidate with
  | none => .error .blockNotInChain
  | some fork =>
      .ok
        { fork := fork
          disconnect := Branch.above fork.height tip.tip tip.below
          connect := (Branch.above fork.height candidate.tip candidate.below).reverse }

end Reorganization

end StakeChain
