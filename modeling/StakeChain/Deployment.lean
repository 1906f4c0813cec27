/-
Deployments: changes of the rules that miners vote for.

A deployment is defined, then started, then locked in by enough votes in
one window of blocks, then active; it fails when its time runs out. The
state is that of a whole window and depends on the headers before it alone,
so the states of earlier windows can be kept for later questions.
-/
import StakeChain.Chain.Branch
import StakeChain.Params

namespace StakeChain

/-- How far a deployment is. -/
inductive ThresholdState where
  | defined
  | started
  | lockedIn
  | active
  | failed
deriving DecidableEq, Repr

namespace ThresholdState

/-- The name of a state. -/
def name : ThresholdState → String
  | defined => "Defined"
  | started => "Started"
  | lockedIn => "LockedIn"
  | active => "Active"
  | failed => "Failed"

/-- The state of a name. -/
def ofName? (name : String) : Option ThresholdState :=
  [defined, started, lockedIn, active, failed].find? fun s => s.name == name

end ThresholdState

namespace Deployment

/-! ## Votes -/

/-- The top three bits of a version that votes. -/
def voteMark : Nat := 1

/-- Whether a version votes with a bit; there are 32 of them. -/
def signals (version : Int32) (bit : UInt8) : Except Fault Bool :=
  let v := version.toUInt32.toNat
  if v / 0x20000000 ≠ voteMark then .ok false
  else if bit.toNat < 32 then .ok (v.testBit bit.toNat)
  else .error .overflow

/-- Adds the votes in some headers to a count. -/
def countVotes (bit : UInt8) (count : Nat) : List Link → Except Fault Nat
  | [] => .ok count
  | l :: rest => do
      let vote ← signals l.header.version bit
      countVotes bit (count + vote.toNat) rest

/-- The votes among the last headers of a branch. -/
def votes (b : Branch) (period : Nat) (bit : UInt8) : Except Fault Nat :=
  countVotes bit 0 (b.links.take period)

/-! ## One window to the next -/

/-- The state after a window, from the state in it. The branch ends with the window, and its
median time is given. -/
def next (p : Params) (d : DeploymentParams) (window : Branch) (median : Nat) :
    ThresholdState → Except Fault ThresholdState
  | .defined =>
      if d.timeout.toInt ≤ median then .ok .failed
      else if d.startTime.toInt ≤ median then .ok .started
      else .ok .defined
  | .started =>
      if d.timeout.toInt ≤ median then .ok .failed
      else do
        let count ← votes window p.minerConfirmationWindow.toNat d.bit
        if p.ruleChangeActivationThreshold.toNat ≤ count then pure .lockedIn
        else pure .started
  | .lockedIn => .ok .active
  | .active => .ok .active
  | .failed => .ok .failed

/-- The last window that is complete at the end of a branch, as the branch that ends with it. -/
def lastWindow? (p : Params) (b : Branch) : Except Fault (Option Branch) := do
  let height ← fitWord 32 (b.height + 1)
  let left ← remainder height p.minerConfirmationWindow.toNat
  pure (if left ≤ b.height then b.ancestor? (b.height - left) else none)

/-- The window before a window. -/
def windowBefore? (p : Params) (window : Branch) : Option Branch :=
  let period := p.minerConfirmationWindow.toNat
  if period ≤ window.height then window.ancestor? (window.height - period) else none

/-! ## Known states -/

/-- States that were found before: by deployment, and by the last hash of the window after which
they hold. The latest one counts. -/
abbrev Cache := List ((Nat × Hash256) × ThresholdState)

/-- A question about a state, which may add to the known ones. -/
abbrev Query := StateT Cache (Except Fault)

/-- Keeps the state after a window. -/
def remember (index : Nat) (window : Branch) (s : ThresholdState) : Query ThresholdState := do
  modify (((index, window.hash), s) :: ·)
  pure s

/-- The windows that have to be looked at, lowest first, above a state that is known, and that
state. A window is known if its state was found before, or if it ends before the votes start.
The fuel bounds the number of windows. -/
def pending (p : Params) (index : Nat) (d : DeploymentParams) :
    (fuel : Nat) → Option Branch → List (Branch × Nat) →
      Query (ThresholdState × List (Branch × Nat))
  | _, none, later => pure (.defined, later)
  | 0, some _, later => pure (.defined, later)
  | fuel + 1, some window, later => do
      match (← get).lookup (index, window.hash) with
      | some s => pure (s, later)
      | none =>
          let median := (← window.medianTime p.medianTimeSpan.toNat).toNat
          if median < d.startTime.toInt then
            let s ← remember index window .defined
            pure (s, later)
          else pending p index d fuel (windowBefore? p window) ((window, median) :: later)

/-- Goes through windows, lowest first, and keeps the state after each. -/
def advance (p : Params) (index : Nat) (d : DeploymentParams) (s : ThresholdState) :
    List (Branch × Nat) → Query ThresholdState
  | [] => pure s
  | (window, median) :: rest => do
      let s ← next p d window median s
      let s ← remember index window s
      advance p index d s rest

/-- The state of a deployment for the block after a branch. -/
def state (p : Params) (index : Nat) (previous : Option Branch) : Query ThresholdState :=
  match p.deployment? index with
  | none => pure .defined
  | some d =>
      if d.startTime = DeploymentParams.alwaysActiveTime then pure .active
      else
        match previous with
        | none => pure .defined
        | some b => do
            let window ← lastWindow? p b
            let (s, windows) ← pending p index d b.links.length window []
            advance p index d s windows

/-- Whether a deployment is active for the block after a branch. -/
def isActive (p : Params) (index : Nat) (previous : Option Branch) : Query Bool := do
  pure ((← state p index previous) == .active)

end Deployment

end StakeChain
