/-
Relative lock times.

An input may ask that the coin it spends was created so many blocks, or so
much time, before the block that spends it. The locks of all inputs come
down to one height and one time, after which the transaction may stand.
-/
import StakeChain.Chain.Branch

namespace StakeChain

/-- The rules for lock times that are in force. -/
structure LockTimeRules where
  /-- Relative lock times have a meaning. -/
  sequence : Bool
  /-- Times are compared with the median time of the block before. -/
  medianTime : Bool
deriving DecidableEq, Repr

namespace LockTimeRules

/-- No rule. -/
def none : LockTimeRules :=
  ⟨false, false⟩

/-- The rules as bits, the lowest first. -/
def toNat (r : LockTimeRules) : Nat :=
  r.sequence.toNat + 2 * r.medianTime.toNat

/-- The rules of some bits. -/
def ofNat (n : Nat) : LockTimeRules :=
  ⟨n.testBit 0, n.testBit 1⟩

end LockTimeRules

/-- The last height and the last time at which a transaction may not stand yet; minus one where
there is none. -/
structure SequenceLock where
  minHeight : Int
  minTime : Int
deriving DecidableEq, Repr

namespace SequenceLock

/-- No lock. -/
def free : SequenceLock :=
  ⟨-1, -1⟩

/-- Times are counted in units of 512 seconds. -/
def timeUnit : Nat := 512

/-- The lock that one input adds, for a coin created at some height of the branch. A lock of
time counts from the median time of the block before that one. -/
def add (b : Branch) (lock : SequenceLock) (sequence : UInt32) (coinHeight : UInt32) :
    SequenceLock :=
  let s := sequence.toNat
  let value : Int := (s &&& sequenceMask : Nat)
  if s.testBit sequenceDisableBit then lock
  else if s &&& sequenceTypeFlag ≠ 0 then
    let coinTime : Int :=
      match b.ancestor? (coinHeight.toNat - 1) with
      | some a => a.lockMedian.toNat
      | none => 0
    { lock with minTime := max lock.minTime (coinTime + value * timeUnit - 1) }
  else { lock with minHeight := max lock.minHeight (coinHeight.toNat + value - 1) }

/-- The lock of a transaction in the last block of a branch, whose inputs spend coins created at
these heights. -/
def ofTx (tx : Tx) (rules : LockTimeRules) (coinHeights : List UInt32) (b : Branch) :
    SequenceLock :=
  if tx.version < 2 || !rules.sequence then free
  else
    (tx.inputs.zip coinHeights).foldl (fun lock (i, height) => lock.add b i.sequence height) free

/-- Whether a lock lets a transaction stand in the last block of a branch. -/
def opens (lock : SequenceLock) (b : Branch) : Bool :=
  let time : Int :=
    match b.parent? with
    | some p => p.lockMedian.toNat
    | none => 0
  lock.minHeight < b.height && lock.minTime < time

end SequenceLock

/-- Whether the relative lock times of a transaction let it stand in the last block of a
branch. -/
def Tx.meetsSequenceLocks (tx : Tx) (rules : LockTimeRules) (coinHeights : List UInt32)
    (b : Branch) : Bool :=
  (SequenceLock.ofTx tx rules coinHeights b).opens b

end StakeChain
