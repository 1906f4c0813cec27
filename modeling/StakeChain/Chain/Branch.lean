/-
Headers in their place.

Every header names the one before it, so a header of the tree stands for
the branch that ends with it. A branch is its last header together with
those below, nearest first, as far as they are known.
-/
import StakeChain.Stake.Record
import StakeChain.Fault
import StakeChain.Work.Proof

namespace StakeChain

/-- A header with its height and what is kept beside it. -/
structure Link where
  header : BlockHeader
  hash : Hash256
  height : Nat
  /-- The work of the branch up to this header. -/
  work : U256
  /-- The stake record of the block, once it was validated where blocks may be staked. -/
  stake : Option StakeRecord
deriving DecidableEq

/-- Whether the block was staked. -/
def Link.isProofOfStake (l : Link) : Bool :=
  l.stake.any StakeRecord.isProofOfStake

/-- A header and those below it, nearest first. -/
structure Branch where
  tip : Link
  below : List Link
deriving DecidableEq

namespace Branch

/-! ## Growth -/

/-- The branch that starts with a header. -/
def root (header : BlockHeader) : Branch :=
  ⟨⟨header, header.id, 0, Work.ofBits header.bits, none⟩, []⟩

/-- The branch with one header more. Heights are 32-bit words. -/
def extend (b : Branch) (header : BlockHeader) (stake : Option StakeRecord) :
    Except Fault Branch := do
  let height ← fitWord 32 (b.tip.height + 1)
  let link : Link :=
    { header := header
      hash := header.id
      height := height
      work := b.tip.work + Work.ofBits header.bits
      stake := stake }
  pure ⟨link, b.tip :: b.below⟩

/-! ## Walking down -/

/-- All headers, last one first. -/
def links (b : Branch) : List Link :=
  b.tip :: b.below

/-- The height of the last header. -/
def height (b : Branch) : Nat := b.tip.height

/-- The hash of the last header. -/
def hash (b : Branch) : Hash256 := b.tip.hash

/-- The branch without its last header. -/
def parent? (b : Branch) : Option Branch :=
  match b.below with
  | [] => none
  | l :: rest => some ⟨l, rest⟩

/-- Goes down until the last header is no higher than asked. -/
def descend (height : Nat) (tip : Link) : List Link → Option Branch
  | [] => if tip.height ≤ height then some ⟨tip, []⟩ else none
  | l :: rest => if tip.height ≤ height then some ⟨tip, l :: rest⟩ else descend height l rest

/-- The branch up to some height. -/
def ancestor? (b : Branch) (height : Nat) : Option Branch :=
  if height > b.height then none else descend height b.tip b.below

/-! ## Median times -/

/-- The number of headers in the median that lock times are compared with. -/
def medianSpan : Nat := 11

/-- The times of the last headers. -/
def times (b : Branch) (span : Nat) : List UInt32 :=
  (b.links.take span).map fun l => l.header.time

/-- The middle one of some times; the later of two. -/
def median? (times : List UInt32) : Option UInt32 :=
  (times.mergeSort fun a b => a ≤ b)[times.length / 2]?

/-- The median time of the last headers. There has to be one. -/
def medianTime (b : Branch) (span : Nat) : Except Fault UInt32 :=
  match median? (b.times span) with
  | some t => .ok t
  | none => .error .outOfRange

/-- The median time that lock times are compared with. -/
def lockMedian (b : Branch) : UInt32 :=
  (median? (b.times medianSpan)).getD b.tip.header.time

end Branch

end StakeChain
