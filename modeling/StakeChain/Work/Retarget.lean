/-
How targets follow the time that blocks take.

Mined blocks change their target once in a while, in proportion to the time
the last blocks took. On networks with staking every block changes it, by a
weighted mean of the time it should have taken and the time it took.
-/
import StakeChain.Params
import StakeChain.Work.Compact

namespace StakeChain.Work

/-- A target times a fraction, rounded down; the limit where the product does not fit or the
divisor is zero. -/
def scaled (target limit : U256) (factor divisor : Nat) : U256 :=
  match U256.checkedMul target (UInt64.ofNat factor) with
  | none => limit
  | some product =>
      (U256.checkedDiv product (U256.ofUInt64 (UInt64.ofNat divisor))).getD limit

/-- A number moved into an interval. -/
def clamp (n low high : Int) : Int :=
  if n < low then low else if n > high then high else n

/-- The target after a period: the last one in proportion to the time the period took, which
counts as at least a quarter and at most four times of what it should be. -/
def nextPeriod (bits : UInt32) (lastTime firstTime : UInt32) (p : Params) : UInt32 :=
  if p.powNoRetargeting then bits
  else
    let timespan : Nat := p.powTargetTimespan.toNat
    let actual := clamp ((lastTime.toNat : Int) - firstTime.toNat) (timespan / 4 : Nat)
      (timespan * 4 : Nat)
    let limit := (Compact.expand p.powLimit).value
    let target := scaled (Compact.expand bits).value limit actual.toNat timespan
    Compact.ofValue (if target.ule limit then target else limit)

/-- The target after a block that took `firstTime - secondTime`, or ten times its share where it
took longer. -/
def nextBlock (firstTime bits secondTime limitBits spacing timespan : UInt32) :
    Except Fault UInt32 := do
  let spacing := spacing.toNat
  let actual := min (firstTime.toNat - secondTime.toNat) (spacing * 10)
  let interval ← quotient timespan.toNat spacing
  let limit := (Compact.expand limitBits).value
  let target := scaled (Compact.expand bits).value limit
    ((interval - 1) * spacing + 2 * actual) ((interval + 1) * spacing)
  pure (Compact.ofValue (if target != 0 && target.ule limit then target else limit))

end StakeChain.Work
