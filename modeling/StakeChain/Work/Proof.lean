/-
Work and its proof.

A hash proves work when it is not above the target. The work that a target
stands for is the number of hashes that are expected to be tried until one
meets it: `2 ^ 256` over the target and one.
-/
import StakeChain.Work.Compact

namespace StakeChain.Work

/-- Whether a hash meets the target of a compact form that is no easier than the limit. -/
def meets (hash : Hash256) (bits limit : UInt32) : Bool :=
  match Compact.target? bits with
  | none => false
  | some target =>
      target.ule (Compact.expand limit).value && (U256.ofHash hash).ule target

/-- The work of a target. `2 ^ 256` itself is too wide, so the quotient is taken of what is
left after the divisor was taken away once. -/
def ofBits (bits : UInt32) : U256 :=
  match Compact.target? bits with
  | none => 0
  | some target =>
      match U256.checkedDiv (~~~target) (target + 1) with
      | some q => q + 1
      | none => 0

end StakeChain.Work
