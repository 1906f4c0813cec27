/-
Broken promises.

Some functions rely on their caller: an index that is in range, a divisor
that is not zero, a sum that fits. Where the promise is broken there is no
verdict about the input, and the outcome is a fault instead of an error.
-/

namespace StakeChain

/-- Which promise was broken. -/
inductive Fault where
  /-- A position outside of the sequence it points into. -/
  | outOfRange
  /-- A division by zero. -/
  | divisionByZero
  /-- A result that does not fit its width. -/
  | overflow
deriving DecidableEq, Repr

/-- A result that has to fit an unsigned word of so many bits. -/
def fitWord (width : Nat) (n : Nat) : Except Fault Nat :=
  if n < Nat.pow 2 width then .ok n else .error .overflow

/-- A difference that may not be negative. -/
def difference (a b : Nat) : Except Fault Nat :=
  if b ≤ a then .ok (a - b) else .error .overflow

/-- Whether a number fits 64 bits with a sign. -/
def fitsInt64 (n : Int) : Bool :=
  Int64.minValue.toInt ≤ n && n ≤ Int64.maxValue.toInt

/-- A result that has to fit 64 bits with a sign. -/
def fitAmount (n : Int) : Except Fault Int :=
  if fitsInt64 n then .ok n else .error .overflow

/-- A quotient whose divisor may not be zero. -/
def quotient (a b : Nat) : Except Fault Nat :=
  if b = 0 then .error .divisionByZero else .ok (a / b)

/-- A remainder whose divisor may not be zero. -/
def remainder (a b : Nat) : Except Fault Nat :=
  if b = 0 then .error .divisionByZero else .ok (a % b)

end StakeChain
