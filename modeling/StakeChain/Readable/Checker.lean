/-
Checkers in readable form.

A checker is given by the transaction that spends, or by lists of what it
answers with yes; the latter stands for a transaction that nobody has made
yet.
-/
import StakeChain.Eval.Checker
import StakeChain.Readable.Ledger

namespace StakeChain.Checker

/-- Accepts the listed pairs of a signature and a key, and locks up to the given ones. -/
def ofLists (pairs : List (List Bytes)) (lockTime sequence : Option Int) (coldStake : Bool) :
    Checker where
  signature sig key _ _ := .ok (pairs.contains [sig, key])
  lockTime n := .ok (lockTime.any fun most => n ≤ most)
  sequence n := .ok (sequence.any fun most => n ≤ most)
  coldStake := coldStake

/-- Reads the lists of a checker. -/
def givenLists (j : Json) : Reading Checker := do
  let pairs : List (List Raw) ← j.fieldOr "accept" []
  pure
    (ofLists (pairs.map fun p => p.map Raw.bytes) (← j.field? "lock_time") (← j.field? "sequence")
      (← j.fieldOr "cold_stake" false))

/-- The digests of a transaction where they are wanted beforehand. -/
def sharedIf (wanted : Bool) (tx : Tx) : Option TxDigests :=
  if wanted then some (TxDigests.ofTx tx) else none

/-- Reads the transaction of a checker. -/
def givenTx (j : Json) : Reading Checker := do
  let tx ← j.field "tx"
  let shared := sharedIf (← j.fieldOr "precomputed" false) tx
  pure (ofTx tx (← j.fieldOr "index" 0) (← j.fieldOr "amount" 0) shared)

/-- Reads a checker, and whether the questions that it is asked are of interest: they are where
it answers from lists. -/
def given : Option Json → Reading (Checker × Bool)
  | none => pure (null, false)
  | some j =>
      match j.member? "mock" with
      | some lists => do pure (← givenLists lists, true)
      | none => do pure (← givenTx j, false)

end StakeChain.Checker
