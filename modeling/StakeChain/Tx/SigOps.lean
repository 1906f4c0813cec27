/-
Signature operations of transactions.

Scripts are counted before they run, so that a block can be bounded by what
its scripts may cost. Operations in witnesses cost one, all others four.
-/
import StakeChain.Coin
import StakeChain.Eval.Flags

namespace StakeChain

/-- What an operation outside of witnesses costs. -/
def sigOpScale : Nat := 4

/-- The operations of a witness program. -/
def witnessProgramSigOps (version : Nat) (program : Bytes) (witness : Witness) : Nat :=
  if version ≠ 0 then 0
  else if program.length = 20 then 1
  else if program.length = 32 then
    match witness.getLast? with
    | some script => Script.sigOpCount ⟨script⟩ true
    | none => 0
  else 0

/-- The program that a spend of a script runs, if any: that of the script itself, or that of the
script behind its hash. -/
def spentProgram? (scriptSig locking : Script) : Option (Nat × Bytes) :=
  match locking.witnessProgram? with
  | some program => some program
  | none =>
      if locking.isScriptHash && scriptSig.isPushOnly then
        scriptSig.lastPush?.bind fun redeem => Script.witnessProgram? ⟨redeem⟩
      else none

/-- The operations in the witness of a spend, where witnesses are run. -/
def witnessSigOps (scriptSig locking : Script) (witness : Witness) (flags : Flags) : Nat :=
  if flags.witness then
    match spentProgram? scriptSig locking with
    | some (version, program) => witnessProgramSigOps version program witness
    | none => 0
  else 0

namespace Tx

/-- The plain count over all scripts that the transaction holds. -/
def legacySigOps (tx : Tx) : Nat :=
  (tx.inputs.map fun i => i.scriptSig.sigOpCount false).foldr (· + ·) 0
    + (tx.outputs.map fun o => o.script.sigOpCount false).foldr (· + ·) 0

/-- The accurate count over the scripts behind the script hashes that are spent. -/
def p2shSigOps (tx : Tx) (coins : List Coin) : Nat :=
  if tx.isCoinbase then 0
  else
    ((tx.inputs.zip coins).map fun (i, coin) =>
      if coin.output.script.isScriptHash then coin.output.script.p2shSigOpCount i.scriptSig
      else 0).foldr (· + ·) 0

/-- The counts of the witnesses, input by input. -/
def witnessSigOpsList (tx : Tx) (coins : List Coin) (flags : Flags) : List Nat :=
  (tx.inputs.zip coins).map fun (i, coin) =>
    witnessSigOps i.scriptSig coin.output.script i.witness flags

/-- The cost of all operations. -/
def sigOpCost (tx : Tx) (coins : List Coin) (flags : Flags) : Nat :=
  let legacy := tx.legacySigOps * sigOpScale
  if tx.isCoinbase then legacy
  else
    legacy + (if flags.p2sh then tx.p2shSigOps coins * sigOpScale else 0)
      + (tx.witnessSigOpsList coins flags).foldr (· + ·) 0

end Tx

end StakeChain
