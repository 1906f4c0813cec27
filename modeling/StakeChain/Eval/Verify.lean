/-
Whether a spend satisfies the script of the output it spends.

The spending script runs first and leaves its stack to the locking script.
If the locking script pays to a script hash, the script behind it runs on
what the spending script left; if either is a witness program, the witness
is run against it.
-/
import StakeChain.Eval.Step

namespace StakeChain.Eval

/-- A part of a verification; its state is what happened so far, latest first. -/
abbrev Verification (α : Type) := EStateM Halt (List Event) α

/-- The rules and the transaction of a verification. -/
structure Spend where
  flags : Flags
  checker : Checker

namespace Verification

/-- Ends with a verdict unless the condition holds. -/
def demand (condition : Bool) (e : ScriptError) : Verification Unit :=
  if condition then pure () else throw (.error e)

/-- Runs a script on a stack and gives the stack it leaves. -/
def run (spend : Spend) (version : HashVersion) (s : Script) (stack : List Bytes) :
    Verification (List Bytes) := fun trace =>
  match Eval.run ⟨spend.flags, version, spend.checker⟩ s stack trace with
  | .ok _ m => .ok m.stack m.trace
  | .error e m => .error e m.trace

/-- Demands that the top item is there and true. -/
def demandTrue (stack : List Bytes) : Verification Unit :=
  demand (stack.head?.any ScriptNumber.isTrue) .evalFalse

/-- What a witness program runs: the script, and the stack it starts on. -/
def witnessScript (witness : Witness) (program : Bytes) : Verification (Script × List Bytes) :=
  if program.length = 32 then
    match witness.reverse with
    | [] => throw (.error .witnessProgramWitnessEmpty)
    | code :: items => do
        demand ((sha256 code).bytes == program) .witnessProgramMismatch
        pure (⟨code⟩, items)
  else
    match Digest.ofBytes? 20 program with
    | some hash => do
        demand (witness.length == 2) .witnessProgramMismatch
        pure (Script.payToKeyHash hash, witness.reverse)
    | none => throw (.error .witnessProgramWrongLength)

/-- Runs a witness against a witness program. Programs of versions to come are satisfied by
anything. -/
def witnessProgram (spend : Spend) (witness : Witness) (version : Nat) (program : Bytes) :
    Verification Unit := do
  if version = 0 then
    let (code, stack) ← witnessScript witness program
    demand (stack.all fun item => item.length ≤ maxElementSize) .pushSize
    let stack ← run spend .witnessV0 code stack
    demand (stack.length == 1) .evalFalse
    demandTrue stack
  else
    demand (!spend.flags.discourageUpgradableWitnessProgram) .discourageUpgradableWitnessProgram

/-- How a verification stands after its scripts: the stack, and whether a witness was run. -/
structure Outcome where
  stack : List Bytes
  usedWitness : Bool

/-- Runs the witness if a script is a witness program, with a condition on the spending script
first. The one item that such a program leaves stays on the stack. -/
def witnessStage (spend : Spend) (locking : Script) (witness : Witness)
    (bare : Bool) (e : ScriptError) (outcome : Outcome) : Verification Outcome :=
  match locking.witnessProgram? with
  | some (version, program) =>
      if spend.flags.witness then do
        demand bare e
        witnessProgram spend witness version program
        pure ⟨outcome.stack.drop (outcome.stack.length - 1), true⟩
      else pure outcome
  | none => pure outcome

/-- Runs the script behind a script hash on the stack that the spending script left. -/
def redeemStage (spend : Spend) (scriptSig : Script) (witness : Witness)
    (left : List Bytes) (outcome : Outcome) : Verification Outcome := do
  demand scriptSig.isPushOnly .sigPushOnly
  match left with
  | [] => throw (.error .invalidStackOperation)
  | redeem :: stack => do
      let stack ← run spend .legacy ⟨redeem⟩ stack
      demandTrue stack
      witnessStage spend ⟨redeem⟩ witness (scriptSig.bytes == Script.pushData redeem)
        .witnessMalleatedP2SH { outcome with stack := stack }

/-- Whether a spend satisfies a locking script. -/
def spends (spend : Spend) (scriptSig locking : Script) (witness : Witness) :
    Verification Unit := do
  let f := spend.flags
  demand (!f.sigPushOnly || scriptSig.isPushOnly) .sigPushOnly
  let left ← run spend .legacy scriptSig []
  let stack ← run spend .legacy locking left
  demandTrue stack
  let outcome ← witnessStage spend locking witness scriptSig.bytes.isEmpty .witnessMalleated
    ⟨stack, false⟩
  let outcome ←
    if f.p2sh && locking.isScriptHash then redeemStage spend scriptSig witness left outcome
    else pure outcome
  demand (!f.cleanStack || outcome.stack.length == 1) .cleanStack
  demand (!f.witness || outcome.usedWitness || witness.isEmpty) .witnessUnexpected

end Verification

/-- Whether a spend satisfies a locking script, and what happened on the way, latest first. -/
def verifyScript (spend : Spend) (scriptSig locking : Script) (witness : Witness) :
    EStateM.Result Halt (List Event) Unit :=
  Verification.spends spend scriptSig locking witness []

/-- Whether input `index` of a transaction satisfies the output it spends. The transaction has
to have such an input. -/
def verifyInput (tx : Tx) (index : Nat) (spent : TxOut) (flags : Flags)
    (shared : Option TxDigests) : Except Halt Unit :=
  match tx.inputAt index with
  | .error f => .error (.fault f)
  | .ok input =>
      let checker := Checker.ofTx tx index spent.value shared
      match verifyScript ⟨flags, checker⟩ input.scriptSig spent.script input.witness with
      | .ok _ _ => .ok ()
      | .error e _ => .error e

end StakeChain.Eval
