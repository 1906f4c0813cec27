/-
The machine that runs a script.

Its state holds two stacks, the conditionals that are open, the count of
operations, and the part of the script that signatures commit to. Beside
that it keeps a trace of what was asked of the checker and of the events
that give those questions their meaning. Positions on the stack count from
the top, which has depth one; a step that reaches below the bottom is a
fault, unless the script was asked for that many items before.
-/
import StakeChain.Eval.Checker
import StakeChain.Eval.Error
import StakeChain.Eval.Flags
import StakeChain.Script.Number

namespace StakeChain.Eval

/-- Something of note that happened during an evaluation. -/
inductive Event where
  /-- A signature was checked. -/
  | signature (sig key : Bytes) (code : Script) (version : HashVersion) (accepted : Bool)
  /-- A lock time was checked. -/
  | lockTime (demanded : Int)
  /-- A relative lock was checked. -/
  | sequence (demanded : Int)
  /-- It was checked whether the transaction stakes. -/
  | coldStake (accepted : Bool)
  /-- A conditional took an item off the stack and opened with this value. -/
  | branch (taken : Bool)
  /-- A code separator was executed. -/
  | codeSeparator
deriving DecidableEq, Repr

/-- What stays the same during an evaluation. -/
structure Env where
  flags : Flags
  version : HashVersion
  checker : Checker

/-- The state of an evaluation. -/
structure Machine where
  /-- The main stack, top first. -/
  stack : List Bytes
  /-- The other stack, top first. -/
  alt : List Bytes
  /-- Open conditionals, innermost first: whether the current branch runs. -/
  branches : List Bool
  /-- Operations counted so far. -/
  opCount : Nat
  /-- The script after the last code separator that was executed. -/
  code : Bytes
  /-- What happened so far, latest first. -/
  trace : List Event

/-- The state before a script runs. -/
def Machine.start (stack : List Bytes) (script : Script) (trace : List Event) : Machine :=
  ⟨stack, [], [], 0, script.bytes, trace⟩

/-- A step of an evaluation. -/
abbrev Step (α : Type) := EStateM Halt Machine α

/-- Limits on evaluations. -/
def maxOpCount : Nat := 201

@[inherit_doc maxOpCount] def maxStackSize : Nat := 1000

/-- The longest number that instructions read. -/
def numberWidth : Nat := 4

/-- The longest lock time that instructions read. -/
def lockTimeWidth : Nat := 5

namespace Step

variable {α : Type}

/-- Ends with a verdict about the script. -/
def fail (e : ScriptError) : Step α :=
  throw (.error e)

/-- Ends with a fault. -/
def fault (f : Fault) : Step α :=
  throw (.fault f)

/-- Ends with a verdict unless the condition holds. -/
def demand (condition : Bool) (e : ScriptError) : Step Unit :=
  if condition then pure () else fail e

/-- The main stack. -/
def stack : Step (List Bytes) := do
  pure (← get).stack

/-- Replaces the main stack. -/
def setStack (items : List Bytes) : Step Unit :=
  modify fun m => { m with stack := items }

/-- Notes an event. -/
def note (e : Event) : Step Unit :=
  modify fun m => { m with trace := e :: m.trace }

/-- Asks for at least `n` items. -/
def require (n : Nat) : Step Unit := do
  demand (n ≤ (← stack).length) .invalidStackOperation

/-- The item at a depth. -/
def top (depth : Nat) : Step Bytes := do
  if depth = 0 then fault .outOfRange
  else
    match (← stack)[depth - 1]? with
    | some item => pure item
    | none => fault .outOfRange

/-- Puts an item on top. -/
def push (item : Bytes) : Step Unit :=
  modify fun m => { m with stack := item :: m.stack }

/-- Takes the top item; the script has to have left one. -/
def pop : Step Bytes := do
  match ← stack with
  | item :: rest => do
      setStack rest
      pure item
  | [] => fail .invalidStackOperation

/-- Drops the top item if there is one. -/
def discard : Step Unit :=
  modify fun m => { m with stack := m.stack.drop 1 }

/-- Drops the `n` top items. -/
def dropTop (n : Nat) : Step Unit := do
  let items ← stack
  if items.length < n then fault .overflow else setStack (items.drop n)

/-- Takes out the item at a depth. -/
def removeAt (depth : Nat) : Step Bytes := do
  let item ← top depth
  setStack ((← stack).eraseIdx (depth - 1))
  pure item

/-- Puts an item in, with `above` items above it. -/
def insertBelow (above : Nat) (item : Bytes) : Step Unit := do
  let items ← stack
  if items.length < above then fault .overflow
  else setStack (items.take above ++ item :: items.drop above)

/-- Swaps the items at two depths. -/
def swapAt (d e : Nat) : Step Unit := do
  let a ← top d
  let b ← top e
  setStack (((← stack).set (d - 1) b).set (e - 1) a)

/-- The number that an item stands for. -/
def number (env : Env) (item : Bytes) (width : Nat) : Step Int :=
  match ScriptNumber.decode item env.flags.minimalData width with
  | some n => pure n
  | none => fail .unknownError

/-- Pushes a number, which has to fit 64 bits. -/
def pushNumber (n : Int) : Step Unit :=
  if fitsInt64 n then push (ScriptNumber.encode n) else fault .overflow

/-- Pushes a truth value. -/
def pushBool (b : Bool) : Step Unit :=
  push (ScriptNumber.ofBool b)

/-- Takes `n` off the number of operations that are left. -/
def countOps (n : Nat) : Step Unit := do
  modify fun m => { m with opCount := m.opCount + n }
  demand ((← get).opCount ≤ maxOpCount) .opCount

/-! ## Questions to the checker -/

/-- Goes on with an answer, if there is one. -/
def answered (a : Answer) : Step Bool :=
  match a with
  | .ok b => pure b
  | .error f => fault f

/-- Asks whether a signature is valid. -/
def askSignature (env : Env) (sig key : Bytes) (code : Script) : Step Bool := do
  let a := env.checker.signature sig key code env.version
  note (.signature sig key code env.version a.isYes)
  answered a

/-- Asks whether the transaction is locked until then. -/
def askLockTime (env : Env) (demanded : Int) : Step Bool := do
  note (.lockTime demanded)
  answered (env.checker.lockTime demanded)

/-- Asks whether the input is locked for so long. -/
def askSequence (env : Env) (demanded : Int) : Step Bool := do
  note (.sequence demanded)
  answered (env.checker.sequence demanded)

/-- Asks whether the transaction stakes. -/
def askColdStake (env : Env) : Step Bool := do
  note (.coldStake env.checker.coldStake)
  pure env.checker.coldStake

end Step

end StakeChain.Eval
