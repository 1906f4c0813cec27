/-
One operation of a script, and whole scripts.

Limits and forbidden operations are looked at before it is known whether
the operation runs; inside a branch that is not taken only the operations
on conditionals run.
-/
import StakeChain.Eval.Instruction
import StakeChain.Eval.Signature

namespace StakeChain.Eval

/-- Whether a push uses the smallest operation for its data. -/
def isMinimalPush (opcode : UInt8) (data : Bytes) : Bool :=
  match data with
  | [] => opcode == Opcode.op0
  | [b] => !(1 ≤ b && b ≤ 16) && b != 0x81 && opcode == 1
  | _ =>
      let n := data.length
      if n ≤ 75 then opcode.toNat == n
      else if n ≤ 255 then opcode == Opcode.pushData1
      else if n ≤ 65535 then opcode == Opcode.pushData2
      else true

/-- Whether an item may stand as a condition in a witness script. -/
def isMinimalCondition (item : Bytes) : Bool :=
  item == [] || item == [1]

namespace Step

/-- An operation kept for upgrades. -/
def upgradable (env : Env) : Step Unit :=
  demand (!env.flags.discourageUpgradableNops) .discourageUpgradableNops

/-- Demands that the transaction is locked until a height or time. -/
def checkLockTime (env : Env) : Step Unit :=
  if env.flags.checkLockTimeVerify then do
    require 1
    let demanded ← number env (← top 1) lockTimeWidth
    demand (0 ≤ demanded) .negativeLockTime
    demand (← askLockTime env demanded) .unsatisfiedLockTime
  else upgradable env

/-- Demands that the input is locked for some blocks or some time, unless the operand says that
it is not. -/
def checkSequence (env : Env) : Step Unit :=
  if env.flags.checkSequenceVerify then do
    require 1
    let demanded ← number env (← top 1) lockTimeWidth
    demand (0 ≤ demanded) .negativeLockTime
    if !demanded.toNat.testBit sequenceDisableBit then
      demand (← askSequence env demanded) .unsatisfiedLockTime
  else upgradable env

/-- Demands that the transaction stakes. -/
def checkColdStake (env : Env) : Step Unit :=
  if env.flags.checkColdStakeVerify then do
    demand (← askColdStake env) .checkColdStakeVerify
  else upgradable env

/-- Whether every open conditional is in a branch that runs. -/
def executing (m : Machine) : Bool :=
  m.branches.all id

/-- Opens a conditional. -/
def openBranch (taken : Bool) : Step Unit :=
  modify fun m => { m with branches := taken :: m.branches }

/-- Opens a conditional, on an item where the script runs and without one where it does not. -/
def conditional (env : Env) (negated : Bool) : Step Unit := do
  if executing (← get) then
    demand (!(← stack).isEmpty) .unbalancedConditional
    let item ← top 1
    demand (!(env.version == .witnessV0 && env.flags.minimalIf) || isMinimalCondition item)
      .minimalIf
    let taken := ScriptNumber.isTrue item != negated
    discard
    note (.branch taken)
    openBranch taken
  else openBranch false

/-- Turns to the other branch of the innermost conditional. -/
def otherwise : Step Unit := do
  match (← get).branches with
  | b :: rest => modify fun m => { m with branches := (!b) :: rest }
  | [] => fail .unbalancedConditional

/-- Closes the innermost conditional. -/
def endIf : Step Unit := do
  match (← get).branches with
  | _ :: rest => modify fun m => { m with branches := rest }
  | [] => fail .unbalancedConditional

/-- Copies items at a depth to the top, `count` times. -/
def copyUp (depth : Nat) : (count : Nat) → Step Unit
  | 0 => pure ()
  | count + 1 => do
      push (← top depth)
      copyUp depth count

/-- Moves items at a depth to the top, `count` times. -/
def moveUp (depth : Nat) : (count : Nat) → Step Unit
  | 0 => pure ()
  | count + 1 => do
      push (← removeAt depth)
      moveUp depth count

/-- Brings up the item whose number is on top. -/
def fetch (env : Env) (move : Bool) : Step Unit := do
  require 2
  let n ← number env (← top 1) numberWidth
  discard
  demand (0 ≤ n && n.toNat < (← stack).length) .invalidStackOperation
  if move then moveUp (n.toNat + 1) 1 else copyUp (n.toNat + 1) 1

/-- Compares the two top items. -/
def equal (verify : Bool) : Step Unit := do
  require 2
  let b ← pop
  let a ← pop
  pushBool (a == b)
  if verify then do
    demand (a == b) .equalVerify
    discard

/-- Combines the two top numbers. -/
def binary (env : Env) (f : Binary) (verify : Bool) : Step Unit := do
  require 2
  let a ← number env (← top 2) numberWidth
  let b ← number env (← top 1) numberWidth
  dropTop 2
  pushNumber (f.apply a b)
  if verify then do
    demand (ScriptNumber.isTrue (← top 1)) .numEqualVerify
    discard

/-- Tests whether a number lies between two others, the upper one excluded. -/
def within (env : Env) : Step Unit := do
  require 3
  let x ← number env (← top 3) numberWidth
  let low ← number env (← top 2) numberWidth
  let high ← number env (← top 1) numberWidth
  dropTop 3
  pushBool (low ≤ x && x < high)

/-- Carries out an instruction; `rest` is the script after it. -/
def execute (env : Env) (rest : Bytes) : Instruction → Step Unit
  | .small n => pushNumber n
  | .nop => pure ()
  | .checkLockTime => checkLockTime env
  | .checkSequence => checkSequence env
  | .checkColdStake => checkColdStake env
  | .upgradableNop => upgradable env
  | .conditional negated => conditional env negated
  | .otherwise => otherwise
  | .endIf => endIf
  | .verify => do
      require 1
      demand (ScriptNumber.isTrue (← top 1)) .verify
      discard
  | .halt => fail .opReturn
  | .toAltStack => do
      let item ← pop
      modify fun m => { m with alt := item :: m.alt }
  | .fromAltStack => do
      match (← get).alt with
      | item :: others => do
          modify fun m => { m with alt := others }
          push item
      | [] => fail .invalidAltstackOperation
  | .drop2 => do
      require 2
      dropTop 2
  | .dup2 => do
      require 2
      copyUp 2 2
  | .dup3 => do
      require 3
      copyUp 3 3
  | .over2 => do
      require 4
      copyUp 4 2
  | .rot2 => do
      require 6
      moveUp 6 2
  | .swap2 => do
      require 4
      swapAt 4 2
      swapAt 3 1
  | .ifDup => do
      require 1
      let item ← top 1
      if ScriptNumber.isTrue item then push item
  | .depth => do
      push (ScriptNumber.encode (← stack).length)
  | .drop => do
      let _ ← pop
  | .dup => do
      require 1
      copyUp 1 1
  | .nip => do
      require 2
      let _ ← removeAt 2
  | .over1 => do
      require 2
      copyUp 2 1
  | .fetch move => fetch env move
  | .rot => do
      require 3
      swapAt 3 2
      swapAt 2 1
  | .swap => do
      require 2
      swapAt 2 1
  | .tuck => do
      require 2
      insertBelow 2 (← top 1)
  | .size => do
      require 1
      push (ScriptNumber.encode (← top 1).length)
  | .equal verify => equal verify
  | .unary f => do
      require 1
      let n ← number env (← top 1) numberWidth
      discard
      pushNumber (f.apply n)
  | .binary f verify => binary env f verify
  | .within => within env
  | .hashing h => do
      let item ← pop
      push (h.apply item)
  | .codeSeparator => do
      modify fun m => { m with code := rest }
      note .codeSeparator
  | .checkSig verify => checkSig env verify
  | .checkMultisig verify => checkMultisig env verify
  | .unknown => fail .badOpcode

/-- Whether an operation is one on conditionals, which are looked at in every branch. -/
def isOnBranches (opcode : UInt8) : Bool :=
  Opcode.ifTrue ≤ opcode && opcode ≤ Opcode.endIf

/-- Counts an operation above the pushes and refuses a disabled one. -/
def screen (opcode : UInt8) : Step Unit := do
  if opcode > Opcode.op16 then countOps 1
  demand (!Opcode.isDisabled opcode) .disabledOpcode

/-- The limit on both stacks together. -/
def demandStackSize : Step Unit := do
  let m ← get
  demand (m.stack.length + m.alt.length ≤ maxStackSize) .stackSize

/-- Carries out one operation; `rest` is the script after it. -/
def operation (env : Env) (rest : Bytes) : Op → Step Unit
  | .invalid _ => fail .badOpcode
  | .push opcode data => do
      demand (data.length ≤ maxElementSize) .pushSize
      screen opcode
      if executing (← get) then
        demand (!env.flags.minimalData || isMinimalPush opcode data) .minimalData
        push data
      demandStackSize
  | .code opcode => do
      screen opcode
      if executing (← get) || isOnBranches opcode then
        execute env rest (Instruction.ofOpcode opcode)
      demandStackSize

/-- Carries out the operations of a script one after another; there are no more of them than
bytes. -/
def operations (env : Env) : (fuel : Nat) → Bytes → Step Unit
  | 0, _ => pure ()
  | fuel + 1, bs =>
      match Op.decode bs with
      | none => pure ()
      | some (op, rest) => do
          operation env rest op
          operations env fuel rest

/-- Runs a script on a machine that was started for it. -/
def script (env : Env) (s : Script) : Step Unit := do
  demand (s.size ≤ maxScriptSize) .scriptSize
  operations env s.bytes.length s.bytes
  demand (← get).branches.isEmpty .unbalancedConditional

end Step

/-- Runs a script on a stack, top first; `trace` is what happened before. -/
def run (env : Env) (s : Script) (stack : List Bytes) (trace : List Event) :
    EStateM.Result Halt Machine Unit :=
  Step.script env s (Machine.start stack s trace)

end StakeChain.Eval
