/-
The instructions behind the operations above the pushes.

Operations that differ only in a function or a test share one instruction.
-/
import StakeChain.Hash.Compose
import StakeChain.Script.Opcode
import StakeChain.Bytes.Digest

namespace StakeChain.Eval

/-- Instructions on one number. -/
inductive Unary where
  | add1
  | sub1
  | negate
  | abs
  | isZero
  | isNonzero
deriving DecidableEq, Repr

/-- Instructions on two numbers. -/
inductive Binary where
  | add
  | sub
  | boolAnd
  | boolOr
  | equal
  | notEqual
  | less
  | greater
  | lessOrEqual
  | greaterOrEqual
  | min
  | max
deriving DecidableEq, Repr

/-- Instructions that hash an item. -/
inductive Hashing where
  | ripemd160
  | sha1
  | sha256
  | hash160
  | hash256
deriving DecidableEq, Repr

/-- Truth as a number. -/
def truth (b : Bool) : Int :=
  if b then 1 else 0

/-- The result of an instruction on one number. -/
def Unary.apply (n : Int) : Unary → Int
  | add1 => n + 1
  | sub1 => n - 1
  | negate => -n
  | abs => n.natAbs
  | isZero => truth (n == 0)
  | isNonzero => truth (n != 0)

/-- The result of an instruction on two numbers. -/
def Binary.apply (a b : Int) : Binary → Int
  | add => a + b
  | sub => a - b
  | boolAnd => truth (a != 0 && b != 0)
  | boolOr => truth (a != 0 || b != 0)
  | equal => truth (a == b)
  | notEqual => truth (a != b)
  | less => truth (a < b)
  | greater => truth (a > b)
  | lessOrEqual => truth (a ≤ b)
  | greaterOrEqual => truth (a ≥ b)
  | min => Min.min a b
  | max => Max.max a b

/-- The digest of an item. -/
def Hashing.apply (item : Bytes) : Hashing → Bytes
  | ripemd160 => (StakeChain.ripemd160 item).bytes
  | sha1 => (StakeChain.sha1 item).bytes
  | sha256 => (StakeChain.sha256 item).bytes
  | hash160 => (StakeChain.hash160 item).bytes
  | hash256 => (StakeChain.hash256 item).bytes

/-- What an operation does. -/
inductive Instruction where
  /-- Pushes a small number. -/
  | small (n : Int)
  | nop
  | checkLockTime
  | checkSequence
  | checkColdStake
  /-- Does nothing and is kept for upgrades. -/
  | upgradableNop
  /-- Opens a conditional on the top item, or on its negation. -/
  | conditional (negated : Bool)
  | otherwise
  | endIf
  | verify
  /-- Fails the script. -/
  | halt
  | toAltStack
  | fromAltStack
  | drop2
  | dup2
  | dup3
  | over2
  | rot2
  | swap2
  | ifDup
  | depth
  | drop
  | dup
  | nip
  | over1
  /-- Brings up an item by its number, as a copy or by moving it. -/
  | fetch (move : Bool)
  | rot
  | swap
  | tuck
  | size
  /-- Compares two items; with `verify` they have to be equal. -/
  | equal (verify : Bool)
  | unary (f : Unary)
  /-- Combines two numbers; with `verify` the result has to be true. -/
  | binary (f : Binary) (verify : Bool)
  | within
  | hashing (h : Hashing)
  | codeSeparator
  /-- Checks a signature; with `verify` it has to be valid. -/
  | checkSig (verify : Bool)
  /-- Checks several signatures; with `verify` they have to be valid. -/
  | checkMultisig (verify : Bool)
  /-- Nothing that a script may do. -/
  | unknown
deriving DecidableEq, Repr

namespace Instruction

/-- The instructions by operation, small numbers apart. -/
def table : List (UInt8 × Instruction) :=
  [(Opcode.nop, nop),
   (Opcode.checkLockTimeVerify, checkLockTime),
   (Opcode.checkSequenceVerify, checkSequence),
   (Opcode.checkColdStakeVerify, checkColdStake),
   (Opcode.nop1, upgradableNop),
   (Opcode.nop4, upgradableNop),
   (Opcode.nop5, upgradableNop),
   (Opcode.nop6, upgradableNop),
   (Opcode.nop7, upgradableNop),
   (Opcode.nop8, upgradableNop),
   (Opcode.nop9, upgradableNop),
   (Opcode.ifTrue, conditional false),
   (Opcode.ifFalse, conditional true),
   (Opcode.otherwise, otherwise),
   (Opcode.endIf, endIf),
   (Opcode.verify, verify),
   (Opcode.halt, halt),
   (Opcode.toAltStack, toAltStack),
   (Opcode.fromAltStack, fromAltStack),
   (Opcode.drop2, drop2),
   (Opcode.dup2, dup2),
   (Opcode.dup3, dup3),
   (Opcode.over2, over2),
   (Opcode.rot2, rot2),
   (Opcode.swap2, swap2),
   (Opcode.ifDup, ifDup),
   (Opcode.depth, depth),
   (Opcode.drop, drop),
   (Opcode.dup, dup),
   (Opcode.nip, nip),
   (Opcode.over1, over1),
   (Opcode.pick, fetch false),
   (Opcode.roll, fetch true),
   (Opcode.rot, rot),
   (Opcode.swap, swap),
   (Opcode.tuck, tuck),
   (Opcode.size, size),
   (Opcode.equal, equal false),
   (Opcode.equalVerify, equal true),
   (Opcode.add1, unary .add1),
   (Opcode.sub1, unary .sub1),
   (Opcode.negate, unary .negate),
   (Opcode.abs, unary .abs),
   (Opcode.isZero, unary .isZero),
   (Opcode.isNonzero, unary .isNonzero),
   (Opcode.add, binary .add false),
   (Opcode.sub, binary .sub false),
   (Opcode.boolAnd, binary .boolAnd false),
   (Opcode.boolOr, binary .boolOr false),
   (Opcode.numEqual, binary .equal false),
   (Opcode.numEqualVerify, binary .equal true),
   (Opcode.numNotEqual, binary .notEqual false),
   (Opcode.lessThan, binary .less false),
   (Opcode.greaterThan, binary .greater false),
   (Opcode.lessOrEqual, binary .lessOrEqual false),
   (Opcode.greaterOrEqual, binary .greaterOrEqual false),
   (Opcode.min, binary .min false),
   (Opcode.max, binary .max false),
   (Opcode.within, within),
   (Opcode.ripemd160, hashing .ripemd160),
   (Opcode.sha1, hashing .sha1),
   (Opcode.sha256, hashing .sha256),
   (Opcode.hash160, hashing .hash160),
   (Opcode.hash256, hashing .hash256),
   (Opcode.codeSeparator, codeSeparator),
   (Opcode.checkSig, checkSig false),
   (Opcode.checkSigVerify, checkSig true),
   (Opcode.checkMultisig, checkMultisig false),
   (Opcode.checkMultisigVerify, checkMultisig true)]

/-- The instruction of an operation. -/
def ofOpcode (opcode : UInt8) : Instruction :=
  if opcode = Opcode.negative1 ∨ (Opcode.op1 ≤ opcode ∧ opcode ≤ Opcode.op16) then
    small ((opcode.toNat : Int) - 0x50)
  else (table.lookup opcode).getD unknown

end Instruction

end StakeChain.Eval
