/-
Scripts and their operations.

A script is a byte string. Decoding takes operations off the front: a push
with its data, or any other byte alone. A push that announces more bytes
than are left is undecodable; it is the last operation seen, and the bytes
from it on are the undecodable tail.
-/
import StakeChain.Bytes
import StakeChain.Codec.VarInt
import StakeChain.Hash.Compose
import StakeChain.Script.Opcode

namespace StakeChain

/-- A script. -/
structure Script where
  bytes : Bytes
deriving DecidableEq, Repr, Inhabited

/-- One operation of a script. -/
inductive Op where
  /-- A push: the opcode used and the data. -/
  | push (opcode : UInt8) (data : Bytes)
  /-- Any operation above the pushes. -/
  | code (opcode : UInt8)
  /-- A push that announces more bytes than are left. -/
  | invalid (opcode : UInt8)
deriving DecidableEq, Repr

/-- Limits on scripts. -/
def maxScriptSize : Nat := 10000

@[inherit_doc maxScriptSize] def maxElementSize : Nat := 520

@[inherit_doc maxScriptSize] def maxKeysPerMultisig : Nat := 20

namespace Op

/-- The byte of an operation. -/
def opcode : Op → UInt8
  | push opcode _ => opcode
  | code opcode => opcode
  | invalid opcode => opcode

/-- Whether the operation was decoded. -/
def isValid : Op → Bool
  | invalid _ => false
  | _ => true

/-- How many bytes after a push opcode hold the length. -/
def lengthWidth (opcode : UInt8) : Nat :=
  if opcode = Opcode.pushData1 then 1
  else if opcode = Opcode.pushData2 then 2
  else if opcode = Opcode.pushData4 then 4
  else 0

/-- The bytes of an operation. -/
def encode : Op → Bytes
  | push opcode data => opcode :: (Bytes.ofNatLE (lengthWidth opcode) data.length ++ data)
  | code opcode => [opcode]
  | invalid opcode => [opcode]

/-- How many bytes an operation takes. -/
def width : Op → Nat
  | push opcode data => 1 + lengthWidth opcode + data.length
  | code _ => 1
  | invalid _ => 1

/-- The announced length of a push, and the bytes after it. -/
def pushLength (opcode : UInt8) (rest : Bytes) : Option (Nat × Bytes) :=
  let w := lengthWidth opcode
  if w = 0 then some (opcode.toNat, rest)
  else (Bytes.splitExact w rest).map fun (digits, rest) => (Bytes.toNatLE digits, rest)

/-- Takes one operation off the front. -/
def decode : Bytes → Option (Op × Bytes)
  | [] => none
  | opcode :: rest =>
      if opcode > Opcode.pushData4 then some (code opcode, rest)
      else
        match pushLength opcode rest with
        | none => some (invalid opcode, [])
        | some (n, rest) =>
            match Bytes.splitExact n rest with
            | none => some (invalid opcode, [])
            | some (data, rest) => some (push opcode data, rest)

end Op

namespace Script

/-- The script without any operation. -/
def empty : Script := ⟨[]⟩

/-- The number of bytes. -/
def size (s : Script) : Nat := s.bytes.length

/-- Operations with their offsets, put in front of `acc` in reverse. -/
def opsOnto (acc : List (Nat × Op)) : (fuel : Nat) → (offset : Nat) → Bytes → List (Nat × Op)
  | 0, _, _ => acc.reverse
  | fuel + 1, offset, bs =>
      match Op.decode bs with
      | none => acc.reverse
      | some (op, rest) => opsOnto ((offset, op) :: acc) fuel (offset + op.width) rest

/-- The operations with their offsets. Every operation takes a byte, so there are no more of
them than bytes. -/
def opsWithOffsets (s : Script) : List (Nat × Op) :=
  opsOnto [] s.bytes.length 0 s.bytes

/-- The operations in order; an undecodable one comes last. -/
def ops (s : Script) : List Op :=
  s.opsWithOffsets.map (·.2)

/-- The script of some operations. -/
def ofOps (ops : List Op) : Script :=
  ⟨ops.flatMap Op.encode⟩

/-! ## Building -/

/-- Data after the smallest push opcode that holds its length. -/
def pushData (data : Bytes) : Bytes :=
  let n := data.length
  if n < 0x4c then UInt8.ofNat n :: data
  else if n ≤ 0xff then Opcode.pushData1 :: (Bytes.ofNatLE 1 n ++ data)
  else if n ≤ 0xffff then Opcode.pushData2 :: (Bytes.ofNatLE 2 n ++ data)
  else Opcode.pushData4 :: (Bytes.ofNatLE 4 n ++ data)

/-! ## Shapes -/

/-- Whether every operation decodes and only pushes. -/
def isPushOnly (s : Script) : Bool :=
  s.ops.all fun op => op.isValid && op.opcode ≤ Opcode.op16

/-- Whether every operation decodes and the script is within the size limit. -/
def isValid (s : Script) : Bool :=
  s.size ≤ maxScriptSize && s.ops.all Op.isValid

/-- Whether no spending script can satisfy it, whatever it holds. -/
def isUnspendable (s : Script) : Bool :=
  s.bytes.head? == some Opcode.halt || s.size > maxScriptSize

/-- The hash a pay-to-script-hash output commits to. -/
def scriptHash? (s : Script) : Option Hash160 :=
  match s.bytes with
  | opcode :: length :: rest =>
      if opcode = Opcode.hash160 ∧ length = 20 ∧ rest.drop 20 = [Opcode.equal] then
        Digest.ofBytes? 20 (rest.take 20)
      else none
  | _ => none

/-- Whether it pays to a script hash. -/
def isScriptHash (s : Script) : Bool :=
  s.scriptHash?.isSome

/-- The version and program of a witness output: a small number, then one push of two to forty
bytes that fills the script. -/
def witnessProgram? (s : Script) : Option (Nat × Bytes) :=
  match s.bytes with
  | opcode :: length :: program =>
      if program.length < 2 ∨ 40 < program.length ∨ length.toNat ≠ program.length then none
      else (Opcode.smallInt? opcode).map fun version => (version, program)
  | _ => none

/-- Whether it is a witness output. -/
def isWitnessProgram (s : Script) : Bool :=
  s.witnessProgram?.isSome

/-- The data of the last push seen, through operations that only push. -/
def lastPushFrom (last : Option Bytes) : List Op → Option Bytes
  | [] => last
  | .push _ data :: rest => lastPushFrom (some data) rest
  | .code opcode :: rest => if opcode ≤ Opcode.op16 then lastPushFrom none rest else none
  | .invalid _ :: _ => none

/-- The data of the last operation, when the script only pushes and ends with data. -/
def lastPush? (s : Script) : Option Bytes :=
  lastPushFrom none s.ops

/-! ## Signature operations -/

/-- What one operation counts, given the operation before it. Under the accurate count a
multisig check whose key count stands right before it counts as that many. -/
def opSigCount (accurate : Bool) (previous opcode : UInt8) : Nat :=
  if opcode = Opcode.checkSig ∨ opcode = Opcode.checkSigVerify then 1
  else if opcode = Opcode.checkMultisig ∨ opcode = Opcode.checkMultisigVerify then
    if accurate ∧ Opcode.op1 ≤ previous ∧ previous ≤ Opcode.op16 then
      (Opcode.smallInt? previous).getD 0
    else maxKeysPerMultisig
  else 0

/-- The count over operations up to the first undecodable one. -/
def sigOpsFrom (accurate : Bool) (previous : UInt8) (count : Nat) : List Op → Nat
  | [] => count
  | .invalid _ :: _ => count
  | op :: rest =>
      sigOpsFrom accurate op.opcode (count + opSigCount accurate previous op.opcode) rest

/-- The signature operations of a script. -/
def sigOpCount (s : Script) (accurate : Bool) : Nat :=
  sigOpsFrom accurate Opcode.unassigned 0 s.ops

/-- The signature operations behind a script hash, in the script that the spending script
reveals; the plain accurate count for other scripts. -/
def p2shSigOpCount (s scriptSig : Script) : Nat :=
  if s.isScriptHash then
    match scriptSig.lastPush? with
    | some redeem => sigOpCount ⟨redeem⟩ true
    | none => 0
  else s.sigOpCount true

end Script

/-- A script is sent as its bytes after their number. -/
instance : Codec.Wire Script where
  write _ s := Codec.varBytes s.bytes
  read := Script.mk <$> Codec.Read.varBytes

end StakeChain
