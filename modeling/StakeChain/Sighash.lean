/-
What signatures commit to.

The legacy scheme hashes the encoding of a cut-down transaction: all
input scripts but the signed one are emptied, and the hash type decides
which inputs and outputs are kept. The witness scheme hashes the fields of
the signed input and the amount it spends, with three digests over all
prevouts, all sequences and all outputs that inputs can share.
-/
import StakeChain.Coin
import StakeChain.Fault
import StakeChain.Script.Edit

namespace StakeChain

open Codec (Context)

/-- The 32 bits that say what is signed. Signatures carry the low eight. -/
structure SighashType where
  bits : UInt32
deriving DecidableEq, Repr

namespace SighashType

/-- The low five bits. -/
def base (t : SighashType) : Nat :=
  t.bits.toNat % 32

/-- Whether other inputs are left open. -/
def anyoneCanPay (t : SighashType) : Bool :=
  t.bits.toNat / 128 % 2 == 1

/-- The same type with other inputs left open. -/
def withAnyoneCanPay (t : SighashType) : SighashType :=
  ⟨t.bits ||| 0x80⟩

/-- Whether all outputs are left open. -/
def isNone (t : SighashType) : Bool :=
  t.base == 2

/-- Whether all outputs but the one at the index of the input are left open. -/
def isSingle (t : SighashType) : Bool :=
  t.base == 3

end SighashType

/-- Digests of a transaction that its inputs share. -/
structure TxDigests where
  prevouts : Hash256
  sequences : Hash256
  outputs : Hash256
deriving DecidableEq

namespace Sighash

/-- Everything is hashed in the format of ids. -/
def wire {α : Type} [Codec.Wire α] (a : α) : Bytes :=
  Codec.encode .ids a

/-- All prevouts. -/
def prevoutsHash (tx : Tx) : Hash256 :=
  hash256 (tx.inputs.flatMap fun i => wire i.prevout)

/-- All sequences. -/
def sequencesHash (tx : Tx) : Hash256 :=
  hash256 (tx.inputs.flatMap fun i => wire i.sequence)

/-- All outputs. -/
def outputsHash (tx : Tx) : Hash256 :=
  hash256 (tx.outputs.flatMap wire)

end Sighash

/-- The shared digests of a transaction. -/
def TxDigests.ofTx (tx : Tx) : TxDigests :=
  ⟨Sighash.prevoutsHash tx, Sighash.sequencesHash tx, Sighash.outputsHash tx⟩

namespace Sighash

/-! ## The legacy scheme -/

/-- One input as it is hashed: the signed one with the script code, the others without a
script and, unless all outputs are signed, without a sequence. -/
def legacyInput (code : Script) (t : SighashType) (signed : Nat) (i : TxIn) (at_ : Nat) :
    Bytes :=
  wire i.prevout
    ++ (if at_ = signed then wire code else Codec.varInt 0)
    ++ (if at_ ≠ signed ∧ (t.isSingle ∨ t.isNone) then wire (0 : UInt32) else wire i.sequence)

/-- The inputs that are hashed, after their number. -/
def legacyInputs (code : Script) (t : SighashType) (tx : Tx) (signed : Nat) : Bytes :=
  let chosen :=
    if t.anyoneCanPay then tx.inputs.zipIdx.filter fun (_, i) => i == signed
    else tx.inputs.zipIdx
  Codec.varInt chosen.length ++ chosen.flatMap fun (i, k) => legacyInput code t signed i k

/-- The outputs that are hashed, after their number. -/
def legacyOutputs (t : SighashType) (tx : Tx) (signed : Nat) : Bytes :=
  if t.isNone then Codec.varInt 0
  else if t.isSingle then
    Codec.varInt (signed + 1)
      ++ (List.replicate signed TxOut.blank ++ (tx.outputs.drop signed).take 1).flatMap wire
  else Codec.writeList Context.ids.format tx.outputs

/-- The bytes that a signature of the legacy scheme commits to. -/
def legacyPreimage (code : Script) (t : SighashType) (tx : Tx) (signed : Nat) : Bytes :=
  wire tx.version
    ++ legacyInputs code.withoutCodeSeparators t tx signed
    ++ legacyOutputs t tx signed
    ++ wire tx.lockTime
    ++ wire t.bits

/-- The digest of the legacy scheme. Without such an input, or without the one output that is
signed, it is the number one. -/
def legacy (code : Script) (tx : Tx) (signed : Nat) (t : SighashType) : Hash256 :=
  if tx.inputs.length ≤ signed then Digest.one
  else if t.isSingle && tx.outputs.length ≤ signed then Digest.one
  else hash256 (legacyPreimage code t tx signed)

/-! ## The witness scheme -/

/-- The digest over prevouts, zero where other inputs are left open. -/
def witnessPrevouts (tx : Tx) (t : SighashType) (shared : Option TxDigests) : Hash256 :=
  if t.anyoneCanPay then Digest.zero
  else (shared.map TxDigests.prevouts).getD (prevoutsHash tx)

/-- The digest over sequences, zero unless all inputs and outputs are signed. -/
def witnessSequences (tx : Tx) (t : SighashType) (shared : Option TxDigests) : Hash256 :=
  if t.anyoneCanPay || t.isSingle || t.isNone then Digest.zero
  else (shared.map TxDigests.sequences).getD (sequencesHash tx)

/-- The digest over outputs: all of them, the one at the index of the input, or none. -/
def witnessOutputs (tx : Tx) (signed : Nat) (t : SighashType) (shared : Option TxDigests) :
    Hash256 :=
  if t.isNone then Digest.zero
  else if t.isSingle then
    match tx.outputs[signed]? with
    | some o => hash256 (wire o)
    | none => Digest.zero
  else (shared.map TxDigests.outputs).getD (outputsHash tx)

/-- The bytes that a signature of the witness scheme commits to. -/
def witnessPreimage (code : Script) (tx : Tx) (signed : Nat) (input : TxIn) (t : SighashType)
    (amount : Int64) (shared : Option TxDigests) : Bytes :=
  wire tx.version
    ++ wire (witnessPrevouts tx t shared)
    ++ wire (witnessSequences tx t shared)
    ++ wire input.prevout
    ++ wire code
    ++ wire amount
    ++ wire input.sequence
    ++ wire (witnessOutputs tx signed t shared)
    ++ wire tx.lockTime
    ++ wire t.bits

/-- The digest of the witness scheme; the transaction has to have such an input. -/
def witness (code : Script) (tx : Tx) (signed : Nat) (t : SighashType) (amount : Int64)
    (shared : Option TxDigests) : Except Fault Hash256 := do
  let input ← tx.inputAt signed
  pure (hash256 (witnessPreimage code tx signed input t amount shared))

end Sighash

/-- The digest that a signature for an input commits to. -/
def signatureHash (code : Script) (tx : Tx) (signed : Nat) (t : SighashType) (amount : Int64)
    (version : HashVersion) (shared : Option TxDigests) : Except Fault Hash256 :=
  match version with
  | .legacy => .ok (Sighash.legacy code tx signed t)
  | .witnessV0 => Sighash.witness code tx signed t amount shared

end StakeChain
