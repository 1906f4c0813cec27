/-
Transactions.

A transaction spends outputs of earlier ones and creates outputs. Its id is
the hash of its encoding without witnesses, so witnesses can be changed
without changing the id. The encoding with witnesses puts an empty input
list and a flag byte where the inputs would start.
-/
import StakeChain.Fault
import StakeChain.Script

namespace StakeChain

open Codec (Wire Read Format Context)

/-- The place of an output: the transaction that creates it, and its index there. -/
structure OutPoint where
  hash : Hash256
  index : UInt32
deriving DecidableEq, Hashable

namespace OutPoint

/-- The place that the input of a coinbase names. -/
def null : OutPoint :=
  ⟨Digest.zero, 0xffffffff⟩

instance : Inhabited OutPoint :=
  ⟨null⟩

/-- Whether it is the place that the input of a coinbase names. -/
def isNull (o : OutPoint) : Bool :=
  o.hash.isZero && o.index == 0xffffffff

/-- The shown form. -/
def display (o : OutPoint) : String :=
  o.hash.display ++ "-" ++ toString o.index.toNat

/-- By hash, then by index. -/
instance : Ord OutPoint :=
  ⟨compareLex (compareOn OutPoint.hash) (compareOn OutPoint.index)⟩

instance : Std.TransOrd OutPoint :=
  inferInstanceAs
    (Std.TransCmp (compareLex (compareOn OutPoint.hash) (compareOn OutPoint.index)))

instance : Std.LawfulEqOrd OutPoint where
  eq_of_compare {a b} h := by
    have h' : (compare a.hash b.hash).then (compare a.index b.index) = .eq := h
    rw [Ordering.then_eq_eq] at h'
    cases a
    cases b
    simp_all

end OutPoint

instance : Wire OutPoint where
  write f o := Codec.write f o.hash ++ Codec.write f o.index
  read := do
    let hash ← Codec.read
    let index ← Codec.read
    pure ⟨hash, index⟩

/-- The items that a spending transaction puts beside its scripts for one input. -/
abbrev Witness := List Bytes

/-- One input: the output it spends, and what it shows for it. -/
structure TxIn where
  prevout : OutPoint
  scriptSig : Script
  sequence : UInt32
  witness : Witness
deriving DecidableEq, Inhabited

/-- The sequence number that takes an input out of every lock. -/
def sequenceFinal : UInt32 := 0xffffffff

/-- Lock times below are heights, the others are times. -/
def lockTimeThreshold : Nat := 500000000

/-- The bit of a sequence that frees the input of any relative lock. -/
def sequenceDisableBit : Nat := 31

/-- The bit of a sequence that makes a relative lock one of time. -/
def sequenceTypeFlag : Nat := 0x00400000

/-- The bits of a sequence that hold the length of a relative lock. -/
def sequenceMask : Nat := 0x0000ffff

/-- Inputs are sent without their witness, which follows the outputs. -/
instance : Wire TxIn where
  write f i := Codec.write f i.prevout ++ Codec.write f i.scriptSig ++ Codec.write f i.sequence
  read := do
    let prevout ← Codec.read
    let scriptSig ← Codec.read
    let sequence ← Codec.read
    pure ⟨prevout, scriptSig, sequence, []⟩

/-- One output: an amount and the script that guards it. -/
structure TxOut where
  value : Int64
  script : Script
deriving DecidableEq, Inhabited

namespace TxOut

/-- The output that stands in for outputs a signature leaves open. -/
def blank : TxOut :=
  ⟨-1, Script.empty⟩

/-- The first output of a coinstake: no amount and no script. -/
def isMarker (o : TxOut) : Bool :=
  o.value == 0 && o.script.bytes.isEmpty

end TxOut

instance : Wire TxOut where
  write f o := Codec.write f o.value ++ Codec.write f o.script
  read := do
    let value ← Codec.read
    let script ← Codec.read
    pure ⟨value, script⟩

/-- A transaction. -/
structure Tx where
  version : Int32
  inputs : List TxIn
  outputs : List TxOut
  lockTime : UInt32
deriving DecidableEq, Inhabited

namespace Tx

/-! ## Encoding -/

/-- Whether any input has a witness item. -/
def hasWitness (tx : Tx) : Bool :=
  tx.inputs.any fun i => !i.witness.isEmpty

/-- The items of a witness, each after its length, after their number. -/
def writeWitness (w : Witness) : Bytes :=
  Codec.varInt w.length ++ w.flatMap Codec.varBytes

/-- The items of a witness, each after its length, after their number. -/
def readWitness : Read Witness := do
  Read.many Read.varBytes (← Read.size)

/-- The encoding of a transaction. -/
def write (f : Format) (tx : Tx) : Bytes :=
  let witness := f.context.witness && tx.hasWitness
  Codec.write f tx.version
    ++ (if witness then [0, 1] else [])
    ++ Codec.writeList f tx.inputs
    ++ Codec.writeList f tx.outputs
    ++ (if witness then tx.inputs.flatMap fun i => writeWitness i.witness else [])
    ++ Codec.write f tx.lockTime

/-- The witnesses of inputs that were read without them; at least one has to hold an item. -/
def readWitnesses (inputs : List TxIn) : Read (List TxIn) := do
  let inputs ← inputs.mapM fun i => do
    let witness ← readWitness
    pure { i with witness := witness }
  if inputs.all fun i => i.witness.isEmpty then throw .superfluousWitnessRecord
  else pure inputs

/-- Inputs and outputs after an empty input list: the flag byte says what follows. -/
def readFlagged : Read (List TxIn × List TxOut) := do
  let flag ← Read.byte
  if flag = 0 then pure ([], [])
  else
    let inputs ← Read.list
    let outputs ← Read.list
    let inputs ← if flag &&& 1 ≠ 0 then readWitnesses inputs else pure inputs
    if flag &&& 0xfe ≠ 0 then throw .unknownTransactionOptionalData
    else pure (inputs, outputs)

/-- Inputs and outputs, with witnesses where the context has them. -/
def readBody : Read (List TxIn × List TxOut) := do
  let context ← Read.context
  let inputs ← Read.list
  if inputs.isEmpty && context.witness then readFlagged
  else
    let outputs ← Read.list
    pure (inputs, outputs)

/-- Reads a transaction. -/
def read : Read Tx := do
  let version ← Codec.read
  let (inputs, outputs) ← readBody
  let lockTime ← Codec.read
  pure ⟨version, inputs, outputs, lockTime⟩

instance : Wire Tx where
  write := write
  read := read

/-- The transaction with every witness emptied. -/
def stripped (tx : Tx) : Tx :=
  { tx with inputs := tx.inputs.map fun i => { i with witness := [] } }

/-! ## Ids and sizes -/

/-- The hash of the encoding without witnesses. -/
def id (tx : Tx) : Hash256 :=
  hash256 (Codec.encode .ids tx)

/-- The hash of the encoding with witnesses. -/
def witnessId (tx : Tx) : Hash256 :=
  hash256 (Codec.encode Context.ids.withWitness tx)

/-- The length of the encoding without witnesses. -/
def baseSize (tx : Tx) : Nat :=
  Codec.encodedSize Context.network.withoutWitness tx

/-- The length of the encoding with witnesses. -/
def totalSize (tx : Tx) : Nat :=
  Codec.encodedSize .network tx

/-- The size in which a witness byte counts one and every other byte four. -/
def weight (tx : Tx) : Nat :=
  tx.baseSize * 3 + tx.totalSize

/-! ## Kinds -/

/-- Whether it creates coins from nothing: its only input names no output. -/
def isCoinbase (tx : Tx) : Bool :=
  match tx.inputs with
  | [i] => i.prevout.isNull
  | _ => false

/-- Whether it stakes: it spends a real output and its first of several outputs is the
marker. -/
def isCoinstake (tx : Tx) : Bool :=
  match tx.inputs, tx.outputs with
  | i :: _, marker :: _ :: _ => !i.prevout.isNull && marker.isMarker
  | _, _ => false

/-- The input at an index. There has to be one. -/
def inputAt (tx : Tx) (index : Nat) : Except Fault TxIn :=
  match tx.inputs[index]? with
  | some i => .ok i
  | none => .error .outOfRange

end Tx

/-- A sum, none when it or a part of it from the left does not fit 64 bits. -/
def sumInt64From (total : Int) : List Int → Option Int
  | [] => some total
  | n :: rest => if fitsInt64 (total + n) then sumInt64From (total + n) rest else none

/-- The total of the outputs, if it fits. -/
def Tx.totalOut? (tx : Tx) : Option Int :=
  sumInt64From 0 (tx.outputs.map fun o => o.value.toInt)

end StakeChain
