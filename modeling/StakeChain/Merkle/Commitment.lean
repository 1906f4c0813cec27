/-
The commitment of a block to its witnesses.

Ids do not cover witnesses, so the first transaction has an output that
holds a hash over them and over a nonce, which is the only item in the
witness of its first input.
-/
import StakeChain.Merkle
import StakeChain.Rejection

namespace StakeChain.Commitment

/-- How the script of a commitment starts: it halts, then pushes a mark and the hash. -/
def header : Bytes :=
  [0x6a, 0x24, 0xaa, 0x21, 0xa9, 0xed]

/-- The least length of the script: the mark and the hash. -/
def minSize : Nat := 38

/-- Whether an output holds a commitment. -/
def isCommitment (o : TxOut) : Bool :=
  minSize ≤ o.script.size && header.isPrefixOf o.script.bytes

/-- The index of the last output that holds a commitment. -/
def lastIndex? (outputs : List TxOut) : Option Nat :=
  (outputs.zipIdx.reverse.find? fun o => isCommitment o.1).map (·.2)

/-- The index of the commitment among the outputs of the first transaction. -/
def index? (b : Block) : Option Nat := do
  lastIndex? (← b.txs.head?).outputs

/-- The hash that a block has to commit to, given the nonce. -/
def hash (b : Block) (nonce : Digest 32) : Hash256 :=
  hash256 (b.witnessRoot.hash.bytes ++ nonce.bytes)

/-- The script of a commitment. -/
def script (commitment : Hash256) : Script :=
  ⟨header ++ commitment.bytes⟩

/-- The hash that an output commits to. -/
def committed (o : TxOut) : Bytes :=
  (o.script.bytes.drop header.length).take 32

/-- The nonce: the only witness item of the first input, of 32 bytes. The first transaction
has to have an input. -/
def nonce (coinbase : Tx) : Except Rejection (Digest 32) :=
  match coinbase.inputs with
  | [] => .error (.fault .outOfRange)
  | input :: _ =>
      match input.witness with
      | [item] =>
          match Digest.ofBytes? 32 item with
          | some d => .ok d
          | none => .error (.consensus .badWitnessNonceSize)
      | _ => .error (.consensus .badWitnessNonceSize)

/-- The commitment of a block: the first transaction and its output that commits. -/
def output? (b : Block) : Option (Tx × TxOut) := do
  let coinbase ← b.txs.head?
  let index ← lastIndex? coinbase.outputs
  let output ← coinbase.outputs[index]?
  pure (coinbase, output)

/-- Checks that a block commits to its witnesses. Without a commitment, or where commitments
have no meaning yet, no transaction may have a witness. -/
def check (b : Block) (enabled : Bool) : Verdict :=
  match if enabled then output? b else none with
  | some (coinbase, output) => do
      let nonce ← nonce coinbase
      Verdict.demand (committed output == (hash b nonce).bytes) .badWitnessMerkleMatch
  | none => Verdict.demand (!b.txs.any Tx.hasWitness) .unexpectedWitness

end StakeChain.Commitment
