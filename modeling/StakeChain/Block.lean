/-
Blocks.

A block is a header of 80 bytes, its transactions, and on proof-of-stake
networks a signature over the hash of the header. The id of a block is the
hash of its header alone.
-/
import StakeChain.Tx

namespace StakeChain

open Codec (Wire Read)

/-- The header of a block. -/
structure BlockHeader where
  version : Int32
  prev : Hash256
  merkleRoot : Hash256
  time : UInt32
  bits : UInt32
  nonce : UInt32
deriving DecidableEq, Inhabited

instance : Wire BlockHeader where
  write f h :=
    Codec.write f h.version ++ Codec.write f h.prev ++ Codec.write f h.merkleRoot
      ++ Codec.write f h.time ++ Codec.write f h.bits ++ Codec.write f h.nonce
  read := do
    let version ← Codec.read
    let prev ← Codec.read
    let merkleRoot ← Codec.read
    let time ← Codec.read
    let bits ← Codec.read
    let nonce ← Codec.read
    pure ⟨version, prev, merkleRoot, time, bits, nonce⟩

/-- The id of a header. -/
def BlockHeader.id (h : BlockHeader) : Hash256 :=
  hash256 (Codec.encode .ids h)

/-- A block. -/
structure Block where
  header : BlockHeader
  txs : List Tx
  signature : Bytes
deriving DecidableEq, Inhabited

/-- The signature is sent only where the context has one. -/
instance : Wire Block where
  write f b :=
    Codec.write f b.header ++ Codec.writeList f b.txs
      ++ (if f.context.proofOfStake then Codec.varBytes b.signature else [])
  read := do
    let header ← Codec.read
    let txs ← Read.list
    let context ← Read.context
    let signature ← if context.proofOfStake then Read.varBytes else pure []
    pure ⟨header, txs, signature⟩

namespace Block

/-- The id of a block. -/
def id (b : Block) : Hash256 :=
  b.header.id

/-- Whether its second transaction stakes. -/
def isProofOfStake (b : Block) : Bool :=
  match b.txs with
  | _ :: tx :: _ => tx.isCoinstake
  | _ => false

end Block

end StakeChain
