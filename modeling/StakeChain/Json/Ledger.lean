/-
Transactions, blocks, coins and their kin as JSON.

Fields are written in a fixed order. Witnesses, block signatures and
scripts behind hashes may be left out when reading.
-/
import StakeChain.CoinSet
import StakeChain.Deployment
import StakeChain.Json.Digest

namespace StakeChain

open Json (Reader readRecord readUInt32 readInt32 readInt64 readBool readList)

namespace OutPoint

def toJson (o : OutPoint) : Json :=
  Json.ofFields [("hash", o.hash.toJson), ("n", Json.ofNat o.index.toNat)]

def readJson : Reader OutPoint := fun j => do
  let r ← readRecord ["hash", "n"] j
  let hash ← r.required "hash" (Digest.readJson 32)
  let index ← r.required "n" readUInt32
  pure ⟨hash, index⟩

end OutPoint

namespace Script

def toJson (s : Script) : Json :=
  s.bytes.toJson

def readJson : Reader Script := fun j =>
  (Bytes.readJson j).map Script.mk

end Script

namespace TxIn

def toJson (i : TxIn) : Json :=
  Json.ofFields
    [("prevout", i.prevout.toJson), ("script_sig", i.scriptSig.toJson),
     ("sequence", Json.ofNat i.sequence.toNat),
     ("witness", .arr (i.witness.map Bytes.toJson))]

def readJson : Reader TxIn := fun j => do
  let r ← readRecord ["prevout", "script_sig", "sequence", "witness"] j
  let prevout ← r.required "prevout" OutPoint.readJson
  let scriptSig ← r.required "script_sig" Script.readJson
  let sequence ← r.required "sequence" readUInt32
  let witness ← r.withDefault "witness" (readList Bytes.readJson) []
  pure ⟨prevout, scriptSig, sequence, witness⟩

end TxIn

namespace TxOut

def toJson (o : TxOut) : Json :=
  Json.ofFields [("value", .int o.value.toInt), ("script_pubkey", o.script.toJson)]

def readJson : Reader TxOut := fun j => do
  let r ← readRecord ["value", "script_pubkey"] j
  let value ← r.required "value" readInt64
  let script ← r.required "script_pubkey" Script.readJson
  pure ⟨value, script⟩

end TxOut

namespace Tx

def toJson (tx : Tx) : Json :=
  Json.ofFields
    [("version", .int tx.version.toInt), ("inputs", .arr (tx.inputs.map TxIn.toJson)),
     ("outputs", .arr (tx.outputs.map TxOut.toJson)),
     ("lock_time", Json.ofNat tx.lockTime.toNat)]

def readJson : Reader Tx := fun j => do
  let r ← readRecord ["version", "inputs", "outputs", "lock_time"] j
  let version ← r.required "version" readInt32
  let inputs ← r.required "inputs" (readList TxIn.readJson)
  let outputs ← r.required "outputs" (readList TxOut.readJson)
  let lockTime ← r.required "lock_time" readUInt32
  pure ⟨version, inputs, outputs, lockTime⟩

end Tx

namespace BlockHeader

def toJson (h : BlockHeader) : Json :=
  Json.ofFields
    [("version", .int h.version.toInt), ("prev_block_hash", h.prev.toJson),
     ("merkle_root", h.merkleRoot.toJson), ("time", Json.ofNat h.time.toNat),
     ("bits", Json.ofNat h.bits.toNat), ("nonce", Json.ofNat h.nonce.toNat)]

def readJson : Reader BlockHeader := fun j => do
  let r ← readRecord ["version", "prev_block_hash", "merkle_root", "time", "bits", "nonce"] j
  let version ← r.required "version" readInt32
  let prev ← r.required "prev_block_hash" (Digest.readJson 32)
  let merkleRoot ← r.required "merkle_root" (Digest.readJson 32)
  let time ← r.required "time" readUInt32
  let bits ← r.required "bits" readUInt32
  let nonce ← r.required "nonce" readUInt32
  pure ⟨version, prev, merkleRoot, time, bits, nonce⟩

end BlockHeader

namespace Block

def toJson (b : Block) : Json :=
  Json.ofFields
    [("header", b.header.toJson), ("transactions", .arr (b.txs.map Tx.toJson)),
     ("signature", b.signature.toJson)]

def readJson : Reader Block := fun j => do
  let r ← readRecord ["header", "transactions", "signature"] j
  let header ← r.required "header" BlockHeader.readJson
  let txs ← r.required "transactions" (readList Tx.readJson)
  let signature ← r.withDefault "signature" Bytes.readJson []
  pure ⟨header, txs, signature⟩

end Block

namespace Coin

def toJson (c : Coin) : Json :=
  Json.ofFields
    [("output", c.output.toJson), ("height", Json.ofNat c.height.toNat),
     ("is_coinbase", .bool c.isCoinbase), ("is_coinstake", .bool c.isCoinstake),
     ("time", Json.ofNat c.time.toNat),
     ("redeem_script", (c.redeemScript.map Script.toJson).getD .null)]

def readJson : Reader Coin := fun j => do
  let r ← readRecord
    ["output", "height", "is_coinbase", "is_coinstake", "time", "redeem_script"] j
  let output ← r.required "output" TxOut.readJson
  let height ← r.required "height" readUInt32
  let isCoinbase ← r.required "is_coinbase" readBool
  let isCoinstake ← r.required "is_coinstake" readBool
  let time ← r.required "time" readUInt32
  let redeemScript ← r.withDefault "redeem_script" (Json.readOption Script.readJson) none
  pure ⟨output, height, isCoinbase, isCoinstake, time, redeemScript⟩

end Coin

namespace Undo

def toJson (u : Undo) : Json :=
  Json.ofFields
    [("spent", .arr (u.spent.map fun (o, coin) => .arr [o.toJson, coin.toJson]))]

def readJson : Reader Undo := fun j => do
  let r ← readRecord ["spent"] j
  let spent ← r.required "spent" (readList (Json.readPair OutPoint.readJson Coin.readJson))
  pure ⟨spent⟩

end Undo

/-! ## Alternatives -/

namespace Destination

/-- The name of a kind of destination. -/
def kindName : Destination → String
  | keyHash _ => "KeyHash"
  | witnessKeyHash _ => "WitnessKeyHash"
  | scriptHash _ => "ScriptHash"
  | witnessScriptHash _ => "WitnessScriptHash"

/-- The hash that is paid to. -/
def hashJson : Destination → Json
  | keyHash hash => hash.toJson
  | witnessKeyHash hash => hash.toJson
  | scriptHash hash => hash.toJson
  | witnessScriptHash hash => hash.toJson

def toJson (d : Destination) : Json :=
  Json.ofFields [(d.kindName, d.hashJson)]

/-- How the value of a named kind is read. -/
def readerOf? : String → Option (Reader Destination)
  | "KeyHash" => some fun j => (Digest.readJson 20 j).map keyHash
  | "WitnessKeyHash" => some fun j => (Digest.readJson 20 j).map witnessKeyHash
  | "ScriptHash" => some fun j => (Digest.readJson 20 j).map scriptHash
  | "WitnessScriptHash" => some fun j => (Digest.readJson 32 j).map witnessScriptHash
  | _ => none

def readJson : Reader Destination :=
  Json.readTagged readerOf?

end Destination

namespace ScriptType

/-- The name of a kind of script in JSON, without separators. -/
def name : ScriptType → String
  | nonStandard => "nonstandard"
  | pubKey => "pubkey"
  | pubKeyHash => "pubkeyhash"
  | scriptHash => "scripthash"
  | multisig => "multisig"
  | nullData => "nulldata"
  | witnessV0KeyHash => "witnessv0keyhash"
  | witnessV0ScriptHash => "witnessv0scripthash"
  | witnessUnknown => "witnessunknown"
  | coldStaking => "coldstaking"

/-- Every kind of script. -/
def all : List ScriptType :=
  [nonStandard, pubKey, pubKeyHash, scriptHash, multisig, nullData, witnessV0KeyHash,
   witnessV0ScriptHash, witnessUnknown, coldStaking]

def toJson (t : ScriptType) : Json :=
  Json.ofString t.name

def readJson : Reader ScriptType :=
  Json.readName fun name => all.find? fun t => t.name == name

end ScriptType

namespace ThresholdState

def toJson (s : ThresholdState) : Json :=
  Json.ofString s.name

def readJson : Reader ThresholdState :=
  Json.readName ofName?

end ThresholdState

namespace HashVersion

/-- The name of a scheme. -/
def name : HashVersion → String
  | legacy => "Original"
  | witnessV0 => "WitnessV0"

/-- The scheme of a name. -/
def ofName? (name : String) : Option HashVersion :=
  [legacy, witnessV0].find? fun v => v.name == name

def toJson (v : HashVersion) : Json :=
  Json.ofString v.name

def readJson : Reader HashVersion :=
  Json.readName ofName?

end HashVersion

end StakeChain
