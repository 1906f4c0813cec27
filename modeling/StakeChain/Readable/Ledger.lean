/-
Transactions, blocks, coins and their kin in readable form.

Most members may be left out. A transaction or a header may also be given
as the hexadecimal text of its encoding.
-/
import StakeChain.CoinSet
import StakeChain.Eval.Flags
import StakeChain.Json.Ledger
import StakeChain.Params.Json
import StakeChain.Readable
import StakeChain.Stake.Record
import StakeChain.Work.U256

namespace StakeChain

instance : Readable Script where
  shown s := s.bytes.shownHex
  given j := (given j : Reading Raw).map fun r => ⟨r.bytes⟩

namespace Op

/-- The members of an operation in readable form. -/
def fields : Op → List (String × Json)
  | push opcode data => [("push", data.shownHex), ("opcode", shown opcode)]
  | code opcode => [("code", shown opcode)]
  | invalid opcode => [("invalid", shown opcode)]

end Op

instance : Readable Op where
  shown o := Json.ofFields o.fields
  given j := do
    match ← j.field? "push", ← j.field? "code" with
    | some (data : Raw), _ => pure (.push (← j.field "opcode") data.bytes)
    | none, some code => pure (.code code)
    | none, none => pure (.invalid (← j.field "invalid"))

instance : Readable OutPoint where
  shown o := Json.ofFields [("hash", shown o.hash), ("n", shown o.index)]
  given j := do pure ⟨← j.field "hash", ← j.field "n"⟩

instance : Readable TxIn where
  shown i :=
    Json.ofFields
      [("hash", shown i.prevout.hash), ("n", shown i.prevout.index),
       ("script_sig", shown i.scriptSig), ("sequence", shown i.sequence),
       ("witness", .arr (i.witness.map Bytes.shownHex))]
  given j := do
    let witness : List Raw ← j.fieldOr "witness" []
    pure
      { prevout := ← given j
        scriptSig := ← j.fieldOr "script_sig" Script.empty
        sequence := ← j.fieldOr "sequence" sequenceFinal
        witness := witness.map Raw.bytes }

instance : Readable TxOut where
  shown o := Json.ofFields [("value", shown o.value), ("script", shown o.script)]
  given j := do pure ⟨← j.field "value", ← j.fieldOr "script" Script.empty⟩

/-- Reads the hexadecimal text of an encoding. -/
def Reading.encoded {α : Type} [Codec.Wire α] (j : Json) : Reading α := do
  match Codec.decode Codec.Context.network (← Bytes.givenHex j) with
  | .ok a => pure a
  | .error e => throw (.codec e)

instance : Readable Tx where
  shown tx :=
    Json.ofFields
      [("version", shown tx.version), ("inputs", shown tx.inputs),
       ("outputs", shown tx.outputs), ("lock_time", shown tx.lockTime)]
  given
    | .text l => Reading.encoded (.text l)
    | j => do
        pure
          { version := ← j.fieldOr "version" 1
            inputs := ← j.fieldOr "inputs" []
            outputs := ← j.fieldOr "outputs" []
            lockTime := ← j.fieldOr "lock_time" 0 }

/-- Reads a header; where it does not name the block before, that is the given one. -/
def BlockHeader.givenAfter (prev : Hash256) : Json → Reading BlockHeader
  | .text l => Reading.encoded (.text l)
  | j => do
      pure
        { version := ← j.fieldOr "version" 1
          prev := ← j.fieldOr "prev" prev
          merkleRoot := ← j.fieldOr "merkle" Digest.zero
          time := ← j.fieldOr "time" 0
          bits := ← j.fieldOr "bits" 0
          nonce := ← j.fieldOr "nonce" 0 }

instance : Readable BlockHeader where
  shown h :=
    Json.ofFields
      [("version", shown h.version), ("prev", shown h.prev), ("merkle", shown h.merkleRoot),
       ("time", shown h.time), ("bits", shown h.bits), ("nonce", shown h.nonce)]
  given := BlockHeader.givenAfter Digest.zero

/-- Reads a block; where its header does not name the block before, that is the given one. -/
def Block.givenAfter (prev : Hash256) (j : Json) : Reading Block := do
  let header ← BlockHeader.givenAfter prev ((j.member? "header").getD (.obj []))
  let signature : Raw ← j.fieldOr "signature" ⟨[]⟩
  pure ⟨header, ← j.fieldOr "txs" [], signature.bytes⟩

instance : Readable Block where
  shown b :=
    Json.ofFields
      [("header", shown b.header), ("txs", shown b.txs), ("signature", b.signature.shownHex)]
  given := Block.givenAfter Digest.zero

instance : Readable Coin where
  shown c :=
    Json.ofFields
      [("value", shown c.output.value), ("script", shown c.output.script),
       ("height", shown c.height), ("coinbase", shown c.isCoinbase),
       ("coinstake", shown c.isCoinstake), ("time", shown c.time),
       ("redeem", shown c.redeemScript)]
  given j := do
    pure
      { output := ← given j
        height := ← j.fieldOr "height" 0
        isCoinbase := ← j.fieldOr "coinbase" false
        isCoinstake := ← j.fieldOr "coinstake" false
        time := ← j.fieldOr "time" 0
        redeemScript := ← j.field? "redeem" }

instance : Readable (OutPoint × Coin) where
  shown c := Json.ofFields [("outpoint", shown c.1), ("coin", shown c.2)]
  given j := do pure (← j.field "outpoint", ← j.field "coin")

instance : Readable StakeRecord where
  shown r :=
    Json.ofFields
      [("flags", shown r.flags), ("modifier", shown r.modifier), ("prevout", shown r.prevout),
       ("time", shown r.time), ("proof", shown r.proof)]
  given j := do
    pure
      { flags := ← j.fieldOr "flags" 0
        modifier := ← j.fieldOr "modifier" Digest.zero
        prevout := ← j.fieldOr "prevout" OutPoint.null
        time := ← j.fieldOr "time" 0
        proof := ← j.fieldOr "proof" Digest.zero }

/-- A 256-bit number is shown like the hash it is written in. -/
instance : Readable U256 where
  shown n := Json.ofString (U256.display n)
  given j := (given j : Reading Hash256).map U256.ofHash

instance : Readable HashVersion where
  shown v := shown v.name
  given j := do .ofOption "version" (HashVersion.ofName? (← given j))

/-- Flags are given by name. They are shown as the number of their bits. -/
instance : Readable Flags where
  shown f := shown f.toNat
  given j := do
    let names : List String ← given j
    let sets ← names.mapM fun name => Reading.ofOption "flag" (Flags.ofName? name)
    pure (sets.foldl Flags.union Flags.none)

namespace Destination

/-- The hash that is paid to, first byte first. -/
def bytes : Destination → Bytes
  | keyHash hash => hash.bytes
  | witnessKeyHash hash => hash.bytes
  | scriptHash hash => hash.bytes
  | witnessScriptHash hash => hash.bytes

end Destination

/-! ## Networks -/

namespace Params

/-- The network of a name. -/
def ofName? : String → Option Params
  | "main" => some main
  | "regtest" => some regtest
  | "pos_regtest" => some stakeRegtest
  | _ => none

/-- Puts members in the place of those of the same name. -/
def override (base new : List (List Char × Json)) : List (List Char × Json) :=
  let names := new.map fun m => Json.unescape m.1
  base.filter (fun m => !names.contains (Json.unescape m.1)) ++ new

/-- Reads the parameters of a network with some of its fields replaced. -/
def givenChanged (base : Params) (changes : Json) : Reading Params :=
  match base.toJson, changes with
  | .obj members, .obj new => .ofOption "params" (readJson (.obj (override members new)))
  | _, _ => .ok base

end Params

/-- Parameters are given by the name of a network, or by a name and the fields that differ. -/
instance : Readable Params where
  shown := Params.toJson
  given
    | .obj members => do
        let j := Json.obj members
        let base ← .ofOption "base" (Params.ofName? (← j.field "base"))
        match j.member? "set" with
        | some changes =>
            match Params.givenChanged base changes with
            | .ok p => pure p
            | .error _ => throw .params
        | none => pure base
    | j => do .ofOption "network" (Params.ofName? (← given j))

end StakeChain
