/-
Coins: outputs that can be spent, with where they come from.

A coin is kept on disk with its height and kind packed into one number.
For signing, a coin also tells which script a signature over it commits to
and under which scheme.
-/
import StakeChain.Codec.CompactVarInt
import StakeChain.Script.Template
import StakeChain.Tx

namespace StakeChain

open Codec (Wire Read)

/-- What a signature commits to. -/
inductive HashVersion where
  /-- The encoding of a cut-down transaction. -/
  | legacy
  /-- The scheme of witness programs of version zero. -/
  | witnessV0
deriving DecidableEq, Repr

/-- A spendable output. -/
structure Coin where
  output : TxOut
  /-- The height of the block that created it. -/
  height : UInt32
  isCoinbase : Bool
  isCoinstake : Bool
  /-- The time of the block that created it. -/
  time : UInt32
  /-- The script behind a script hash, if known. -/
  redeemScript : Option Script
deriving DecidableEq, Inhabited

namespace Coin

/-- Height and kind in one number: two bits for the kind, the height above them. -/
def code (c : Coin) : Nat :=
  c.height.toNat * 4 + c.isCoinstake.toNat * 2 + c.isCoinbase.toNat

/-- Reads a coin. The height and the time are the low 32 bits of what is stored. -/
def read : Read Coin := do
  let code ← Read.compactVarInt
  let time ← Read.compactVarInt
  let output ← Codec.read
  let known : Bool ← Codec.read
  let redeemScript ← if known then some <$> Codec.read else pure none
  pure
    { output := output
      height := UInt32.ofNat (code / 4)
      isCoinbase := code % 2 == 1
      isCoinstake := code / 2 % 2 == 1
      time := UInt32.ofNat time
      redeemScript := redeemScript }

instance : Wire Coin where
  write f c :=
    Codec.compactVarInt c.code ++ Codec.compactVarInt c.time.toNat ++ Codec.write f c.output
      ++ (match c.redeemScript with
        | some s => 1 :: Codec.write f s
        | none => [0])
  read := read

/-! ## Signing -/

/-- The script behind the hash if it is known, else the script of the output. -/
def innerScript (c : Coin) : Script :=
  c.redeemScript.getD c.output.script

/-- The script that a signature over the coin commits to. A witness key hash stands for the
script that pays to that key hash. -/
def scriptCode (c : Coin) : Script :=
  match c.innerScript.witnessProgram? with
  | some (0, program) =>
      match Digest.ofBytes? 20 program with
      | some hash => Script.payToKeyHash hash
      | none => c.innerScript
  | _ => c.innerScript

/-- The witness program that commits to a script. -/
def witnessProgramOf (s : Script) : Script :=
  Script.payTo (.witnessScriptHash (sha256 s.bytes))

/-- Whether a script behind a script hash makes it a witness output: it is a witness program,
or the hash is of the program that commits to it. -/
def nestsWitness (hash : Hash160) (redeem : Script) : Bool :=
  redeem.isWitnessProgram || hash160 (witnessProgramOf redeem).bytes == hash

/-- The scheme under which the coin is signed. -/
def hashVersion (c : Coin) : HashVersion :=
  if c.output.script.isWitnessProgram then .witnessV0
  else
    match c.output.script.scriptHash?, c.redeemScript with
    | some hash, some redeem => if nestsWitness hash redeem then .witnessV0 else .legacy
    | _, _ => .legacy

end Coin

end StakeChain
