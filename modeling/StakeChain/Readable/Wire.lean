/-
Types of the wire in readable form.

Every type that is encoded has a name, under which its values are decoded
to readable form and encoded from it.
-/
import StakeChain.Codec.CompactVarInt
import StakeChain.Codec.VarInt
import StakeChain.Key.Extended
import StakeChain.Readable.Ledger

namespace StakeChain

/-- A codec context is given by its kind, which only decides whether witnesses are encoded, and
by what differs. Without anything it is the one of the network. -/
def Codec.Context.given : Option Json → Reading Codec.Context
  | none => pure Codec.Context.network
  | some j => do
      let kind ← j.fieldOr "kind" "network"
      pure ⟨← j.fieldOr "witness" (kind != "hash"), ← j.fieldOr "pos" false⟩

instance : Readable Codec.VarInt where
  shown n := shown n.value
  given j := .mk <$> given j

instance : Readable Codec.CompactVarInt where
  shown n := shown n.value
  given j := .mk <$> given j

instance : Readable Key.ExtendedKey where
  shown k :=
    Json.ofFields
      [("depth", shown k.depth), ("parent", k.parent.bytes.shownHex), ("child", shown k.child),
       ("chain_code", k.chainCode.bytes.shownHex), ("secret", k.secret.toBytes.shownHex)]
  given j := do
    let secret ← .ofOption "secret" (Key.SecretKey.ofNat? (Bytes.toNatBE (← j.raw "secret")))
    pure
      { depth := ← j.field "depth"
        parent := ← j.rawDigest 4 "parent"
        child := ← j.field "child"
        chainCode := ← j.rawDigest 32 "chain_code"
        secret := secret }

/-- What is done with the values of one type. -/
structure WireType where
  /-- Decodes a whole byte string, and encodes what it found again. -/
  decode : Codec.Context → Bytes → Except Codec.Error (Json × Bytes)
  /-- Encodes a value. -/
  write : Codec.Format → Json → Reading Bytes
  /-- Reads a value off a stream. -/
  read : Codec.Read Json

namespace WireType

/-- A type with its encoding and its readable form. -/
def of (α : Type) [Codec.Wire α] [Readable α] : WireType where
  decode c bs := do
    let a : α ← Codec.decode c bs
    pure (shown a, Codec.encode c a)
  write f j := Codec.write f <$> (given j : Reading α)
  read := (shown : α → Json) <$> Codec.read

/-- All types, by name. -/
def all : List (String × WireType) :=
  [("tx", of Tx), ("block", of Block), ("header", of BlockHeader), ("coin", of Coin),
   ("stake", of StakeRecord), ("outpoint", of OutPoint), ("txin", of TxIn), ("txout", of TxOut),
   ("script", of Script), ("varint", of Codec.VarInt), ("compact", of Codec.CompactVarInt),
   ("extkey", of Key.ExtendedKey), ("u8", of UInt8), ("u16", of UInt16), ("u32", of UInt32),
   ("i32", of Int32), ("u64", of UInt64), ("i64", of Int64), ("bool", of Bool),
   ("u256", of Hash256), ("u160", of Hash160)]

/-- The type of a name. -/
def ofName (name : String) : Reading WireType :=
  .ofOption name (all.lookup name)

end WireType

end StakeChain
