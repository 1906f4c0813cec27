/-
Streams of bytes that values are read from, and the two sides of a wire
format.

A format says what a stream carries: whether transactions come with their
witnesses, whether blocks come with a signature, and which end of an
integer stands first. Writing is a function of the format and the value.
Reading runs against the rest of the stream; a failed read leaves the
stream where the failing step found it.
-/
import StakeChain.Bytes.Digest

namespace StakeChain.Codec

/-- Why bytes are no encoding of a value. -/
inductive Error where
  /-- Fewer bytes left than the next part needs. -/
  | endOfStream
  /-- A length or count that has a shorter form. -/
  | nonCanonicalVarInt
  /-- A base-128 integer that does not fit 64 bits. -/
  | compactVarIntOverflow
  /-- A length or count above the limit. -/
  | oversizedVector (count : Nat)
  /-- A transaction flag byte with a bit other than the witness bit. -/
  | unknownTransactionOptionalData
  /-- A witness section in which every witness is empty. -/
  | superfluousWitnessRecord
  /-- Bytes left over after the value. -/
  | trailingBytes
  /-- Hexadecimal text that stands for no value. -/
  | invalidHex (e : Hex.Error)
  /-- Key bytes that are no key. -/
  | invalidKeyMaterial
deriving DecidableEq, Repr

namespace Error

/-- The name of the kind of error. -/
def name : Error → String
  | endOfStream => "EndOfStream"
  | nonCanonicalVarInt => "NonCanonicalVarInt"
  | compactVarIntOverflow => "CompactVarIntOverflow"
  | oversizedVector _ => "OversizedVector"
  | unknownTransactionOptionalData => "UnknownTransactionOptionalData"
  | superfluousWitnessRecord => "SuperfluousWitnessRecord"
  | trailingBytes => "TrailingBytes"
  | invalidHex _ => "InvalidHex"
  | invalidKeyMaterial => "InvalidKeyMaterial"

/-- What is said of the bytes. -/
def message : Error → String
  | endOfStream => "end of data"
  | nonCanonicalVarInt => "non-canonical VarInt"
  | compactVarIntOverflow => "CompactVarInt exceeds 64 bits"
  | oversizedVector count =>
      "vector of " ++ toString count ++ " bytes exceeds the allocation limit"
  | unknownTransactionOptionalData => "unknown transaction optional data"
  | superfluousWitnessRecord => "superfluous witness record"
  | trailingBytes => "data not consumed entirely when deserializing"
  | invalidHex e => "invalid hex: " ++ e.message
  | invalidKeyMaterial => "invalid key material"

end Error

/-- What an encoding carries beside the plain fields. -/
structure Context where
  /-- Transactions carry their witnesses. -/
  witness : Bool
  /-- Blocks carry their signature. -/
  proofOfStake : Bool
deriving DecidableEq, Repr

namespace Context

/-- The encoding sent between peers and kept on disk. -/
def network : Context := ⟨true, false⟩

/-- The encoding that ids are the hash of. -/
def ids : Context := ⟨false, false⟩

/-- The same encoding with its witnesses. -/
def withWitness (c : Context) : Context := { c with witness := true }

/-- The same encoding without witnesses. -/
def withoutWitness (c : Context) : Context := { c with witness := false }

end Context

/-- A context and the byte order in force. -/
structure Format where
  context : Context
  order : ByteOrder
deriving DecidableEq, Repr

/-- The format at the start of a stream: integers least significant byte first. -/
def Context.format (c : Context) : Format :=
  ⟨c, .little⟩

/-- A stream under a format: how much was read, and what is left. -/
structure Stream where
  format : Format
  consumed : Nat
  rest : Bytes
deriving DecidableEq, Repr

/-- The stream over a whole byte string. -/
def Stream.ofBytes (c : Context) (bs : Bytes) : Stream :=
  ⟨c.format, 0, bs⟩

/-- A step that reads from a stream. -/
abbrev Read (α : Type) := EStateM Error Stream α

/-- The largest length or count that is read. -/
def maxSize : Nat := 0x02000000

namespace Read

/-- The next `n` bytes. -/
def bytes (n : Nat) : Read Bytes := fun s =>
  match Bytes.splitExact n s.rest with
  | some (head, rest) => .ok head { s with consumed := s.consumed + n, rest := rest }
  | none => .error .endOfStream s

/-- The next byte. -/
def byte : Read UInt8 := fun s =>
  match s.rest with
  | b :: rest => .ok b { s with consumed := s.consumed + 1, rest := rest }
  | [] => .error .endOfStream s

/-- A number in the next `width` bytes, in the byte order in force. -/
def nat (width : Nat) : Read Nat := do
  let bs ← bytes width
  pure (Bytes.toNat (← get).format.order bs)

/-- A number in the next `width` bytes, least significant byte first in every format. -/
def natLE (width : Nat) : Read Nat := do
  pure (Bytes.toNatLE (← bytes width))

/-- The context of the stream. -/
def context : Read Context := do
  pure (← get).format.context

/-- A digest, always in its stored order. -/
def digest (size : Nat) : Read (Digest size) := fun s =>
  match Bytes.splitExact size s.rest with
  | some (head, rest) =>
      if h : head.length = size then
        .ok ⟨head, h⟩ { s with consumed := s.consumed + size, rest := rest }
      else .error .endOfStream s
  | none => .error .endOfStream s

/-- Replaces the byte order in force. -/
def setOrder (order : ByteOrder) : Read Unit :=
  modify fun s => { s with format := { s.format with order := order } }

/-- Reads with integers most significant byte first; afterwards the order is what it was, also
when the read fails. -/
def bigEndian {α : Type} (r : Read α) : Read α := fun s =>
  let back (t : Stream) : Stream :=
    { t with format := { t.format with order := s.format.order } }
  match r { s with format := { s.format with order := .big } } with
  | .ok a t => .ok a (back t)
  | .error e t => .error e (back t)

/-- As many items as counted, put in front of `acc` in reverse. -/
def manyOnto {α : Type} (item : Read α) (acc : List α) : (count : Nat) → Read (List α)
  | 0 => pure acc.reverse
  | count + 1 => do
      let a ← item
      manyOnto item (a :: acc) count

/-- As many items as counted, one after another. -/
def many {α : Type} (item : Read α) (count : Nat) : Read (List α) :=
  manyOnto item [] count

end Read

/-- A type with a wire format. -/
class Wire (α : Type) where
  /-- The bytes of a value under a format. -/
  write : Format → α → Bytes
  /-- Reads one value off the front of a stream. -/
  read : Read α

export Wire (write read)

/-- The encoding of a value in a context. -/
def encode {α : Type} [Wire α] (c : Context) (a : α) : Bytes :=
  write c.format a

/-- The value that the whole byte string encodes in a context. -/
def decode {α : Type} [Wire α] (c : Context) (bs : Bytes) : Except Error α :=
  match (read : Read α) (Stream.ofBytes c bs) with
  | .ok a s => if s.rest.isEmpty then .ok a else .error .trailingBytes
  | .error e _ => .error e

/-- The length of the encoding. -/
def encodedSize {α : Type} [Wire α] (c : Context) (a : α) : Nat :=
  (encode c a).length

/-! ## Integers and digests -/

instance : Wire UInt8 where
  write _ b := [b]
  read := Read.byte

instance : Wire UInt16 where
  write f n := Bytes.ofNat f.order 2 n.toNat
  read := UInt16.ofNat <$> Read.nat 2

instance : Wire UInt32 where
  write f n := Bytes.ofNat f.order 4 n.toNat
  read := UInt32.ofNat <$> Read.nat 4

instance : Wire UInt64 where
  write f n := Bytes.ofNat f.order 8 n.toNat
  read := UInt64.ofNat <$> Read.nat 8

instance : Wire Int32 where
  write f n := write f n.toUInt32
  read := UInt32.toInt32 <$> read

instance : Wire Int64 where
  write f n := write f n.toUInt64
  read := UInt64.toInt64 <$> read

/-- Any byte but zero is read as true. -/
instance : Wire Bool where
  write _ b := [if b then 1 else 0]
  read := (· != 0) <$> Read.byte

instance {size : Nat} : Wire (Digest size) where
  write _ d := d.bytes
  read := Read.digest size

end StakeChain.Codec
