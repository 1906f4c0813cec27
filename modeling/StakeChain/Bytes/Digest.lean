/-
Byte strings of a fixed length, and their display.

Hashes are kept in the order in which they are computed and sent. They are
shown with the bytes reversed, and they are compared as numbers whose last
byte is the most significant one, which is the order of the shown texts.
-/
import StakeChain.Bytes.Hex

namespace StakeChain

/-- A byte string of exactly `size` bytes. -/
structure Digest (size : Nat) where
  bytes : Bytes
  length_bytes : bytes.length = size
deriving DecidableEq

/-- Block and transaction ids, and every other double SHA-256. -/
abbrev Hash256 := Digest 32

/-- Ids of keys and scripts. -/
abbrev Hash160 := Digest 20

namespace Digest

variable {size : Nat}

@[ext] theorem ext {a b : Digest size} (h : a.bytes = b.bytes) : a = b := by
  cases a
  cases b
  cases h
  rfl

/-- The digest of these bytes, when they are as many as asked. -/
def ofBytes? (size : Nat) (bs : Bytes) : Option (Digest size) :=
  if h : bs.length = size then some ⟨bs, h⟩ else none

/-- The digest with all bytes zero. -/
def zero : Digest size :=
  ⟨Bytes.zeros size, List.length_replicate⟩

/-- Whether every byte is zero. -/
def isZero (d : Digest size) : Bool :=
  d.bytes.all (· == 0)

/-- The number written in the bytes, least significant first. -/
def toNat (d : Digest size) : Nat :=
  Bytes.toNatLE d.bytes

/-- A number in `size` bytes, least significant first; higher digits are lost. -/
def ofNat (n : Nat) : Digest size :=
  ⟨Bytes.ofNatLE size n, Bytes.length_ofNatLE size n⟩

/-- The order of the numbers written in the bytes: the last byte that differs decides. -/
instance : Ord (Digest size) :=
  ⟨compareOn fun d => d.bytes.reverse⟩

instance : Hashable (Digest size) :=
  ⟨fun d => hash d.bytes⟩

instance : Inhabited (Digest size) :=
  ⟨zero⟩

/-- The shown form: the bytes in reverse, in hexadecimal. -/
def display (d : Digest size) : String :=
  Hex.encode d.bytes.reverse

/-- Reads the shown form. -/
def parse (size : Nat) (text : String) : Except Hex.Error (Digest size) := do
  let bs ← Hex.decode text
  match ofBytes? size bs.reverse with
  | some d => .ok d
  | none => .error (.wrongSize size)

/-- The low 64 bits of the number written in the bytes. -/
def low64 (d : Digest size) : UInt64 :=
  UInt64.ofNat (Bytes.toNatLE (d.bytes.take 8))

/-- The number one. -/
def one : Digest size :=
  ofNat 1

instance : Std.TransOrd (Digest size) :=
  inferInstanceAs (Std.TransCmp (compareOn fun d : Digest size => d.bytes.reverse))

instance : Std.LawfulEqOrd (Digest size) where
  eq_of_compare {a b} h := by
    have h' : compare a.bytes.reverse b.bytes.reverse = .eq := h
    exact ext (List.reverse_inj.mp (Std.LawfulEqOrd.eq_of_compare h'))

end Digest

/-- Block and transaction ids are keys of ordered maps. -/
instance : Std.TransOrd Hash256 :=
  inferInstanceAs (Std.TransOrd (Digest 32))

end StakeChain
