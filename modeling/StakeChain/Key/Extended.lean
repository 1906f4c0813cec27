/-
Extended secret keys, from which further keys are derived.

A key derives children by number. The children from `2 ^ 31` on are made
from the secret, the others from the public key.
-/
import StakeChain.Codec.Stream
import StakeChain.Key.Verify

namespace StakeChain.Key

open Codec (Wire Read)
open Curve (Point)

/-- A secret key: a number from one to below the group order. -/
structure SecretKey where
  value : Nat
  pos : 0 < value
  lt_order : value < Curve.n
deriving DecidableEq

namespace SecretKey

/-- The secret key of a number, if it is one. -/
def ofNat? (k : Nat) : Option SecretKey :=
  if h : 0 < k ∧ k < Curve.n then some ⟨k, h.1, h.2⟩ else none

/-- Thirty-two bytes, most significant first. -/
def toBytes (k : SecretKey) : Bytes :=
  Bytes.ofNatBE 32 k.value

/-- The public key in its form with one coordinate. -/
def publicKey (k : SecretKey) : Bytes :=
  match (Point.linear k.value Point.generator 0 Point.infinity).toPlane? with
  | some (x, y) => (if y % 2 = 1 then 3 else 2) :: Bytes.ofNatBE 32 x
  | none => []

end SecretKey

/-- Why a key is not there. -/
inductive Error where
  /-- The derived number is no key; the next child may be one. -/
  | invalidDerivation
  /-- The number taken for a key is none. -/
  | invalidSecret
deriving DecidableEq, Repr

namespace Error

/-- The name of the kind of error. -/
def name : Error → String
  | invalidDerivation => "InvalidDerivation"
  | invalidSecret => "Secp256k1"

/-- What is said of the key. -/
def message : Error → String
  | invalidDerivation => "derived key is invalid, retry with the next index"
  | invalidSecret => "secp256k1: malformed or out-of-range secret key"

end Error

/-- An extended secret key. -/
structure ExtendedKey where
  depth : UInt8
  parent : Digest 4
  child : UInt32
  chainCode : Digest 32
  secret : SecretKey
deriving DecidableEq

namespace ExtendedKey

/-- The two halves of a keyed hash: a number and a chain code. -/
def halves (mac : Digest 64) : Nat × Digest 32 :=
  (Bytes.toNatBE (mac.bytes.take 32), ⟨mac.bytes.drop 32, by simp [mac.length_bytes]⟩)

/-- The key at the root, from a seed. -/
def master (seed : Bytes) : Except Error ExtendedKey :=
  let (number, chainCode) := halves (hmacSha512 "Bitcoin seed".toUTF8.toList seed)
  match SecretKey.ofNat? number with
  | some secret => .ok ⟨0, Digest.zero, 0, chainCode, secret⟩
  | none => .error .invalidSecret

/-- The start of the hash of the public key. -/
def fingerprint (k : ExtendedKey) : Digest 4 :=
  let id := hash160 k.secret.publicKey
  ⟨id.bytes.take 4, by simp [id.length_bytes]⟩

/-- The first child that is made from the secret. -/
def hardenedStart : UInt32 := 0x80000000

/-- The child of a number. -/
def derive (k : ExtendedKey) (child : UInt32) : Except Error ExtendedKey :=
  let source :=
    if child ≥ hardenedStart then 0 :: k.secret.toBytes else k.secret.publicKey
  let mac := hmacSha512 k.chainCode.bytes (source ++ Bytes.ofNatBE 4 child.toNat)
  let (tweak, chainCode) := halves mac
  if tweak ≥ Curve.n then .error .invalidDerivation
  else
    match SecretKey.ofNat? ((k.secret.value + tweak) % Curve.n) with
    | some secret => .ok ⟨k.depth + 1, k.fingerprint, child, chainCode, secret⟩
    | none => .error .invalidDerivation

/-- Reads a key: the number of the child stands most significant byte first, and a zero byte
stands before the secret. -/
def read : Read ExtendedKey := do
  let depth ← Codec.read
  let parent ← Codec.read
  let child ← Read.bigEndian Codec.read
  let chainCode ← Codec.read
  let zero ← Read.byte
  if zero ≠ 0 then throw .invalidKeyMaterial
  let secret ← Read.bytes 32
  match SecretKey.ofNat? (Bytes.toNatBE secret) with
  | some secret => pure ⟨depth, parent, child, chainCode, secret⟩
  | none => throw .invalidKeyMaterial

instance : Wire ExtendedKey where
  write f k :=
    Codec.write f k.depth ++ Codec.write f k.parent
      ++ Codec.write { f with order := .big } k.child ++ Codec.write f k.chainCode
      ++ 0 :: k.secret.toBytes
  read := read

end ExtendedKey

end StakeChain.Key
