/-
The hashes that ids and keys are made of.

`hash256` names blocks, transactions and everything a signature commits
to; `hash160` names keys and scripts; the keyed hash derives keys.
-/
import StakeChain.Hash.Sha256
import StakeChain.Hash.Sha512
import StakeChain.Hash.Sha1
import StakeChain.Hash.Ripemd160

namespace StakeChain

/-- SHA-256 twice. -/
def hash256 (message : Bytes) : Hash256 :=
  sha256 (sha256 message).bytes

/-- RIPEMD-160 of SHA-256. -/
def hash160 (message : Bytes) : Hash160 :=
  ripemd160 (sha256 message).bytes

/-- Bytes in a block of SHA-512, to which keys are filled up. -/
def hmacBlockWidth : Nat := 128

/-- The key filled with zeros to a block, after hashing when it is longer than one. -/
def hmacKey (key : Bytes) : Bytes :=
  let short := if key.length > hmacBlockWidth then (sha512 key).bytes else key
  short ++ Bytes.zeros (hmacBlockWidth - short.length)

/-- The keyed hash over SHA-512. -/
def hmacSha512 (key message : Bytes) : Digest 64 :=
  let k := hmacKey key
  let inner := (sha512 (k.map (· ^^^ 0x36) ++ message)).bytes
  sha512 (k.map (· ^^^ 0x5c) ++ inner)

/-- SHA-256 keyed by the hash of a tag, written twice in front of the message. -/
def taggedHash (tag : String) (message : Bytes) : Digest 32 :=
  let t := (sha256 tag.toUTF8.toList).bytes
  sha256 (t ++ t ++ message)

end StakeChain
