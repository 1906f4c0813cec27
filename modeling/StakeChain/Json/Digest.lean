/-
Digests and byte strings as JSON: a digest is the text of its shown form, a
byte string is an array of numbers.
-/
import StakeChain.Bytes.Digest
import StakeChain.Json.Record

namespace StakeChain

namespace Digest

def toJson {size : Nat} (d : Digest size) : Json :=
  Json.ofString d.display

def readJson (size : Nat) : Json.Reader (Digest size) := fun j => do
  (Digest.parse size (← Json.readString j)).toOption

end Digest

namespace Bytes

def toJson (bs : Bytes) : Json :=
  .arr (bs.map fun b => Json.ofNat b.toNat)

def readJson : Json.Reader Bytes :=
  Json.readList Json.readUInt8

end Bytes

end StakeChain
