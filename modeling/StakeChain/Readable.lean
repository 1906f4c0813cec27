/-
The readable form of values.

Tools show values as JSON that people can read: hashes in their shown form,
byte strings in hexadecimal, integers of more than 32 bits as text, since
many JSON readers would round them. The same form is read back; a member
that is null is as good as left out.
-/
import StakeChain.Codec.Stream
import StakeChain.Json.Record

namespace StakeChain

/-- Why a value has no readable form like that. -/
inductive Unreadable where
  /-- A member is missing, or of another shape than expected. -/
  | shape (what : String)
  /-- A hexadecimal text stands for no value. -/
  | codec (e : Codec.Error)
  /-- Network parameters do not fit. -/
  | params
deriving DecidableEq, Repr

/-- The outcome of reading. -/
abbrev Reading (α : Type) := Except Unreadable α

/-- Types with a readable form. -/
class Readable (α : Type) where
  /-- The readable form. -/
  shown : α → Json
  /-- Reads the readable form. -/
  given : Json → Reading α

export Readable (shown given)

namespace Reading

/-- Refuses a shape. -/
def refuse {α : Type} (what : String) : Reading α :=
  .error (.shape what)

/-- Takes a value that is there, and refuses otherwise. -/
def ofOption {α : Type} (what : String) : Option α → Reading α
  | some a => .ok a
  | none => refuse what

end Reading

/-! ## Plain values -/

instance : Readable Bool where
  shown b := .bool b
  given j := .ofOption "bool" (Json.readBool j)

instance : Readable String where
  shown := Json.ofString
  given j := .ofOption "text" (Json.readString j)

instance : Readable Json where
  shown j := j
  given j := .ok j

/-- Sizes and counts are numbers. -/
instance : Readable Nat where
  shown := Json.ofNat
  given j := .ofOption "nat" (Json.readNat 64 j)

instance : Readable UInt8 where
  shown n := Json.ofNat n.toNat
  given j := .ofOption "u8" (Json.readUInt8 j)

instance : Readable UInt16 where
  shown n := Json.ofNat n.toNat
  given j := (.ofOption "u16" (Json.readNat 16 j) : Reading Nat).map UInt16.ofNat

instance : Readable UInt32 where
  shown n := Json.ofNat n.toNat
  given j := .ofOption "u32" (Json.readUInt32 j)

instance : Readable Int32 where
  shown n := .int n.toInt
  given j := .ofOption "i32" (Json.readInt32 j)

/-- An integer between bounds, given as text. -/
def Reading.integer (low high : Int) (j : Json) : Reading Int := do
  let text : String ← given j
  match text.toInt? with
  | some n => if low ≤ n ∧ n ≤ high then pure n else refuse "integer"
  | none => refuse "integer"

/-- Amounts and operands are text. -/
instance : Readable Int where
  shown n := Json.ofString (toString n)
  given := Reading.integer Int64.minValue.toInt Int64.maxValue.toInt

instance : Readable Int64 where
  shown n := shown n.toInt
  given j := (given j : Reading Int).map Int64.ofInt

instance : Readable UInt64 where
  shown n := shown (n.toNat : Int)
  given j := (Reading.integer 0 (UInt64.size - 1 : Nat) j).map fun n => UInt64.ofNat n.toNat

/-- The order of two values is minus one, zero or one. -/
instance : Readable Ordering where
  shown
    | .lt => .int (-1)
    | .eq => .int 0
    | .gt => .int 1
  given
    | .int n => .ok (compare n 0)
    | _ => .refuse "order"

/-! ## Containers -/

instance {α : Type} [Readable α] : Readable (List α) where
  shown as := .arr (as.map shown)
  given
    | .arr items => items.mapM given
    | _ => .refuse "list"

/-- Nothing is null. -/
instance {α : Type} [Readable α] : Readable (Option α) where
  shown
    | some a => shown a
    | none => .null
  given
    | .null => .ok none
    | j => (given j).map some

/-! ## Byte strings -/

namespace Bytes

/-- The hexadecimal text of a byte string. -/
def shownHex (bs : Bytes) : Json :=
  Json.ofString (Hex.encode bs)

/-- Reads hexadecimal text. -/
def givenHex (j : Json) : Reading Bytes := do
  let text : String ← given j
  match Hex.decode text with
  | .ok bs => pure bs
  | .error _ => .refuse "hex"

/-- Reads a part of a byte string: hexadecimal text, or an object with such text and a number of
repetitions. -/
def givenPart (part : Json) : Reading Bytes :=
  match part.get? "x", part.get? "n" with
  | some x, some n => do
      let bs ← givenHex x
      let count : Nat ← given n
      pure (List.replicate count bs).flatten
  | _, _ => givenHex part

end Bytes

/-- A byte string in its readable form: hexadecimal text. Long ones may be given in parts. -/
structure Raw where
  bytes : Bytes

instance : Readable Raw where
  shown r := r.bytes.shownHex
  given
    | .arr parts => do
        let parts ← parts.mapM Bytes.givenPart
        pure ⟨parts.flatten⟩
    | j => (Bytes.givenHex j).map Raw.mk

instance {size : Nat} : Readable (Digest size) where
  shown d := Json.ofString d.display
  given j := do
    let text : String ← given j
    match Digest.parse size text with
    | .ok d => pure d
    | .error e => throw (.codec (.invalidHex e))

/-! ## Members -/

namespace Json

/-- A member of an object, unless it is null. -/
def member? (j : Json) (name : String) : Option Json :=
  match j.get? name with
  | some .null => none
  | r => r

/-- A member that has to be there. -/
def field {α : Type} [Readable α] (j : Json) (name : String) : Reading α :=
  match j.member? name with
  | some v => given v
  | none => .refuse name

/-- A member that may be left out. -/
def field? {α : Type} [Readable α] (j : Json) (name : String) : Reading (Option α) :=
  match j.member? name with
  | some v => (given v).map some
  | none => .ok none

/-- A member that has a value when it is left out. -/
def fieldOr {α : Type} [Readable α] (j : Json) (name : String) (default : α) : Reading α :=
  match j.member? name with
  | some v => given v
  | none => .ok default

/-- A byte string that has to be there. -/
def raw (j : Json) (name : String) : Reading Bytes :=
  (j.field name : Reading Raw).map Raw.bytes

/-- A byte string of some length that has to be there, first byte first. -/
def rawDigest (size : Nat) (j : Json) (name : String) : Reading (Digest size) := do
  .ofOption name (Digest.ofBytes? size (← j.raw name))

end Json

end StakeChain
