/-
Reading typed values from JSON.

A record is written as an object with its fields by name, where unknown
names are passed over and a repeated known name is refused, or as an array
of its fields in their order. A field that is left out takes its default
if it has one.
-/
import StakeChain.Json

namespace StakeChain.Json

/-- A value read by a type's rules, if it fits them. -/
abbrev Reader (α : Type) := Json → Option α

/-- A truth value. -/
def readBool : Reader Bool
  | bool b => some b
  | _ => none

/-- An integer between bounds, both included. -/
def readInt (low high : Int) : Reader Int
  | int n => if low ≤ n ∧ n ≤ high then some n else none
  | _ => none

/-- A natural number of at most `width` bits. -/
def readNat (width : Nat) : Reader Nat := fun j =>
  (readInt 0 (Nat.pow 2 width - 1 : Nat) j).map Int.toNat

def readUInt8 : Reader UInt8 := fun j => (readNat 8 j).map UInt8.ofNat

def readUInt32 : Reader UInt32 := fun j => (readNat 32 j).map UInt32.ofNat

def readUInt64 : Reader UInt64 := fun j => (readNat 64 j).map UInt64.ofNat

def readInt32 : Reader Int32 := fun j =>
  (readInt Int32.minValue.toInt Int32.maxValue.toInt j).map Int32.ofInt

def readInt64 : Reader Int64 := fun j =>
  (readInt Int64.minValue.toInt Int64.maxValue.toInt j).map Int64.ofInt

def readString : Reader String
  | text literal => unescape literal
  | _ => none

/-- An array of any length. -/
def readList {α : Type} (item : Reader α) : Reader (List α)
  | arr items => items.mapM item
  | _ => none

/-- A pair, written as an array of two. -/
def readPair {α β : Type} (first : Reader α) (second : Reader β) : Reader (α × β)
  | arr [a, b] => do
      let a ← first a
      let b ← second b
      pure (a, b)
  | _ => none

/-- A value that may be missing, written as null. -/
def readOption {α : Type} (item : Reader α) : Reader (Option α)
  | null => some none
  | j => (item j).map some

/-- The fields found in a record, by name. -/
structure Record where
  fields : List (String × Json)

namespace Record

/-- The value of a field, if it was written. -/
def find? (r : Record) (name : String) : Option Json :=
  (r.fields.find? fun f => f.1 == name).map (·.2)

/-- A field that has to be there. -/
def required {α : Type} (r : Record) (name : String) (read : Reader α) : Option α := do
  read (← r.find? name)

/-- A field that may be left out. -/
def withDefault {α : Type} (r : Record) (name : String) (read : Reader α) (default : α) :
    Option α :=
  match r.find? name with
  | some j => read j
  | none => some default

end Record

/-- Collects the known members of an object; none when one is repeated or a name has no text. -/
def knownMembers (names : List String) (acc : List (String × Json)) :
    List (List Char × Json) → Option (List (String × Json))
  | [] => some acc
  | (key, v) :: rest => do
      let name ← unescape key
      if name ∈ names then
        if acc.any fun f => f.1 == name then none
        else knownMembers names ((name, v) :: acc) rest
      else knownMembers names acc rest

/-- The fields of a record whose fields have these names, in this order. -/
def readRecord (names : List String) : Reader Record
  | obj members => (knownMembers names [] members).map Record.mk
  | arr items => if items.length ≤ names.length then some ⟨names.zip items⟩ else none
  | _ => none

/-- One of several plain names, written as text or as an object with a null member. -/
def readName {α : Type} (byName : String → Option α) : Reader α
  | text literal => (unescape literal).bind byName
  | obj [(key, null)] => (unescape key).bind byName
  | _ => none

/-- One of several named values, written as an object with one member. -/
def readTagged {α : Type} (byName : String → Option (Reader α)) : Reader α
  | obj [(key, v)] => do
      let read ← byName (← unescape key)
      read v
  | _ => none

end StakeChain.Json
