/-
The byte forms of keys and signatures.

A signature in a script is the DER form of two numbers followed by one byte
of hash type. The strict form is the shortest one; the lax reader takes
whatever can be made out as two numbers.
-/
import StakeChain.Bytes
import StakeChain.Curve.Secp256k1

namespace StakeChain.Key

/-! ## Public keys -/

/-- Whether the bytes have the form of a key with one coordinate. -/
def isCompressed : Bytes → Bool
  | b :: rest => (b == 2 || b == 3) && rest.length == 32
  | [] => false

/-- Whether the bytes have the form of a key with one coordinate or with both. -/
def isCompressedOrFull : Bytes → Bool
  | b :: rest =>
      if b = 4 then rest.length == 64 else (b == 2 || b == 3) && rest.length == 32
  | [] => false

/-! ## The strict form of signatures -/

/-- Whether the bytes are the shortest form of a number that is not negative: its sign bit is
clear, and a leading zero is there only to keep it clear. -/
def isShortestNatural : Bytes → Bool
  | [] => false
  | [a] => a < 0x80
  | a :: b :: _ => a < 0x80 && (a != 0 || b ≥ 0x80)

/-- Whether the bytes are a signature in strict form with a hash type. -/
def isStrictSignature (sig : Bytes) : Bool :=
  9 ≤ sig.length && sig.length ≤ 73 &&
    match sig with
    | kind :: total :: kindR :: lengthR :: rest =>
        kind == 0x30 && total.toNat == sig.length - 3 && kindR == 0x02 &&
          match rest.drop lengthR.toNat with
          | kindS :: lengthS :: tail =>
              kindS == 0x02 && tail.length == lengthS.toNat + 1
                && isShortestNatural (rest.take lengthR.toNat)
                && isShortestNatural (tail.take lengthS.toNat)
          | _ => false
    | _ => false

/-- Whether the last byte of a signature is a known hash type. -/
def hasKnownHashType (sig : Bytes) : Bool :=
  match sig.getLast? with
  | some last => 1 ≤ last &&& 0x7f && last &&& 0x7f ≤ 3
  | none => false

/-! ## The lax form of signatures -/

/-- The two numbers of a signature, both below the group order. -/
structure Signature where
  r : Nat
  s : Nat
deriving DecidableEq, Repr

/-- A length: one byte, or as many bytes as the low bits of the first say, leading zeros
aside at most three. -/
def laxLength : Bytes → Option (Nat × Bytes)
  | [] => none
  | b :: rest =>
      if b < 0x80 then some (b.toNat, rest)
      else
        match Bytes.splitExact (b.toNat - 0x80) rest with
        | none => none
        | some (digits, rest) =>
            let digits := digits.dropWhile (· == 0)
            if digits.length ≥ 4 then none else some (Bytes.toNatBE digits, rest)

/-- The bytes of a number after its mark and its length. -/
def laxInteger : Bytes → Option (Bytes × Bytes)
  | kind :: rest =>
      if kind ≠ 0x02 then none
      else
        match laxLength rest with
        | none => none
        | some (length, rest) => Bytes.splitExact length rest
  | [] => none

/-- What follows the mark and the length of the whole; the length itself is not looked at. -/
def laxBody : Bytes → Option Bytes
  | kind :: b :: rest =>
      if kind ≠ 0x30 then none
      else if b < 0x80 then some rest
      else (Bytes.splitExact (b.toNat - 0x80) rest).map (·.2)
  | _ => none

/-- The signature of two digit strings. If either number reaches the group order both become
zero, which no key verifies. -/
def Signature.ofDigits (r s : Bytes) : Signature :=
  let r := Bytes.toNatBE r
  let s := Bytes.toNatBE s
  if r < Curve.n ∧ s < Curve.n then ⟨r, s⟩ else ⟨0, 0⟩

/-- Reads a signature without hash type; bytes after the second number are passed over. -/
def laxSignature (sig : Bytes) : Option Signature := do
  let body ← laxBody sig
  let (r, rest) ← laxInteger body
  let (s, _) ← laxInteger rest
  pure (Signature.ofDigits r s)

/-- Whether the second number is in the lower half of the group order. -/
def Signature.isLow (sig : Signature) : Bool :=
  sig.s ≤ Curve.n / 2

/-- Whether the bytes are a signature whose second number is in the lower half. -/
def isLowS (sig : Bytes) : Bool :=
  match laxSignature sig with
  | some s => s.isLow
  | none => false

end StakeChain.Key
