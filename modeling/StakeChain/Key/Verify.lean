/-
Signature verification.

ECDSA signatures are read laxly, and the second number may be in either
half of the group order. Schnorr signatures are the fixed 64-byte form over
keys with one coordinate.
-/
import StakeChain.Hash.Compose
import StakeChain.Key.Encoding

namespace StakeChain.Key

open Curve (Point)

/-- The point of a key: one coordinate, both coordinates, or both with the parity of the second
told once more. -/
def readPoint : Bytes → Option Point
  | [] => none
  | b :: rest =>
      if rest.length = 32 then
        if b = 2 ∨ b = 3 then Point.ofX? (Bytes.toNatBE rest) (b == 3) else none
      else if rest.length = 64 then
        let x := Bytes.toNatBE (rest.take 32)
        let y := Bytes.toNatBE (rest.drop 32)
        if b = 4 ∨ (b = 6 ∧ y % 2 = 0) ∨ (b = 7 ∧ y % 2 = 1) then Point.ofXY? x y else none
      else none

/-- Whether a signature is one of the message by the key at a point. -/
def verifyPoint (key : Point) (sig : Signature) (message : Nat) : Bool :=
  if sig.r = 0 ∨ sig.s = 0 then false
  else
    let i := Curve.inverse sig.s Curve.n
    let u := message % Curve.n * i % Curve.n
    let v := sig.r * i % Curve.n
    match (Point.linear u Point.generator v key).toPlane? with
    | none => false
    | some (x, _) => x % Curve.n == sig.r

/-- Whether `sig`, without hash type, is a signature of the digest by the key. -/
def verifyEcdsa (key sig digest : Bytes) : Bool :=
  match readPoint key, laxSignature sig with
  | some point, some signature => verifyPoint point signature (Bytes.toNatBE digest)
  | _, _ => false

/-- Whether `sig` is a Schnorr signature of the digest by the key with one coordinate. -/
def verifySchnorr (key sig digest : Bytes) : Bool :=
  if key.length ≠ 32 ∨ sig.length ≠ 64 ∨ digest.length ≠ 32 then false
  else
    let rBytes := sig.take 32
    let r := Bytes.toNatBE rBytes
    let s := Bytes.toNatBE (sig.drop 32)
    if r ≥ Curve.p ∨ s ≥ Curve.n then false
    else
      match Point.ofX? (Bytes.toNatBE key) false with
      | none => false
      | some point =>
          let challenge := taggedHash "BIP0340/challenge" (rBytes ++ key ++ digest)
          let e := Bytes.toNatBE challenge.bytes % Curve.n
          let sum := Point.linear s Point.generator (Curve.n - e) point
          match sum.toPlane? with
          | none => false
          | some (x, y) => y % 2 == 0 && x == r

end StakeChain.Key
