/-
The curve y² = x³ + 7 over the prime field of secp256k1.

Points are kept in Jacobian coordinates, (X, Y, Z) for (X/Z², Y/Z³), with
Z = 0 for the point at infinity, so that only the end of a computation
divides. Field elements are natural numbers below the prime.
-/

namespace StakeChain.Curve

/-- The field prime. -/
def p : Nat := 0xfffffffffffffffffffffffffffffffffffffffffffffffffffffffefffffc2f

/-- The order of the group. -/
def n : Nat := 0xfffffffffffffffffffffffffffffffebaaedce6af48a03bbfd25e8cd0364141

/-- A power modulo `m`, over the `width` low bits of the exponent, the highest first. -/
def powMod (base m exponent : Nat) : (width : Nat) → Nat
  | 0 => 1 % m
  | width + 1 =>
      let half := powMod base m (exponent / 2) width
      let square := half * half % m
      if exponent % 2 = 1 then square * base % m else square

/-- The inverse modulo a prime above two, by Fermat; zero for zero. -/
def inverse (a m : Nat) : Nat :=
  powMod (a % m) m (m - 2) 256

/-- A square root in the field, if there is one. The prime is three modulo four. -/
def sqrt? (a : Nat) : Option Nat :=
  let r := powMod a p ((p + 1) / 4) 256
  if r * r % p = a % p then some r else none

/-- A difference in the field, of numbers below the prime. -/
def subP (a b : Nat) : Nat :=
  (a + (p - b)) % p

/-- A point in Jacobian coordinates. -/
structure Point where
  x : Nat
  y : Nat
  z : Nat

namespace Point

/-- The point at infinity. -/
def infinity : Point :=
  ⟨1, 1, 0⟩

/-- The point with these plane coordinates. -/
def ofPlane (x y : Nat) : Point :=
  ⟨x, y, 1⟩

/-- The generator of the group. -/
def generator : Point :=
  ofPlane 0x79be667ef9dcbbac55a06295ce870b07029bfcdb2dce28d959f2815b16f81798
    0x483ada7726a3c4655da4fbfc0e1108a8fd17b448a68554199c47d08ffb10d4b8

/-- Twice a point. -/
def double (a : Point) : Point :=
  if a.z = 0 ∨ a.y = 0 then infinity
  else
    let yy := a.y * a.y % p
    let s := 4 * a.x * yy % p
    let m := 3 * a.x * a.x % p
    let x := subP (m * m % p) (2 * s % p)
    let y := subP (m * subP s x % p) (8 * yy * yy % p)
    ⟨x, y, 2 * a.y * a.z % p⟩

/-- The sum of two points. -/
def add (a b : Point) : Point :=
  if a.z = 0 then b
  else if b.z = 0 then a
  else
    let za := a.z * a.z % p
    let zb := b.z * b.z % p
    let ua := a.x * zb % p
    let ub := b.x * za % p
    let sa := a.y * zb * b.z % p
    let sb := b.y * za * a.z % p
    if ua = ub then
      if sa = sb then double a else infinity
    else
      let h := subP ub ua
      let r := subP sb sa
      let hh := h * h % p
      let hhh := h * hh % p
      let v := ua * hh % p
      let x := subP (subP (r * r % p) hhh) (2 * v % p)
      let y := subP (r * subP v x % p) (sa * hhh % p)
      ⟨x, y, h * a.z * b.z % p⟩

/-- The point reflected in the first axis. -/
def negate (a : Point) : Point :=
  ⟨a.x, (p - a.y) % p, a.z⟩

/-- The sum `u·a + v·b`, over the `width` low bits of both factors, the highest first. -/
def combine (a b sum : Point) (u v : Nat) : (width : Nat) → Point
  | 0 => infinity
  | width + 1 =>
      let d := double (combine a b sum (u / 2) (v / 2) width)
      match u % 2 == 1, v % 2 == 1 with
      | true, true => add d sum
      | true, false => add d a
      | false, true => add d b
      | false, false => d

/-- The sum `u·a + v·b`. -/
def linear (u : Nat) (a : Point) (v : Nat) (b : Point) : Point :=
  combine a b (add a b) u v 256

/-- The plane coordinates, unless it is the point at infinity. -/
def toPlane? (a : Point) : Option (Nat × Nat) :=
  if a.z = 0 then none
  else
    let i := inverse a.z p
    let ii := i * i % p
    some (a.x * ii % p, a.y * ii * i % p)

/-- The point with a first coordinate, and with the second coordinate odd or even as asked. -/
def ofX? (x : Nat) (odd : Bool) : Option Point :=
  if x ≥ p then none
  else (sqrt? (x * x * x + 7)).map fun y =>
    if (y % 2 == 1) == odd then ofPlane x y else ofPlane x ((p - y) % p)

/-- The point with both coordinates, if it lies on the curve. -/
def ofXY? (x y : Nat) : Option Point :=
  if x ≥ p ∨ y ≥ p ∨ y * y % p ≠ (x * x * x + 7) % p then none else some (ofPlane x y)

end Point

end StakeChain.Curve
