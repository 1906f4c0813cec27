/-
Arithmetic on numbers of several words.

A wide number is kept as words of 64 bits, the least significant first. Sums
and products go through the words from the low end and hand a carry on,
shifts move whole words and then bits from word to word, and numbers are
compared from the high end. All of it works for any number of words; what
does not fit into as many as were given is lost, or told as a carry.
-/
import StakeChain.Bytes

namespace StakeChain

/-- The words of a number, the least significant first. -/
abbrev Limbs := List UInt64

namespace Limbs

/-- How many numbers a word holds. -/
def base : Nat := 0x10000000000000000

/-- The number in the words. -/
def toNat (a : Limbs) : Nat :=
  a.foldr (fun w acc => w.toNat + base * acc) 0

/-- A number in so many words; higher ones are lost. -/
def ofNat : (count : Nat) → Nat → Limbs
  | 0, _ => []
  | count + 1, n => UInt64.ofNat n :: ofNat count (n / base)

/-- So many words of zero. -/
def zeros (count : Nat) : Limbs :=
  List.replicate count 0

/-- Whether every word is zero. -/
def isZero (a : Limbs) : Bool :=
  a.all (· == 0)

/-! ## Bytes -/

/-- The words in some bytes, eight bytes for each. -/
def ofBytes : (count : Nat) → Bytes → Limbs
  | 0, _ => []
  | count + 1, bs => UInt64.ofNat (Bytes.toNatLE (bs.take 8)) :: ofBytes count (bs.drop 8)

/-- The bytes of the words. -/
def toBytes (a : Limbs) : Bytes :=
  a.flatMap fun w => Bytes.ofNatLE 8 w.toNat

theorem length_toBytes (a : Limbs) : (toBytes a).length = 8 * a.length := by
  induction a with
  | nil => rfl
  | cons w a ih =>
      change (Bytes.ofNatLE 8 w.toNat ++ toBytes a).length = _
      rw [List.length_append, Bytes.length_ofNatLE, ih, List.length_cons]
      omega

/-! ## Sums and products -/

/-- The sum of two words, and whether it was too large and wrapped. -/
def addWord (v w : UInt64) : UInt64 × Bool :=
  (v + w, BitVec.uaddOverflow v.toBitVec w.toBitVec)

/-- The sum of two numbers of as many words and a carry, and the carry that is left. -/
def add (carry : Bool) : Limbs → Limbs → Limbs × Bool
  | v :: a, w :: b =>
      let first := addWord v w
      let second := addWord first.1 carry.toUInt64
      let rest := add (first.2 || second.2) a b
      (second.1 :: rest.1, rest.2)
  | _, _ => ([], carry)

/-- The number with every bit turned over. -/
def complement (a : Limbs) : Limbs :=
  a.map (~~~ ·)

/-- The difference: the sum with the complement and one. -/
def sub (a b : Limbs) : Limbs :=
  (add false a (add false (complement b) (ofNat b.length 1)).1).1

/-- The product with a word, and a carry that is left; the product of two words and a carry
has 128 bits. -/
def mul (factor : UInt64) (carry : BitVec 128) : Limbs → Limbs × BitVec 128
  | [] => ([], carry)
  | w :: a =>
      let product := w.toBitVec.zeroExtend 128 * factor.toBitVec.zeroExtend 128 + carry
      let rest := mul factor (product >>> 64) a
      (UInt64.ofBitVec (product.truncate 64) :: rest.1, rest.2)

/-! ## Shifts -/

/-- Moves bits up by less than a word. What leaves a word enters the next one; `spill` enters
the first. -/
def shiftUp (n : Nat) (spill : UInt64) : Limbs → Limbs
  | [] => []
  | w :: a =>
      (spill ||| w <<< UInt64.ofNat n) ::
        shiftUp n (if 0 < n then w >>> UInt64.ofNat (64 - n) else 0) a

/-- Moves bits down by less than a word. What leaves a word enters the one before. -/
def shiftDown (n : Nat) : Limbs → Limbs
  | [] => []
  | w :: a =>
      (w >>> UInt64.ofNat n ||| if 0 < n then a.headD 0 <<< UInt64.ofNat (64 - n) else 0) ::
        shiftDown n a

/-- Shifts to the left: by whole words, then by bits. -/
def shiftLeft (a : Limbs) (n : Nat) : Limbs :=
  if 64 * a.length ≤ n then zeros a.length
  else (zeros (n / 64) ++ shiftUp (n % 64) 0 a).take a.length

/-- Shifts to the right: by whole words, then by bits. -/
def shiftRight (a : Limbs) (n : Nat) : Limbs :=
  if 64 * a.length ≤ n then zeros a.length
  else shiftDown (n % 64) (a.drop (n / 64)) ++ zeros (n / 64)

/-! ## Order and length -/

/-- The order of the numbers: the highest word that differs decides. -/
def order (a b : Limbs) : Ordering :=
  compare a.reverse b.reverse

/-- The number of bits that a word needs. -/
def wordLength (w : UInt64) : Nat :=
  if w = 0 then 0 else w.toNat.log2 + 1

/-- The number of bits that are needed: those of the highest word that is not zero, and all of
the words below. -/
def bitLength : Limbs → Nat
  | [] => 0
  | w :: a => if isZero a then wordLength w else 64 + bitLength a

/-! ## Quotients -/

/-- Sets a bit. -/
def setBit (a : Limbs) (n : Nat) : Limbs :=
  a.modify (n / 64) fun w => w ||| 1 <<< UInt64.ofNat (n % 64)

/-- Long division: the quotient bits at `shift` and below, put into `quotient`. The divisor
stands shifted to the left by `shift`. -/
def divideFrom : (shift : Nat) → (rest divisor quotient : Limbs) → Limbs
  | 0, rest, divisor, quotient =>
      if order rest divisor == .lt then quotient else setBit quotient 0
  | shift + 1, rest, divisor, quotient =>
      if order rest divisor == .lt then divideFrom shift rest (shiftRight divisor 1) quotient
      else
        divideFrom shift (sub rest divisor) (shiftRight divisor 1) (setBit quotient (shift + 1))

/-- The quotient rounded down, unless the divisor is zero. -/
def divide (a divisor : Limbs) : Option Limbs :=
  if isZero divisor then none
  else if bitLength a < bitLength divisor then some (zeros a.length)
  else
    let shift := bitLength a - bitLength divisor
    some (divideFrom shift a (shiftLeft divisor shift) (zeros a.length))

end Limbs

end StakeChain
