/-
256-bit numbers are calculated with as numbers are.

A number and its four words tell the same, so what was shown of words is carried
over: a sum wraps and tells so, a product is given exactly if it fits, a quotient
unless the divisor is zero, and a number needs as many bits as it has. A hash is
read eight bytes at a time, and of two hashes that one is before the other whose
number is less.
-/
import StakeChain.Proofs.LongDivision
import StakeChain.Work.U256

namespace StakeChain

/-- A digest is read as a number of so many bytes. -/
theorem Digest.toNat_lt {size : Nat} (d : Digest size) : d.toNat < 256 ^ size := by
  have hlt := Bytes.toNatLE_lt d.bytes
  rwa [d.length_bytes] at hlt

namespace U256

variable {a d : U256}

theorem toNat_eq_zero_iff : a.toNat = 0 ↔ a = 0 :=
  ⟨fun h => BitVec.eq_of_toNat_eq h, fun h => h ▸ rfl⟩

theorem toNat_ne_zero (h : a ≠ 0) : a.toNat ≠ 0 :=
  mt toNat_eq_zero_iff.mp h

/-! ## Four words -/

theorem base_pow_four : Limbs.base ^ 4 = 2 ^ 256 := rfl

theorem toNat_limbs (a : U256) : Limbs.toNat a.limbs = a.toNat := by
  rw [limbs, Limbs.toNat_ofNat, base_pow_four, Nat.mod_eq_of_lt a.isLt]

theorem toNat_ofLimbs {l : Limbs} (h : l.length = 4) : (ofLimbs l).toNat = Limbs.toNat l := by
  have hlt := Limbs.toNat_lt l
  rw [h, base_pow_four] at hlt
  rw [ofLimbs, BitVec.toNat_ofNat, Nat.mod_eq_of_lt hlt]

/-- Four words are found again in the number that they hold. -/
theorem limbs_ofLimbs {l : Limbs} (h : l.length = 4) : (ofLimbs l).limbs = l := by
  rw [limbs, toNat_ofLimbs h, ← h, Limbs.ofNat_toNat]

theorem ofLimbs_eq {l : Limbs} (h : l.length = 4) (heq : Limbs.toNat l = a.toNat) :
    ofLimbs l = a :=
  BitVec.eq_of_toNat_eq ((toNat_ofLimbs h).trans heq)

/-! ## Lengths -/

theorem bitLength_le_iff (a : U256) (k : Nat) : bitLength a ≤ k ↔ a.toNat < 2 ^ k := by
  rw [bitLength, Limbs.bitLength_le_iff, toNat_limbs]

theorem bitLength_of_ne_zero (h : a ≠ 0) : bitLength a = a.toNat.log2 + 1 := by
  refine Nat.le_antisymm ((bitLength_le_iff a _).mpr Nat.lt_log2_self) ?_
  exact (Nat.log2_lt (toNat_ne_zero h)).mpr ((bitLength_le_iff a _).mp (Nat.le_refl _))

theorem lt_two_pow_bitLength (a : U256) : a.toNat < 2 ^ bitLength a :=
  (bitLength_le_iff a _).mp (Nat.le_refl _)

theorem two_pow_bitLength_le (h : a ≠ 0) : 2 ^ bitLength a ≤ a.toNat * 2 := by
  rw [bitLength_of_ne_zero h, Nat.pow_succ]
  exact Nat.mul_le_mul_right 2 (Nat.log2_self_le (toNat_ne_zero h))

theorem bitLength_le (a : U256) : bitLength a ≤ 256 :=
  (bitLength_le_iff a 256).mpr a.isLt

/-! ## Products -/

theorem toNat_ofUInt64 (n : UInt64) : (ofUInt64 n).toNat = n.toNat := by
  rw [ofUInt64, BitVec.toNat_setWidth_of_le (by decide), UInt64.toNat_toBitVec]

/-- A product with a 64-bit factor is given exactly if it fits. -/
theorem checkedMul_eq (a : U256) (factor : UInt64) :
    checkedMul a factor =
      if a.toNat * factor.toNat < 2 ^ 256 then some (a * ofUInt64 factor) else none := by
  have hlength : (Limbs.mul factor 0 a.limbs).1.length = 4 := Limbs.length_mul factor 0 a.limbs
  have hlow := Limbs.toNat_lt (Limbs.mul factor 0 a.limbs).1
  have hmul := Limbs.mul_eq factor (show (0 : BitVec 128).toNat < Limbs.base by decide) a.limbs
  rw [length_limbs, toNat_limbs, base_pow_four] at hmul
  rw [hlength, base_pow_four] at hlow
  change _ = a.toNat * factor.toNat + 0 at hmul
  have hfits : (Limbs.mul factor 0 a.limbs).2 = 0 ↔ a.toNat * factor.toNat < 2 ^ 256 := by
    rw [← BitVec.toNat_inj]
    change (Limbs.mul factor 0 a.limbs).2.toNat = 0 ↔ _
    omega
  rw [checkedMul]
  simp only [hfits]
  split
  · next hlt =>
      refine congrArg some (ofLimbs_eq hlength ?_)
      rw [BitVec.toNat_mul, toNat_ofUInt64, Nat.mod_eq_of_lt hlt]
      have hcarry : (Limbs.mul factor 0 a.limbs).2.toNat = 0 := by
        rw [hfits.mpr hlt]
        rfl
      omega
  · rfl

/-! ## Quotients -/

/-- Long division gives the quotient. -/
theorem checkedDiv_eq (a d : U256) : checkedDiv a d = if d = 0 then none else some (a / d) := by
  have hdivide := Limbs.divide_eq (a := a.limbs) (b := d.limbs) rfl
  rw [toNat_limbs, toNat_limbs] at hdivide
  have hofLimbs : (Limbs.divide a.limbs d.limbs).map ofLimbs =
      ((Limbs.divide a.limbs d.limbs).map Limbs.toNat).map (BitVec.ofNat 256) := by
    rw [Option.map_map]
    rfl
  rw [checkedDiv, hofLimbs, hdivide]
  simp only [toNat_eq_zero_iff]
  split
  · rfl
  · refine congrArg some (BitVec.eq_of_toNat_eq ?_)
    have hlt : a.toNat / d.toNat < 2 ^ 256 := (Nat.div_le_self _ _).trans_lt a.isLt
    rw [BitVec.toNat_udiv, BitVec.toNat_ofNat, Nat.mod_eq_of_lt hlt]

/-! ## Hashes -/

theorem toNat_ofHash (h : Hash256) : (ofHash h).toNat = h.toNat := by
  have hlt : h.toNat < 2 ^ 256 := h.toNat_lt
  rw [ofHash, ofLimbs, Limbs.toNat_ofBytes h.length_bytes]
  exact Nat.mod_eq_of_lt hlt

theorem toNat_toHash (a : U256) : (toHash a).toNat = a.toNat :=
  (Limbs.toNatLE_toBytes a.limbs).trans (toNat_limbs a)

theorem ofHash_toHash (a : U256) : ofHash (toHash a) = a :=
  BitVec.eq_of_toNat_eq ((toNat_ofHash _).trans (toNat_toHash a))

theorem toHash_ofHash (h : Hash256) : toHash (ofHash h) = h := by
  have hsame : (toHash (ofHash h)).toNat = h.toNat := (toNat_toHash _).trans (toNat_ofHash h)
  have hbytes := Bytes.ofNatLE_toNatLE (toHash (ofHash h)).length_bytes
  change Bytes.ofNatLE 32 (toHash (ofHash h)).toNat = _ at hbytes
  rw [hsame] at hbytes
  exact Digest.ext (hbytes.symm.trans (Bytes.ofNatLE_toNatLE h.length_bytes))

/-- Hashes are in the order of their numbers. -/
theorem compare_hash (h h' : Hash256) : compare h h' = compare h.toNat h'.toNat := by
  refine Limbs.compare_reverse UInt8.toNat_lt (fun v w => ?_)
    (h.length_bytes.trans h'.length_bytes.symm)
  simp only [compare, compareOfLessAndEq, UInt8.lt_iff_toNat_lt, UInt8.toNat_inj]

/-! ## All operations -/

theorem toNat_overflowingAdd (a b : U256) :
    (overflowingAdd a b).1.toNat = (a.toNat + b.toNat) % 2 ^ 256 := by
  have hlength : (Limbs.add false a.limbs b.limbs).1.length = 4 := Limbs.length_add false rfl
  have hadd := Limbs.toNat_add false (a := a.limbs) (b := b.limbs) rfl
  rw [toNat_limbs, toNat_limbs, length_limbs, base_pow_four] at hadd
  exact (toNat_ofLimbs hlength).trans hadd

theorem carry_overflowingAdd_iff (a b : U256) :
    (overflowingAdd a b).2 = true ↔ 2 ^ 256 ≤ a.toNat + b.toNat := by
  have hcarry := Limbs.carry_add_iff false (a := a.limbs) (b := b.limbs) rfl
  rwa [toNat_limbs, toNat_limbs, length_limbs, base_pow_four] at hcarry

theorem ofLimbs_sub (a b : U256) : ofLimbs (Limbs.sub a.limbs b.limbs) = a - b := by
  have hsub := Limbs.toNat_sub (a := a.limbs) (b := b.limbs) rfl
  rw [toNat_limbs, toNat_limbs, length_limbs, base_pow_four] at hsub
  refine ofLimbs_eq (Limbs.length_sub rfl) ?_
  rw [hsub, BitVec.toNat_sub, Nat.add_comm]

theorem toNat_shiftLeft (a : U256) (n : Nat) :
    (shiftLeft a n).toNat = a.toNat * 2 ^ n % 2 ^ 256 := by
  have hshift := Limbs.toNat_shiftLeft a.limbs n
  rw [toNat_limbs, length_limbs, base_pow_four] at hshift
  exact (toNat_ofLimbs (Limbs.length_shiftLeft a.limbs n)).trans hshift

theorem toNat_shiftRight (a : U256) (n : Nat) : (shiftRight a n).toNat = a.toNat / 2 ^ n := by
  have hshift := Limbs.toNat_shiftRight a.limbs n
  rw [toNat_limbs] at hshift
  exact (toNat_ofLimbs (Limbs.length_shiftRight a.limbs n)).trans hshift

theorem order_eq (a b : U256) : order a b = compare a.toNat b.toNat := by
  have horder := Limbs.order_eq (a := a.limbs) (b := b.limbs) rfl
  rwa [toNat_limbs, toNat_limbs] at horder

theorem bitLength_eq_size (a : U256) : bitLength a = a.toNat.size := by
  rw [bitLength, Limbs.bitLength_eq, toNat_limbs]

theorem map_toNat_checkedMul (a : U256) (factor : UInt64) :
    (checkedMul a factor).map BitVec.toNat =
      if a.toNat * factor.toNat < 2 ^ 256 then some (a.toNat * factor.toNat) else none := by
  rw [checkedMul_eq]
  split
  · next hfits => rw [Option.map_some, BitVec.toNat_mul, toNat_ofUInt64, Nat.mod_eq_of_lt hfits]
  · rfl

theorem map_toNat_checkedDiv (a b : U256) :
    (checkedDiv a b).map BitVec.toNat =
      if b.toNat = 0 then none else some (a.toNat / b.toNat) := by
  rw [checkedDiv_eq]
  simp only [toNat_eq_zero_iff]
  split
  · rfl
  · rfl

/-- Any four words are those of a number, and what is calculated on them is what is calculated on
their numbers. A sum and a difference are taken modulo `2 ^ 256`, and the carry tells of a sum that
is not below that; a product with a word is given exactly if it is below; a quotient is rounded
down, and given unless the divisor is zero, which stands shifted at first without having lost a
bit; shifts are products and quotients by powers of two; order and length are those of the numbers;
and numbers are kept in hashes one to one and in order. -/
theorem calculates_as_numbers (a b : U256) :
    (∀ words : Limbs, words.length = 4 → (ofLimbs words).limbs = words) ∧
    ((overflowingAdd a b).1.toNat = (a.toNat + b.toNat) % 2 ^ 256 ∧
      ((overflowingAdd a b).2 = true ↔ 2 ^ 256 ≤ a.toNat + b.toNat)) ∧
    (ofLimbs (Limbs.sub a.limbs b.limbs) = a - b ∧
      (a - b).toNat = (a.toNat + (2 ^ 256 - b.toNat)) % 2 ^ 256) ∧
    (∀ factor : UInt64, (checkedMul a factor).map BitVec.toNat =
      if a.toNat * factor.toNat < 2 ^ 256 then some (a.toNat * factor.toNat) else none) ∧
    ((checkedDiv a b).map BitVec.toNat =
        (if b.toNat = 0 then none else some (a.toNat / b.toNat)) ∧
      (bitLength b ≤ bitLength a →
        Limbs.toNat (Limbs.shiftLeft b.limbs (bitLength a - bitLength b)) =
          b.toNat * 2 ^ (bitLength a - bitLength b))) ∧
    (∀ n, (shiftLeft a n).toNat = a.toNat * 2 ^ n % 2 ^ 256 ∧
      (shiftRight a n).toNat = a.toNat / 2 ^ n) ∧
    order a b = compare a.toNat b.toNat ∧
    bitLength a = a.toNat.size ∧
    (ofHash (toHash a) = a ∧ order a b = compare (toHash a) (toHash b)) ∧
    ∀ h h' : Hash256, toHash (ofHash h) = h ∧ compare h h' = order (ofHash h) (ofHash h') := by
  refine ⟨fun _ => limbs_ofLimbs, ⟨toNat_overflowingAdd a b, carry_overflowingAdd_iff a b⟩,
    ⟨ofLimbs_sub a b, ?_⟩, map_toNat_checkedMul a, ⟨map_toNat_checkedDiv a b, ?_⟩, ?_,
    order_eq a b, bitLength_eq_size a, ⟨ofHash_toHash a, ?_⟩, ?_⟩
  · rw [BitVec.toNat_sub, Nat.add_comm]
  · intro hlong
    have hshifted := Limbs.toNat_shiftLeft_of_bitLength (a := a.limbs) (b := b.limbs) rfl hlong
    rwa [toNat_limbs] at hshifted
  · intro n
    exact ⟨toNat_shiftLeft a n, toNat_shiftRight a n⟩
  · rw [order_eq, compare_hash, toNat_toHash, toNat_toHash]
  · intro h h'
    refine ⟨toHash_ofHash h, ?_⟩
    rw [order_eq, compare_hash, toNat_ofHash, toNat_ofHash]

/-- One is added to the greatest number, which goes through all words, and the greatest number is
divided by one that has a word and a bit. -/
theorem calculates_as_numbers_greatest :
    let greatest : U256 := BitVec.allOnes 256
    let divisor : U256 := 0x10000000000000001
    (ofLimbs [1, 1, 0, 0]).limbs = [1, 1, 0, 0] ∧
      ((overflowingAdd greatest 1).1.toNat = 0 ∧ (overflowingAdd greatest 1).2 = true) ∧
      (checkedDiv greatest divisor).map BitVec.toNat =
        some 0xffffffffffffffff0000000000000000ffffffffffffffff ∧
      bitLength divisor ≤ bitLength greatest ∧
      Limbs.toNat (Limbs.shiftLeft divisor.limbs (bitLength greatest - bitLength divisor)) =
        divisor.toNat * 2 ^ (bitLength greatest - bitLength divisor) := by
  intro greatest divisor
  obtain ⟨-, ⟨hsum, hcarry⟩, -⟩ := calculates_as_numbers greatest 1
  obtain ⟨hwords, -, -, -, ⟨hquotient, hshifted⟩, -⟩ := calculates_as_numbers greatest divisor
  have hlong : bitLength divisor ≤ bitLength greatest := by decide +kernel
  refine ⟨hwords [1, 1, 0, 0] rfl, ⟨hsum.trans (by decide +kernel), hcarry.mpr (by decide +kernel)⟩,
    hquotient.trans (by decide +kernel), hlong, hshifted hlong⟩

end U256

end StakeChain
