/-
Compact forms are exact, and writing a number as one keeps the order.

A form is a fraction of base 256: what it stands for is its mantissa times a
power of 256, rounded down, and it is too wide exactly if that does not fit.
The other way the last bytes of a number are lost. How many is told by the
length of the number alone: one more than the full bytes below its highest bit,
as a byte with the bit of the sign set needs another one in front. So the form
of a number is its length, and under it the leading bytes, none of which reach
the length. Both grow with the number. What is left of it is still as long, and
has the same leading bytes, so it has the same form.
-/
import Mathlib.Algebra.Order.Floor.Semifield
import Mathlib.Data.Rat.Floor
import StakeChain.Proofs.CompactForm

namespace StakeChain

/-! ## Lengths in bits -/

namespace U256

variable {a b : U256} {k : Nat}

theorem bitLength_mono (h : a ≤ b) : bitLength a ≤ bitLength b := by
  have hle : a.toNat ≤ b.toNat := h
  exact (bitLength_le_iff a _).mpr (hle.trans_lt (lt_two_pow_bitLength b))

theorem lt_bitLength_of_two_pow_le (h : 2 ^ k ≤ a.toNat) : k < bitLength a :=
  (Nat.pow_lt_pow_iff_right (by decide)).mp (Nat.lt_of_le_of_lt h (lt_two_pow_bitLength a))

/-- Of the bits that a number may have the highest one is set if it needs all of them. -/
theorem testBit_last_iff (ha : a ≠ 0) (h : bitLength a ≤ k) :
    a.toNat.testBit (k - 1) = true ↔ bitLength a = k := by
  have hlength : bitLength a = a.toNat.log2 + 1 := bitLength_of_ne_zero ha
  constructor
  · intro hbit
    refine Nat.le_antisymm h (Nat.le_of_not_lt ?_)
    intro hlt
    have hbelow : a.toNat < 2 ^ (k - 1) :=
      Nat.lt_of_lt_of_le (lt_two_pow_bitLength a) (Nat.pow_le_pow_right Nat.two_pos (by omega))
    rw [Nat.testBit_lt_two_pow hbelow] at hbit
    cases hbit
  · intro hk
    rw [← hk, hlength, Nat.add_sub_cancel]
    exact Nat.testBit_log2 (toNat_ne_zero ha)

end U256

namespace Compact

open U256 (bitLength bitLength_mono lt_bitLength_of_two_pow_le testBit_last_iff)

variable {v w : U256} {bits : UInt32}

/-! ## What a form stands for -/

/-- The number of a form where nothing bounds it: the mantissa times a power of 256, rounded
down. -/
def denoted (bits : UInt32) : Nat :=
  ⌊(mantissa bits : Rat) * 256 ^ ((exponent bits : Int) - 3)⌋₊

theorem denoted_eq (bits : UInt32) :
    denoted bits = leading bits * 2 ^ (8 * (exponent bits - 3)) := by
  rw [denoted, leading, Nat.shiftRight_eq_div_pow, Nat.pow_mul, Nat.pow_mul]
  rcases Nat.le_total (exponent bits) 3 with hle | hge
  · -- the point stands behind some bytes of the mantissa, which are cut off
    have hpower : (256 : Rat) ^ ((exponent bits : Int) - 3) =
        (((256 ^ (3 - exponent bits) : Nat) : Rat))⁻¹ := by
      rw [show (exponent bits : Int) - 3 = -((3 - exponent bits : Nat) : Int) by omega, zpow_neg,
        zpow_natCast]
      push_cast
      rfl
    rw [hpower, ← div_eq_mul_inv, Nat.floor_div_natCast, Nat.floor_natCast,
      Nat.sub_eq_zero_of_le hle]
    simp
  · have hpower : (256 : Rat) ^ ((exponent bits : Int) - 3) =
        ((256 ^ (exponent bits - 3) : Nat) : Rat) := by
      rw [show (exponent bits : Int) - 3 = ((exponent bits - 3 : Nat) : Int) by omega,
        zpow_natCast]
      push_cast
      rfl
    rw [hpower, ← Nat.cast_mul, Nat.floor_natCast, Nat.sub_eq_zero_of_le hge]
    simp

theorem leading_eq_mantissa (h : 3 ≤ exponent bits) : leading bits = mantissa bits := by
  rw [leading, Nat.sub_eq_zero_of_le h]
  rfl

theorem two_pow_le_denoted {b : Nat} (hleading : 2 ^ b ≤ leading bits)
    (hlength : 256 ≤ b + 8 * (exponent bits - 3)) : 2 ^ 256 ≤ denoted bits := by
  rw [denoted_eq]
  calc 2 ^ 256
    _ ≤ 2 ^ (b + 8 * (exponent bits - 3)) := Nat.pow_le_pow_right Nat.two_pos hlength
    _ = 2 ^ b * 2 ^ (8 * (exponent bits - 3)) := Nat.pow_add ..
    _ ≤ leading bits * 2 ^ (8 * (exponent bits - 3)) := Nat.mul_le_mul_right _ hleading

/-- A form is too wide exactly if the number it stands for does not fit. -/
theorem overflow_iff : (expand bits).overflow = true ↔
    mantissa bits ≠ 0 ∧ 2 ^ 256 ≤ denoted bits := by
  constructor
  · intro hwide
    have hfits : ¬ (expand bits).overflow = false := by
      rw [hwide]
      decide
    rw [overflow_eq_false_iff] at hfits
    have hmantissa : leading bits = mantissa bits := leading_eq_mantissa (by omega)
    refine ⟨by omega, ?_⟩
    -- each length has its own number of bits that is too many
    have hlengths : 34 < exponent bits ∨ (0xff < leading bits ∧ 33 < exponent bits) ∨
        (0xffff < leading bits ∧ 32 < exponent bits) := by omega
    rcases hlengths with hlong | ⟨hleading, hlong⟩ | ⟨hleading, hlong⟩
    · exact two_pow_le_denoted (b := 0) (by omega) (by omega)
    · exact two_pow_le_denoted (b := 8) (by omega) (by omega)
    · exact two_pow_le_denoted (b := 16) (by omega) (by omega)
  · rintro ⟨-, hwide⟩
    by_contra hfits
    have hlt := leading_mul_lt (Bool.eq_false_iff.mpr hfits)
    rw [denoted_eq] at hwide
    omega

theorem negative_iff : (expand bits).negative = true ↔
    signed bits = true ∧ leading bits ≠ 0 := by
  simp [expand, and_comm]

theorem toNat_value (h : (expand bits).overflow = false) :
    (expand bits).value.toNat = denoted bits := by
  rw [toNat_expand h, denoted_eq]

/-! ## The length of a form -/

theorem testBit_leadingOf {size : Nat} (hsize : 0 < size) :
    (leadingOf v size).testBit 23 = v.toNat.testBit (8 * size - 1) := by
  rcases Nat.le_total size 3 with hle | hge
  · rw [leadingOf, if_pos hle, Nat.testBit_shiftLeft, decide_eq_true (by omega), Bool.true_and]
    congr 1
    omega
  · rw [leadingOf_eq_div hge, Nat.testBit_div_two_pow]
    congr 1
    omega

/-- The full bytes below the highest bit of a number, and one more. -/
theorem formLength_eq (hv : v ≠ 0) : formLength v = bitLength v / 8 + 1 := by
  have hpos : 0 < bitLength v := by
    rw [U256.bitLength_of_ne_zero hv]
    exact Nat.succ_pos _
  have hbytes : byteLength v = (bitLength v + 7) / 8 := rfl
  have hbit : (leadingOf v (byteLength v)).testBit 23 = true ↔ bitLength v = 8 * byteLength v := by
    rw [testBit_leadingOf (by omega)]
    exact testBit_last_iff hv (by omega)
  rw [formLength]
  by_cases hfull : bitLength v = 8 * byteLength v
  · rw [if_pos (hbit.mpr hfull)]
    omega
  · rw [if_neg (fun h => hfull (hbit.mp h))]
    omega

theorem formLength_mono (hv : v ≠ 0) (h : v ≤ w) : formLength v ≤ formLength w := by
  have hw : w ≠ 0 := by
    rintro rfl
    exact hv (BitVec.le_zero_iff.mp h)
  have hlength := bitLength_mono h
  rw [formLength_eq hv, formLength_eq hw]
  omega

theorem leadingOf_mono (size : Nat) (h : v ≤ w) : leadingOf v size ≤ leadingOf w size := by
  have hle : v.toNat ≤ w.toNat := h
  rcases Nat.le_total size 3 with hshort | hlong
  · rw [leadingOf_eq_mul hshort, leadingOf_eq_mul hshort]
    exact Nat.mul_le_mul_right _ hle
  · rw [leadingOf_eq_div hlong, leadingOf_eq_div hlong]
    exact Nat.div_le_div_right hle

/-! ## Forms of numbers -/

theorem toNat_ofValue (v : U256) :
    (ofValue v).toNat = leadingOf v (formLength v) + formLength v * 0x1000000 := by
  rw [ofValue_eq]
  exact toNat_packed (leadingOf_formLength_lt v)
    (Nat.lt_of_le_of_lt (formLength_le v) (by decide))

theorem ofValue_mono (h : v ≤ w) : (ofValue v).toNat ≤ (ofValue w).toNat := by
  by_cases hv : v = 0
  · subst hv
    exact Nat.zero_le _
  · rw [toNat_ofValue, toNat_ofValue]
    rcases Nat.lt_or_eq_of_le (formLength_mono hv h) with hlt | heq
    · have hleading := leadingOf_formLength_lt v
      omega
    · have hleading := leadingOf_mono (formLength v) h
      rw [← heq]
      omega

/-- What is lost is less than one part in `2 ^ 15`. -/
theorem lost_le (v : U256) : (v.toNat - rounded v) * 2 ^ 15 ≤ v.toNat := by
  rcases Nat.eq_zero_or_pos (dropped v) with hnone | hsome
  · rw [rounded, hnone]
    simp
  · have hkept := le_leading_ofValue hsome
    have hdiv := Nat.div_add_mod v.toNat (2 ^ (8 * dropped v))
    have hmod := Nat.mod_lt v.toNat (Nat.two_pow_pos (8 * dropped v))
    have hlost : v.toNat - rounded v = v.toNat % 2 ^ (8 * dropped v) := by
      rw [rounded, Nat.mul_comm]
      omega
    calc (v.toNat - rounded v) * 2 ^ 15
      _ ≤ 2 ^ (8 * dropped v) * (v.toNat / 2 ^ (8 * dropped v)) := by
          rw [hlost]
          exact Nat.mul_le_mul (Nat.le_of_lt hmod) hkept
      _ ≤ v.toNat := Nat.mul_div_le ..

/-- What is left of a number is as long as the number, with the same leading bytes. -/
theorem ofValue_of_toNat_eq_rounded (h : w.toNat = rounded v) : ofValue w = ofValue v := by
  rcases Nat.eq_zero_or_pos (dropped v) with hnone | hsome
  · have hsame : w = v := by
      apply BitVec.eq_of_toNat_eq
      rw [h, rounded, hnone]
      simp
    rw [hsame]
  · have hlong : formLength v = dropped v + 3 := by
      rw [dropped] at hsome ⊢
      omega
    have hkept : 2 ^ (15 + 8 * dropped v) ≤ w.toNat := by
      rw [h, rounded, Nat.pow_add]
      exact Nat.mul_le_mul_right _ (le_leading_ofValue hsome)
    have hw : w ≠ 0 := by
      rintro rfl
      exact absurd hkept (Nat.not_le.mpr (Nat.two_pow_pos _))
    have hle : w ≤ v := by
      rw [BitVec.le_def, h]
      exact rounded_le v
    have hlength : formLength w = formLength v := by
      have hbits := lt_bitLength_of_two_pow_le hkept
      have hmono := formLength_mono hw hle
      rw [formLength_eq hw] at hmono ⊢
      omega
    have hleading : leadingOf w (formLength v) = leadingOf v (formLength v) := by
      rw [leadingOf_eq_div (by omega), leadingOf_eq_div (by omega), h]
      exact Nat.mul_div_cancel _ (Nat.two_pow_pos _)
    rw [ofValue_eq, ofValue_eq, hlength, hleading]

/-- A compact form is too wide exactly if what it stands for does not fit, negative exactly if its
bit 23 is set and something is left of its mantissa where a length below three moves it down, and
stands for its mantissa times a power of 256, rounded down. The form of a number stands for one that is at most one part in `2 ^ 15` smaller and has the
same form, and a larger number never has a smaller form. -/
theorem expand_and_ofValue_exact :
    (∀ bits : UInt32,
      ((expand bits).overflow = true ↔ mantissa bits ≠ 0 ∧ 2 ^ 256 ≤ denoted bits) ∧
      ((expand bits).negative = true ↔
        bits.toNat.testBit 23 = true ∧ mantissa bits >>> (8 * (3 - exponent bits)) ≠ 0) ∧
      ((expand bits).overflow = false → (expand bits).value.toNat = denoted bits)) ∧
    (∀ v : U256, ∃ w, expand (ofValue v) = ⟨w, false, false⟩ ∧ w ≤ v ∧
      (v.toNat - w.toNat) * 2 ^ 15 ≤ v.toNat ∧ ofValue w = ofValue v) ∧
    ∀ v w : U256, v ≤ w → (ofValue v).toNat ≤ (ofValue w).toNat := by
  refine ⟨?_, ?_, ?_⟩
  · intro bits
    exact ⟨overflow_iff, negative_iff, toNat_value⟩
  · intro v
    have hvalue := toNat_expand_ofValue v
    refine ⟨(expand (ofValue v)).value, ?_, expand_ofValue_le v, ?_, ?_⟩
    · rw [expand_ofValue]
    · rw [hvalue]
      exact lost_le v
    · exact ofValue_of_toNat_eq_rounded hvalue
  · intro v w h
    exact ofValue_mono h

end Compact

end StakeChain
