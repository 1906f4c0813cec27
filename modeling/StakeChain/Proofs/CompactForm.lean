/-
The compact form of a number stands for the largest number not above it that
has one.

It keeps the leading bytes and drops the others. So a target never gets easier
by being written down, and one that was read from a compact form is what its
own stands for.
-/
import StakeChain.Proofs.WideArithmetic
import StakeChain.Work.Compact

namespace StakeChain.Compact

open U256 (bitLength lt_two_pow_bitLength two_pow_bitLength_le bitLength_le)

/-! ## Targets -/

/-- A form stands for a target if it stands for a number that is neither negative nor too wide nor
zero. -/
theorem target?_eq_some {bits : UInt32} {target : U256} :
    target? bits = some target ↔ expand bits = ⟨target, false, false⟩ ∧ target ≠ 0 := by
  rw [target?]
  cases expand bits with
  | mk value negative overflow =>
      cases negative with
      | true => simp
      | false =>
          cases overflow with
          | true => simp
          | false => grind

/-! ## What a form stands for -/

theorem overflow_eq_false_iff {bits : UInt32} : (expand bits).overflow = false ↔
    leading bits = 0 ∨ exponent bits ≤ 34 ∧ (leading bits ≤ 0xff ∨ exponent bits ≤ 33) ∧
      (leading bits ≤ 0xffff ∨ exponent bits ≤ 32) := by
  simp [expand]
  omega

theorem leading_lt (bits : UInt32) : leading bits < 2 ^ 23 := by
  have hmantissa : mantissa bits < 2 ^ 23 := Nat.mod_lt _ (by decide)
  rw [leading, Nat.shiftRight_eq_div_pow]
  exact Nat.lt_of_le_of_lt (Nat.div_le_self _ _) hmantissa

/-- A form that fits has the fewer leading bits the longer it is. -/
theorem leading_fits {bits : UInt32} (h : (expand bits).overflow = false) :
    leading bits = 0 ∨ ∃ b, leading bits < 2 ^ b ∧ b + 8 * (exponent bits - 3) ≤ 256 := by
  have hleading := leading_lt bits
  rcases overflow_eq_false_iff.mp h with hzero | ⟨hlongest, hlonger, hlong⟩
  · exact .inl hzero
  · refine .inr ?_
    rcases Nat.lt_or_ge 33 (exponent bits) with hsize | hsize
    · exact ⟨8, by omega, by omega⟩
    · rcases Nat.lt_or_ge 32 (exponent bits) with hsize' | hsize'
      · exact ⟨16, by omega, by omega⟩
      · exact ⟨23, by omega, by omega⟩

theorem leading_mul_lt {bits : UInt32} (h : (expand bits).overflow = false) :
    leading bits * 2 ^ (8 * (exponent bits - 3)) < 2 ^ 256 := by
  rcases leading_fits h with hzero | ⟨b, hlt, hb⟩
  · rw [hzero, Nat.zero_mul]
    exact Nat.two_pow_pos 256
  · calc leading bits * 2 ^ (8 * (exponent bits - 3))
      _ < 2 ^ b * 2 ^ (8 * (exponent bits - 3)) :=
          Nat.mul_lt_mul_of_pos_right hlt (Nat.two_pow_pos _)
      _ = 2 ^ (b + 8 * (exponent bits - 3)) := (Nat.pow_add ..).symm
      _ ≤ 2 ^ 256 := Nat.pow_le_pow_right Nat.two_pos hb

/-- A form that fits stands for its leading bytes and zeros after them. -/
theorem toNat_expand {bits : UInt32} (h : (expand bits).overflow = false) :
    (expand bits).value.toNat = leading bits * 2 ^ (8 * (exponent bits - 3)) := by
  rw [expand]
  dsimp only
  rw [BitVec.toNat_shiftLeft, Nat.shiftLeft_eq, BitVec.toNat_ofNat, Nat.mod_mul_mod,
    Nat.mod_eq_of_lt (leading_mul_lt h)]

/-! ## Taking a form apart -/

theorem toNat_packed {word size : Nat} (hword : word < 2 ^ 23) (hsize : size < 256) :
    (UInt32.ofNat (word + size * 0x1000000)).toNat = word + size * 0x1000000 := by
  rw [UInt32.toNat_ofNat']
  exact Nat.mod_eq_of_lt (by omega)

theorem exponent_packed {word size : Nat} (hword : word < 2 ^ 23) (hsize : size < 256) :
    exponent (UInt32.ofNat (word + size * 0x1000000)) = size := by
  rw [exponent, toNat_packed hword hsize]
  omega

theorem mantissa_packed {word size : Nat} (hword : word < 2 ^ 23) (hsize : size < 256) :
    mantissa (UInt32.ofNat (word + size * 0x1000000)) = word := by
  rw [mantissa, toNat_packed hword hsize]
  omega

theorem signed_packed {word size : Nat} (hword : word < 2 ^ 23) (hsize : size < 256) :
    signed (UInt32.ofNat (word + size * 0x1000000)) = false := by
  rw [signed, toNat_packed hword hsize, Nat.testBit_eq_decide_div_mod_eq, decide_eq_false_iff_not]
  omega

/-! ## The leading bytes -/

theorem leadingOf_eq_div {v : U256} {size : Nat} (h : 3 ≤ size) :
    leadingOf v size = v.toNat / 2 ^ (8 * (size - 3)) := by
  rw [leadingOf]
  split
  · next hle =>
      obtain rfl : size = 3 := Nat.le_antisymm hle h
      simp
  · exact Nat.shiftRight_eq_div_pow ..

theorem leadingOf_eq_mul {v : U256} {size : Nat} (h : size ≤ 3) :
    leadingOf v size = v.toNat * 2 ^ (8 * (3 - size)) := by
  rw [leadingOf, if_pos h, Nat.shiftLeft_eq]

/-- A byte more of length is a byte less at the end. -/
theorem leadingOf_succ (v : U256) (size : Nat) : leadingOf v (size + 1) = leadingOf v size / 256 := by
  rcases Nat.lt_or_ge size 3 with hsize | hsize
  · rw [leadingOf_eq_mul hsize, leadingOf_eq_mul (Nat.le_of_lt hsize),
      show 8 * (3 - size) = 8 * (3 - (size + 1)) + 8 by omega, Nat.pow_add, ← Nat.mul_assoc]
    exact (Nat.mul_div_cancel _ (by decide)).symm
  · rw [leadingOf_eq_div hsize, leadingOf_eq_div (Nat.le_succ_of_le hsize),
      show 8 * (size + 1 - 3) = 8 * (size - 3) + 8 by omega, Nat.pow_add, Nat.div_div_eq_div_mul]

/-- The length of a number in bytes. -/
def byteLength (v : U256) : Nat :=
  (bitLength v + 7) / 8

/-- The length that stands in the compact form: a byte more where the bit of the sign would be
set. -/
def formLength (v : U256) : Nat :=
  if (leadingOf v (byteLength v)).testBit 23 then byteLength v + 1 else byteLength v

theorem ofValue_eq (v : U256) :
    ofValue v = UInt32.ofNat (leadingOf v (formLength v) + formLength v * 0x1000000) := by
  change (if (leadingOf v (byteLength v)).testBit 23 then _ else _) = _
  rw [formLength]
  split
  · rw [leadingOf_succ]
    rfl
  · rfl

theorem byteLength_le (v : U256) : byteLength v ≤ 32 := by
  have hle := bitLength_le v
  rw [byteLength]
  omega

theorem leadingOf_byteLength_lt (v : U256) : leadingOf v (byteLength v) < 2 ^ 24 := by
  have hbits : bitLength v ≤ 8 * byteLength v := by
    rw [byteLength]
    omega
  have hlt : v.toNat < 2 ^ (8 * byteLength v) :=
    Nat.lt_of_lt_of_le (lt_two_pow_bitLength v) (Nat.pow_le_pow_right Nat.two_pos hbits)
  rcases Nat.lt_or_ge (byteLength v) 3 with hsize | hsize
  · rw [leadingOf_eq_mul (Nat.le_of_lt hsize)]
    calc v.toNat * 2 ^ (8 * (3 - byteLength v))
      _ < 2 ^ (8 * byteLength v) * 2 ^ (8 * (3 - byteLength v)) :=
          Nat.mul_lt_mul_of_pos_right hlt (Nat.two_pow_pos _)
      _ = 2 ^ 24 := by
          rw [← Nat.pow_add]
          congr 1
          omega
  · rw [leadingOf_eq_div hsize, Nat.div_lt_iff_lt_mul (Nat.two_pow_pos _), ← Nat.pow_add]
    rwa [show 24 + 8 * (byteLength v - 3) = 8 * byteLength v by omega]

theorem leadingOf_formLength_lt (v : U256) : leadingOf v (formLength v) < 2 ^ 23 := by
  have hlt := leadingOf_byteLength_lt v
  rw [formLength]
  split
  · rw [leadingOf_succ]
    omega
  · next hbit =>
      rw [Nat.testBit_eq_decide_div_mod_eq, decide_eq_true_eq] at hbit
      omega

theorem formLength_le (v : U256) : formLength v ≤ 33 := by
  have hle := byteLength_le v
  rw [formLength]
  split <;> omega

/-- A length beyond that of 256-bit numbers comes from the bit of the sign alone. -/
theorem leadingOf_of_formLength {v : U256} (h : 32 < formLength v) :
    leadingOf v (formLength v) < 2 ^ 16 := by
  have hle := byteLength_le v
  have hlt := leadingOf_byteLength_lt v
  rw [formLength] at h ⊢
  split
  · rw [leadingOf_succ]
    omega
  · next hbit =>
      rw [if_neg hbit] at h
      omega

/-! ## Rounding down -/

/-- The bytes that the compact form drops. -/
def dropped (v : U256) : Nat := formLength v - 3

theorem leading_ofValue (v : U256) : leading (ofValue v) = v.toNat / 2 ^ (8 * dropped v) := by
  have hword := leadingOf_formLength_lt v
  have hsize : formLength v < 256 := Nat.lt_of_le_of_lt (formLength_le v) (by decide)
  rw [leading, ofValue_eq, mantissa_packed hword hsize, exponent_packed hword hsize, dropped,
    Nat.shiftRight_eq_div_pow]
  rcases Nat.le_total (formLength v) 3 with hle | hle
  · rw [leadingOf_eq_mul hle, Nat.mul_div_cancel _ (Nat.two_pow_pos _),
      Nat.sub_eq_zero_of_le hle]
    simp
  · rw [leadingOf_eq_div hle, Nat.sub_eq_zero_of_le hle]
    simp

/-- The number that is left when the bytes that the form drops are zero. -/
def rounded (v : U256) : Nat :=
  v.toNat / 2 ^ (8 * dropped v) * 2 ^ (8 * dropped v)

theorem rounded_le (v : U256) : rounded v ≤ v.toNat :=
  Nat.div_mul_le_self _ _

theorem exponent_ofValue (v : U256) : exponent (ofValue v) = formLength v := by
  rw [ofValue_eq]
  exact exponent_packed (leadingOf_formLength_lt v)
    (Nat.lt_of_le_of_lt (formLength_le v) (by decide))

theorem signed_ofValue (v : U256) : signed (ofValue v) = false := by
  rw [ofValue_eq]
  exact signed_packed (leadingOf_formLength_lt v)
    (Nat.lt_of_le_of_lt (formLength_le v) (by decide))

theorem overflow_ofValue (v : U256) : (expand (ofValue v)).overflow = false := by
  have hlength := formLength_le v
  have hleading := leading_ofValue v
  rw [overflow_eq_false_iff, exponent_ofValue]
  rcases Nat.lt_or_ge 32 (formLength v) with hlong | hshort
  · have hlt := leadingOf_of_formLength hlong
    rw [leadingOf_eq_div (by omega)] at hlt
    rw [dropped] at hleading
    omega
  · omega

theorem toNat_expand_ofValue (v : U256) : (expand (ofValue v)).value.toNat = rounded v := by
  rw [toNat_expand (overflow_ofValue v), leading_ofValue, exponent_ofValue]
  rfl

/-- The compact form of a number stands for no negative one, fits, and drops the last bytes. -/
theorem expand_ofValue (v : U256) :
    expand (ofValue v) = ⟨BitVec.ofNat 256 (rounded v), false, false⟩ := by
  have hvalue : (expand (ofValue v)).value = BitVec.ofNat 256 (rounded v) := by
    rw [← toNat_expand_ofValue, BitVec.ofNat_toNat, BitVec.setWidth_eq]
  have hnegative : (expand (ofValue v)).negative = false := by
    change (leading (ofValue v) != 0 && signed (ofValue v)) = false
    rw [signed_ofValue, Bool.and_false]
  calc expand (ofValue v)
    _ = ⟨(expand (ofValue v)).value, (expand (ofValue v)).negative,
          (expand (ofValue v)).overflow⟩ := rfl
    _ = ⟨BitVec.ofNat 256 (rounded v), false, false⟩ := by
        rw [hvalue, hnegative, overflow_ofValue]

/-- The compact form of a number never stands for a larger one. -/
theorem expand_ofValue_le (v : U256) : (expand (ofValue v)).value ≤ v := by
  rw [BitVec.le_def, toNat_expand_ofValue]
  exact rounded_le v

/-! ## No larger number has a form -/

/-- A number that has bytes to drop keeps at least fifteen bits. -/
theorem le_leading_ofValue {v : U256} (h : 0 < dropped v) :
    2 ^ 15 ≤ v.toNat / 2 ^ (8 * dropped v) := by
  have hlength : 3 < formLength v := by
    rw [dropped] at h
    omega
  rw [dropped, ← leadingOf_eq_div (Nat.le_of_lt hlength)]
  rw [formLength] at hlength ⊢
  split
  · next hbit =>
      rw [Nat.testBit_eq_decide_div_mod_eq, decide_eq_true_eq] at hbit
      rw [leadingOf_succ]
      omega
  · next hbit =>
      rw [if_neg hbit] at hlength
      have hne : v ≠ 0 := by
        rintro rfl
        cases hlength
      have hbits : 8 * byteLength v ≤ bitLength v + 7 := by
        rw [byteLength]
        exact Nat.mul_div_le _ 8
      rw [leadingOf_eq_div (Nat.le_of_lt hlength), Nat.le_div_iff_mul_le (Nat.two_pow_pos _),
        ← Nat.pow_add]
      refine Nat.le_of_mul_le_mul_right ?_ Nat.two_pos
      rw [← Nat.pow_succ]
      exact (Nat.pow_le_pow_right Nat.two_pos (by omega)).trans (two_pow_bitLength_le hne)

/-- The compact form of a number stands for the largest number not above it that has one. -/
theorem le_expand_ofValue {v : U256} {bits : UInt32} (hfits : (expand bits).overflow = false)
    (hle : (expand bits).value ≤ v) : (expand bits).value ≤ (expand (ofValue v)).value := by
  rw [BitVec.le_def, toNat_expand hfits] at hle ⊢
  rw [toNat_expand_ofValue, rounded]
  rcases Nat.lt_or_ge (exponent bits - 3) (dropped v) with hlt | hge
  · -- so many bytes were dropped that the leading ones alone are more
    have hkept := le_leading_ofValue (Nat.zero_lt_of_lt hlt)
    calc leading bits * 2 ^ (8 * (exponent bits - 3))
      _ ≤ 2 ^ 23 * 2 ^ (8 * (exponent bits - 3)) :=
          Nat.mul_le_mul_right _ (Nat.le_of_lt (leading_lt bits))
      _ = 2 ^ (23 + 8 * (exponent bits - 3)) := (Nat.pow_add ..).symm
      _ ≤ 2 ^ (15 + 8 * dropped v) := Nat.pow_le_pow_right Nat.two_pos (by omega)
      _ = 2 ^ 15 * 2 ^ (8 * dropped v) := Nat.pow_add ..
      _ ≤ _ := Nat.mul_le_mul_right _ hkept
  · have hsplit : 2 ^ (8 * (exponent bits - 3)) =
        2 ^ (8 * (exponent bits - 3 - dropped v)) * 2 ^ (8 * dropped v) := by
      rw [← Nat.pow_add]
      congr 1
      omega
    rw [hsplit, ← Nat.mul_assoc] at hle ⊢
    exact Nat.mul_le_mul_right _ ((Nat.le_div_iff_mul_le (Nat.two_pow_pos _)).mpr hle)

/-- A number that has a compact form is what its compact form stands for. -/
theorem expand_ofValue_expand {bits : UInt32} (hfits : (expand bits).overflow = false) :
    (expand (ofValue (expand bits).value)).value = (expand bits).value :=
  BitVec.le_antisymm (expand_ofValue_le _) (le_expand_ofValue hfits (BitVec.le_refl _))

end StakeChain.Compact
