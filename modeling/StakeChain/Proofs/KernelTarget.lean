/-
Which kernels may stake.

The target times the value of a coin may be too wide for the word it is
computed in. A kernel is the number of a hash, so every kernel is below such a
product, and letting all of them pass is what the comparison in numbers would
do. A coin without a positive value counts as one of value zero. So one
inequality between unbounded numbers says which kernels pass, and with more
value or an easier target nothing that passed is lost.
-/
import StakeChain.Proofs.Numerals
import StakeChain.Proofs.WideArithmetic
import StakeChain.Stake.Kernel

namespace StakeChain

namespace Stake

/-! ## The product -/

/-- The target of a compact form times the value of a coin, in unbounded numbers. -/
def weightedTarget (bits : UInt32) (coin : Coin) : Int :=
  ((Compact.expand bits).value.toNat : Int) * max coin.output.value.toInt 0

theorem toNat_weight (value : Int64) : ((weight value).toNat : Int) = max value.toInt 0 := by
  rw [weight]
  split
  · next hnegative =>
      have hnegative : value.toInt < 0 := Int64.lt_iff_toInt_lt.mp hnegative
      rw [max_eq_right (Int.le_of_lt hnegative)]
      rfl
  · next hnonneg =>
      rw [Int64.not_lt] at hnonneg
      have hint : 0 ≤ value.toInt := Int64.le_iff_toInt_le.mp hnonneg
      rw [max_eq_left hint, Int64.toNat_toUInt64_of_le hnonneg]
      exact Int.toNat_of_nonneg hint

/-- A product that does not fit is above every kernel. -/
theorem meets_iff {kernel : Hash256} {target : U256} {weight : UInt64} :
    meets kernel target weight = true ↔ kernel.toNat ≤ target.toNat * weight.toNat := by
  rw [meets, U256.checkedMul_eq]
  split
  · next product hproduct =>
      split at hproduct
      · next hfits =>
          cases hproduct
          rw [BitVec.ule_iff_le, BitVec.le_def, U256.toNat_ofHash, BitVec.toNat_mul,
            U256.toNat_ofUInt64, Nat.mod_eq_of_lt hfits]
      · cases hproduct
  · next hproduct =>
      split at hproduct
      · cases hproduct
      · next hwide =>
          have hkernel : kernel.toNat < 2 ^ 256 := kernel.toNat_lt
          exact iff_of_true rfl (by omega)

theorem meets_weight_iff {kernel : Hash256} {bits : UInt32} {coin : Coin} :
    meets kernel (Compact.expand bits).value (weight coin.output.value) = true ↔
      (kernel.toNat : Int) ≤ weightedTarget bits coin := by
  rw [meets_iff, weightedTarget, ← toNat_weight, ← Int.natCast_mul, Int.ofNat_le]

theorem weightedTarget_mono {bits bits' : UInt32} {coin coin' : Coin}
    (htarget : (Compact.expand bits).value ≤ (Compact.expand bits').value)
    (hvalue : coin.output.value ≤ coin'.output.value) :
    weightedTarget bits coin ≤ weightedTarget bits' coin' := by
  have hvalue : max coin.output.value.toInt 0 ≤ max coin'.output.value.toInt 0 :=
    max_le_max_right 0 (Int64.le_iff_toInt_le.mp hvalue)
  have htarget : ((Compact.expand bits).value.toNat : Int) ≤ (Compact.expand bits').value.toNat :=
    Int.ofNat_le.mpr htarget
  exact Int.mul_le_mul htarget hvalue (le_max_right _ 0) (Int.natCast_nonneg _)

/-! ## The check -/

variable {previous : StakeRecord} {bits bits' : UInt32} {coin coin' : Coin} {prevout : OutPoint}
  {blockTime : UInt32}

/-- What the check answers, with one comparison of numbers in the place of the product. -/
theorem checkKernel_eq :
    checkKernel previous bits coin prevout blockTime =
      if blockTime < coin.time then .error .stakeTimeViolation
      else if ((kernelHash previous.modifier coin.time prevout blockTime).toNat : Int) ≤
          weightedTarget bits coin then
        .ok (kernelHash previous.modifier coin.time prevout blockTime)
      else .error .stakeHashInvalidTarget := by
  rw [checkKernel]
  simp only [meets_weight_iff]

theorem checkKernel_eq_ok {k : Hash256} :
    checkKernel previous bits coin prevout blockTime = .ok k ↔
      coin.time ≤ blockTime ∧ k = kernelHash previous.modifier coin.time prevout blockTime ∧
        (k.toNat : Int) ≤ weightedTarget bits coin := by
  rw [checkKernel_eq]
  split
  · next hearly =>
      constructor
      · intro h
        cases h
      · rintro ⟨htime, -, -⟩
        exact absurd hearly (UInt32.not_lt.mpr htime)
  · next htime =>
      rw [UInt32.not_lt] at htime
      split
      · next hmet =>
          constructor
          · intro h
            cases h
            exact ⟨htime, rfl, hmet⟩
          · rintro ⟨-, rfl, -⟩
            rfl
      · next hmissed =>
          constructor
          · intro h
            cases h
          · rintro ⟨-, rfl, hmet⟩
            exact absurd hmet hmissed

theorem checkKernel_eq_early :
    checkKernel previous bits coin prevout blockTime = .error .stakeTimeViolation ↔
      blockTime < coin.time := by
  rw [checkKernel_eq]
  split
  · next hearly => exact iff_of_true rfl hearly
  · next htime =>
      split
      · exact iff_of_false nofun htime
      · exact iff_of_false nofun htime

/-- What passes still passes with a coin of more value and with an easier target. -/
theorem checkKernel_mono {k : Hash256} (h : checkKernel previous bits coin prevout blockTime = .ok k)
    (htime : coin'.time = coin.time) (hvalue : coin.output.value ≤ coin'.output.value)
    (htarget : (Compact.expand bits).value ≤ (Compact.expand bits').value) :
    checkKernel previous bits' coin' prevout blockTime = .ok k := by
  obtain ⟨hlate, hkernel, hmet⟩ := checkKernel_eq_ok.mp h
  rw [checkKernel_eq_ok, htime]
  exact ⟨hlate, hkernel, hmet.trans (weightedTarget_mono htarget hvalue)⟩

/-- A coin may stake exactly if it is not younger than the block and the number of its kernel is at
most the target times its value, in unbounded numbers; only a block before the coin is refused for
its time. So more value and an easier target never take the right to stake away. -/
theorem checkKernel_exact (previous : StakeRecord) (bits : UInt32) (coin : Coin)
    (prevout : OutPoint) (blockTime : UInt32) :
    (∀ k, checkKernel previous bits coin prevout blockTime = .ok k ↔
      coin.time ≤ blockTime ∧ k = kernelHash previous.modifier coin.time prevout blockTime ∧
        (k.toNat : Int) ≤ weightedTarget bits coin) ∧
    (checkKernel previous bits coin prevout blockTime = .error .stakeTimeViolation ↔
      blockTime < coin.time) ∧
    (∀ bits' coin' k, coin'.time = coin.time → coin.output.value ≤ coin'.output.value →
      (Compact.expand bits).value ≤ (Compact.expand bits').value →
      checkKernel previous bits coin prevout blockTime = .ok k →
      checkKernel previous bits' coin' prevout blockTime = .ok k) := by
  refine ⟨fun k => checkKernel_eq_ok, checkKernel_eq_early, ?_⟩
  intro bits' coin' k htime hvalue htarget h
  exact checkKernel_mono h htime hvalue htarget

end Stake

namespace Sample

/-- A coin of time 100. -/
def aged (value : Int64) : Coin :=
  ⟨⟨value, .empty⟩, 1, false, false, 100, none⟩

/-- The record of a block before it. -/
def drawn : StakeRecord :=
  { StakeRecord.empty with modifier := Digest.ofNat 7 }

end Sample

/-- The kernel of such a coin: the modifier, the time of the coin, its place, and the time of the
block. The smallest coin stakes, so the largest one does at an easier target, although the product
then takes more than 256 bits. -/
theorem Stake.checkKernel_exact_aged :
    let k := hash256 ((7 :: List.replicate 31 0) ++ [100, 0, 0, 0] ++ (1 :: List.replicate 31 0) ++
      [2, 0, 0, 0] ++ [160, 0, 0, 0])
    k.toNat = 0x0821fcee97fa80384f105bc9b85c0cf2e3019dcf2a3be1af3a842dec482b4713 ∧
      checkKernel Sample.drawn 0x20700000 (Sample.aged 1) ⟨Digest.one, 2⟩ 160 = .ok k ∧
      checkKernel Sample.drawn 0x207fffff (Sample.aged 2100000000000000) ⟨Digest.one, 2⟩ 160 =
        .ok k := by
  intro k
  have hkernel : kernelHash Sample.drawn.modifier 100 ⟨Digest.one, 2⟩ 160 = k :=
    congrArg hash256 (by decide)
  have hnumber : k.toNat = 0x0821fcee97fa80384f105bc9b85c0cf2e3019dcf2a3be1af3a842dec482b4713 := by
    decide +kernel
  have hmet : (k.toNat : Int) ≤ weightedTarget 0x20700000 (Sample.aged 1) := by
    rw [hnumber]
    decide +kernel
  have heasier : (Compact.expand 0x20700000).value ≤ (Compact.expand 0x207fffff).value := by
    decide +kernel
  obtain ⟨hok, -, hmono⟩ :=
    checkKernel_exact Sample.drawn 0x20700000 (Sample.aged 1) ⟨Digest.one, 2⟩ 160
  have hsmall := (hok k).mpr ⟨by decide, hkernel.symm, hmet⟩
  exact ⟨hnumber, hsmall,
    hmono 0x207fffff (Sample.aged 2100000000000000) _ rfl (by decide) heasier hsmall⟩

end StakeChain
