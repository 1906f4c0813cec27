/-
Targets follow their formulas.

The target after a period is computed in 256 bits from a product that fits, so
it is the one that unbounded numbers give. The target after a block comes from
a product that need not fit, and then the easiest target takes the place of
the quotient: it is what the formula gives unless the quotient was in reach of
the limit.
-/
import StakeChain.Proofs.CompactForm
import StakeChain.Work.Retarget

namespace StakeChain

/-- The easiest target for mining. -/
def Params.easiest (p : Params) : U256 :=
  (Compact.expand p.powLimit).value

namespace Work

/-- Scaling is exact as long as the product fits, and gives the limit otherwise. -/
theorem toNat_scaled {target limit : U256} {factor divisor : Nat} (hfactor : factor < 2 ^ 64)
    (hpos : 0 < divisor) (hdivisor : divisor < 2 ^ 64) :
    (scaled target limit factor divisor).toNat =
      if target.toNat * factor < 2 ^ 256 then target.toNat * factor / divisor
      else limit.toNat := by
  have hf : (UInt64.ofNat factor).toNat = factor := UInt64.toNat_ofNat_of_lt' hfactor
  have hd : (U256.ofUInt64 (UInt64.ofNat divisor)).toNat = divisor := by
    rw [U256.toNat_ofUInt64, UInt64.toNat_ofNat_of_lt' hdivisor]
  have hne : U256.ofUInt64 (UInt64.ofNat divisor) ≠ 0 := by
    intro h
    rw [h] at hd
    exact Nat.ne_of_lt hpos hd
  rw [scaled, U256.checkedMul_eq, hf]
  split
  · next hproduct =>
      split at hproduct
      · cases hproduct
      · next hfits => rw [if_neg hfits]
  · next product hproduct =>
      split at hproduct
      · next hfits =>
          cases hproduct
          rw [U256.checkedDiv_eq, if_neg hne, Option.getD_some, BitVec.toNat_udiv, hd,
            BitVec.toNat_mul, U256.toNat_ofUInt64, hf, Nat.mod_eq_of_lt hfits, if_pos hfits]
      · cases hproduct

/-! ## Periods -/

/-- What a period counts as: the time it took, moved up to a quarter of what it should have taken
or down to four times of it. -/
def periodTaken (timespan : Nat) (lastTime firstTime : UInt32) : Nat :=
  (max ((timespan / 4 : Nat) : Int)
    (min ((4 * timespan : Nat) : Int) ((lastTime.toNat : Int) - firstTime.toNat))).toNat

theorem clamp_toNat (timespan : Nat) (lastTime firstTime : UInt32) :
    (clamp ((lastTime.toNat : Int) - firstTime.toNat) (timespan / 4 : Nat)
      (timespan * 4 : Nat)).toNat = periodTaken timespan lastTime firstTime := by
  rw [clamp, periodTaken]
  split
  · omega
  · split <;> omega

theorem periodTaken_le (timespan : Nat) (lastTime firstTime : UInt32) :
    periodTaken timespan lastTime firstTime ≤ 4 * timespan := by
  rw [periodTaken]
  omega

/-- A target, or the limit where the target is easier. -/
def limited (t limit : U256) : U256 :=
  if t.ule limit then t else limit

theorem toNat_limited (t limit : U256) :
    (limited t limit).toNat = min limit.toNat t.toNat := by
  rw [limited]
  split
  · next hle => exact (Nat.min_eq_right (BitVec.le_def.mp (BitVec.ule_iff_le.mp hle))).symm
  · next hlt =>
      have hlt : limit.toNat ≤ t.toNat :=
        Nat.le_of_not_le fun h => hlt (BitVec.ule_iff_le.mpr (BitVec.le_def.mpr h))
      exact (Nat.min_eq_left hlt).symm

theorem nextPeriod_eq {p : Params} {bits lastTime firstTime : UInt32} {target : U256}
    (hretargets : p.powNoRetargeting = false) (htarget : Compact.target? bits = some target) :
    nextPeriod bits lastTime firstTime p =
      Compact.ofValue (limited (scaled target p.easiest
        (periodTaken p.powTargetTimespan.toNat lastTime firstTime) p.powTargetTimespan.toNat)
          p.easiest) := by
  rw [nextPeriod, hretargets, if_neg Bool.false_ne_true]
  dsimp only
  rw [clamp_toNat, (Compact.target?_eq_some.mp htarget).1]
  rfl

/-- The target after a period is the last one in proportion to what the period counts as, computed
without bounds and rounded down, or the limit if that is less. So in its compact form it is neither
above the limit nor more than four times the last one. -/
theorem nextPeriod_exact (p : Params) (bits lastTime firstTime : UInt32) (target : U256)
    (hretargets : p.powNoRetargeting = false) (htimespan : 1 ≤ p.powTargetTimespan.toNat)
    (hroom : p.easiest.toNat * 4 * p.powTargetTimespan.toNat < 2 ^ 256)
    (htarget : Compact.target? bits = some target) (hle : target ≤ p.easiest) :
    (∃ next : U256,
      next.toNat = min p.easiest.toNat
        (target.toNat * periodTaken p.powTargetTimespan.toNat lastTime firstTime
          / p.powTargetTimespan.toNat) ∧
      nextPeriod bits lastTime firstTime p = Compact.ofValue next) ∧
      (Compact.expand (nextPeriod bits lastTime firstTime p)).value ≤ p.easiest ∧
      (Compact.expand (nextPeriod bits lastTime firstTime p)).value.toNat ≤ 4 * target.toNat := by
  have hshort := p.powTargetTimespan.toNat_lt
  rw [nextPeriod_eq hretargets htarget]
  generalize p.powTargetTimespan.toNat = timespan at *
  have htaken := periodTaken_le timespan lastTime firstTime
  generalize periodTaken timespan lastTime firstTime = taken at *
  have hfits : target.toNat * taken < 2 ^ 256 := by
    calc target.toNat * taken
      _ ≤ p.easiest.toNat * (4 * timespan) := Nat.mul_le_mul (BitVec.le_def.mp hle) htaken
      _ = p.easiest.toNat * 4 * timespan := (Nat.mul_assoc ..).symm
      _ < 2 ^ 256 := hroom
  have hnext : (limited (scaled target p.easiest taken timespan) p.easiest).toNat =
      min p.easiest.toNat (target.toNat * taken / timespan) := by
    rw [toNat_limited, toNat_scaled (by omega) htimespan (by omega), if_pos hfits]
  have hform := BitVec.le_def.mp (Compact.expand_ofValue_le
    (limited (scaled target p.easiest taken timespan) p.easiest))
  rw [hnext] at hform
  refine ⟨⟨_, hnext, rfl⟩, BitVec.le_def.mpr (hform.trans (Nat.min_le_left _ _)), ?_⟩
  calc _
    _ ≤ target.toNat * taken / timespan := hform.trans (Nat.min_le_right _ _)
    _ ≤ target.toNat * (4 * timespan) / timespan :=
        Nat.div_le_div_right (Nat.mul_le_mul_left _ htaken)
    _ = 4 * target.toNat := by
        rw [← Nat.mul_assoc, Nat.mul_div_cancel _ htimespan, Nat.mul_comm]

/-- On the main network, after a period of not quite twelve days. -/
theorem nextPeriod_exact_main :
    (∃ next : U256,
      next.toNat = min Params.main.easiest.toNat
        ((0xffff <<< 208 : U256).toNat * periodTaken (2016 * 600) 1262152739 1261130161
          / (2016 * 600)) ∧
      nextPeriod 0x1d00ffff 1262152739 1261130161 Params.main = Compact.ofValue next) ∧
      nextPeriod 0x1d00ffff 1262152739 1261130161 Params.main = 0x1d00d86a :=
  ⟨(nextPeriod_exact Params.main 0x1d00ffff 1262152739 1261130161 (0xffff <<< 208) rfl
      (by decide) (by decide +kernel) (by decide +kernel) (by decide +kernel)).1,
    by decide +kernel⟩

/-! ## Blocks -/

/-- What a target is multiplied by after a block: the time that the other blocks of an interval
should take, and twice the time that the block took, or ten times its share where that is less. -/
def blockFactor (spacing timespan : Nat) (firstTime secondTime : UInt32) : Nat :=
  (timespan / spacing - 1) * spacing
    + 2 * min (firstTime.toNat - secondTime.toNat) (10 * spacing)

/-- What a target is divided by after a block: the time that an interval and one block more should
take. -/
def blockDivisor (spacing timespan : Nat) : Nat :=
  (timespan / spacing + 1) * spacing

/-- A target, or the limit where the target is zero or easier than that. -/
def orLimit (target limit : Nat) : Nat :=
  if target = 0 ∨ limit < target then limit else target

theorem orLimit_le (target limit : Nat) : orLimit target limit ≤ limit := by
  rw [orLimit]
  split
  · exact Nat.le_refl limit
  · omega

section

variable {firstTime bits secondTime limitBits spacing timespan : UInt32} {limit target : U256}

theorem blockFactor_lt (spacing timespan firstTime secondTime : UInt32) :
    blockFactor spacing.toNat timespan.toNat firstTime secondTime < 2 ^ 64 := by
  have hspacing := spacing.toNat_lt
  have htimespan := timespan.toNat_lt
  have hinterval := Nat.div_mul_le_self timespan.toNat spacing.toNat
  have hless : (timespan.toNat / spacing.toNat - 1) * spacing.toNat ≤
      timespan.toNat / spacing.toNat * spacing.toNat :=
    Nat.mul_le_mul_right _ (Nat.sub_le _ 1)
  rw [blockFactor]
  omega

theorem blockDivisor_lt (spacing timespan : UInt32) :
    blockDivisor spacing.toNat timespan.toNat < 2 ^ 64 := by
  have hspacing := spacing.toNat_lt
  have htimespan := timespan.toNat_lt
  have hinterval := Nat.div_mul_le_self timespan.toNat spacing.toNat
  rw [blockDivisor, Nat.add_mul, Nat.one_mul]
  omega

theorem blockDivisor_pos {spacing : Nat} (hspacing : 1 ≤ spacing) (timespan : Nat) :
    0 < blockDivisor spacing timespan :=
  Nat.mul_pos (Nat.succ_pos _) hspacing

theorem toNat_eq_zero_iff (t : U256) : t.toNat = 0 ↔ t = 0 :=
  ⟨fun h => BitVec.eq_of_toNat_eq h, fun h => by rw [h]; rfl⟩

/-- A target, or the limit where the target is zero or easier, as the target after a block is
taken. -/
theorem toNat_nonzeroLimited (t limit : U256) :
    (if t != 0 && t.ule limit then t else limit).toNat = orLimit t.toNat limit.toNat := by
  have hkept : (t != 0 && t.ule limit) = true ↔ ¬ (t.toNat = 0 ∨ limit.toNat < t.toNat) := by
    rw [Bool.and_eq_true, bne_iff_ne, BitVec.ule_iff_le, BitVec.le_def, not_or, Nat.not_lt,
      ne_eq, ← toNat_eq_zero_iff]
  rw [orLimit]
  split
  · next h => rw [if_neg (hkept.mp h)]
  · next h => rw [if_pos (not_not.mp fun hnot => h (hkept.mpr hnot))]

/-- The target that the formula gives after a block, computed without bounds. -/
def blockTarget (limit target : U256) (spacing timespan firstTime secondTime : UInt32) : U256 :=
  BitVec.ofNat 256 (orLimit
    (target.toNat * blockFactor spacing.toNat timespan.toNat firstTime secondTime
      / blockDivisor spacing.toNat timespan.toNat) limit.toNat)

theorem toNat_blockTarget (limit target : U256)
    (spacing timespan firstTime secondTime : UInt32) :
    (blockTarget limit target spacing timespan firstTime secondTime).toNat =
      orLimit (target.toNat * blockFactor spacing.toNat timespan.toNat firstTime secondTime
        / blockDivisor spacing.toNat timespan.toNat) limit.toNat := by
  rw [blockTarget, BitVec.toNat_ofNat]
  exact Nat.mod_eq_of_lt (Nat.lt_of_le_of_lt (orLimit_le _ _) limit.isLt)

/-- The number whose compact form the next block takes. -/
theorem nextBlock_eq (firstTime secondTime timespan : UInt32) (hspacing : 1 ≤ spacing.toNat)
    (hlimit : Compact.target? limitBits = some limit)
    (htarget : Compact.target? bits = some target) :
    ∃ next : U256,
      nextBlock firstTime bits secondTime limitBits spacing timespan =
        .ok (Compact.ofValue next) ∧
      next.toNat = orLimit
        (if target.toNat * blockFactor spacing.toNat timespan.toNat firstTime secondTime < 2 ^ 256
          then target.toNat * blockFactor spacing.toNat timespan.toNat firstTime secondTime
            / blockDivisor spacing.toNat timespan.toNat
          else limit.toNat) limit.toNat := by
  refine ⟨_, ?_, (toNat_nonzeroLimited _ _).trans (congrArg (orLimit · _)
    (toNat_scaled (blockFactor_lt spacing timespan firstTime secondTime)
      (blockDivisor_pos hspacing timespan.toNat) (blockDivisor_lt spacing timespan)))⟩
  have hzero : spacing.toNat ≠ 0 := Nat.ne_of_gt hspacing
  rw [nextBlock, quotient, if_neg hzero, (Compact.target?_eq_some.mp hlimit).1,
    (Compact.target?_eq_some.mp htarget).1, Nat.mul_comm spacing.toNat 10]
  rfl

/-- The target after a block follows its formula as long as the product fits. -/
theorem nextBlock_of_fits (hspacing : 1 ≤ spacing.toNat)
    (hlimit : Compact.target? limitBits = some limit)
    (htarget : Compact.target? bits = some target)
    (hfits : target.toNat * blockFactor spacing.toNat timespan.toNat firstTime secondTime <
      2 ^ 256) :
    nextBlock firstTime bits secondTime limitBits spacing timespan =
      .ok (Compact.ofValue (blockTarget limit target spacing timespan firstTime secondTime)) := by
  obtain ⟨next, hnext, hvalue⟩ := nextBlock_eq firstTime secondTime timespan hspacing hlimit htarget
  rw [if_pos hfits, ← toNat_blockTarget] at hvalue
  rw [hnext, BitVec.eq_of_toNat_eq hvalue]

theorem orLimit_self (limit : Nat) : orLimit limit limit = limit :=
  ite_id limit

/-- Where the product does not fit, the target is the limit. -/
theorem nextBlock_of_overflow (hspacing : 1 ≤ spacing.toNat)
    (hlimit : Compact.target? limitBits = some limit)
    (htarget : Compact.target? bits = some target)
    (hwide : ¬ target.toNat * blockFactor spacing.toNat timespan.toNat firstTime secondTime <
      2 ^ 256) :
    nextBlock firstTime bits secondTime limitBits spacing timespan =
      .ok (Compact.ofValue limit) := by
  obtain ⟨next, hnext, hvalue⟩ := nextBlock_eq firstTime secondTime timespan hspacing hlimit htarget
  rw [if_neg hwide, orLimit_self] at hvalue
  rw [hnext, BitVec.eq_of_toNat_eq hvalue]

theorem blockTarget_of_limit_lt
    (h : limit.toNat < target.toNat * blockFactor spacing.toNat timespan.toNat firstTime secondTime
      / blockDivisor spacing.toNat timespan.toNat) :
    blockTarget limit target spacing timespan firstTime secondTime = limit := by
  apply BitVec.eq_of_toNat_eq
  rw [toNat_blockTarget, orLimit, if_pos (.inr h)]

/-- A product that does not fit has a quotient above every limit that is small enough to be
multiplied itself. -/
theorem limit_lt_of_overflow {limit product divisor : Nat} (hpos : 0 < divisor)
    (hroom : (limit + 1) * divisor ≤ 2 ^ 256) (hwide : ¬ product < 2 ^ 256) :
    limit < product / divisor :=
  (Nat.le_div_iff_mul_le hpos).mpr (hroom.trans (Nat.le_of_not_lt hwide))

end

/-- The target after a block is what the formula gives exactly if the product fits into 256 bits,
or the quotient is above the limit, or has the compact form of the limit. For a limit that leaves
room enough above itself that is always so. -/
theorem nextBlock_formula_iff (firstTime bits secondTime limitBits spacing timespan : UInt32)
    (limit target : U256) (hspacing : 1 ≤ spacing.toNat)
    (hlimit : Compact.target? limitBits = some limit)
    (htarget : Compact.target? bits = some target) :
    let product := target.toNat * blockFactor spacing.toNat timespan.toNat firstTime secondTime
    let divisor := blockDivisor spacing.toNat timespan.toNat
    let next := blockTarget limit target spacing timespan firstTime secondTime
    (nextBlock firstTime bits secondTime limitBits spacing timespan =
        .ok (Compact.ofValue next) ↔
      product < 2 ^ 256 ∨ limit.toNat < product / divisor ∨
        Compact.ofValue next = Compact.ofValue limit) ∧
      ((limit.toNat + 1) * divisor ≤ 2 ^ 256 →
        nextBlock firstTime bits secondTime limitBits spacing timespan =
          .ok (Compact.ofValue next)) := by
  intro product divisor next
  have hiff : nextBlock firstTime bits secondTime limitBits spacing timespan =
        .ok (Compact.ofValue next) ↔
      product < 2 ^ 256 ∨ limit.toNat < product / divisor ∨
        Compact.ofValue next = Compact.ofValue limit := by
    by_cases hfits : product < 2 ^ 256
    · exact iff_of_true (nextBlock_of_fits hspacing hlimit htarget hfits) (.inl hfits)
    · rw [nextBlock_of_overflow hspacing hlimit htarget hfits]
      constructor
      · intro h
        exact .inr (.inr (Except.ok.inj h).symm)
      · rintro (h | h | h)
        · exact absurd h hfits
        · rw [show next = limit from blockTarget_of_limit_lt h]
        · rw [h]
  refine ⟨hiff, fun hroom => hiff.mpr ?_⟩
  by_cases hfits : product < 2 ^ 256
  · exact .inl hfits
  · exact .inr (.inl (limit_lt_of_overflow (blockDivisor_pos hspacing _) hroom hfits))

/-- With the parameters that are assumed where nothing else is said, after a block that took twice
its share. -/
theorem nextBlock_formula_iff_standard :
    nextBlock 1128 0x1a0fffff 1000 StakeParams.standard.posLimit
        StakeParams.standard.targetSpacing StakeParams.standard.targetTimespan =
      .ok (Compact.ofValue (blockTarget (0xffff <<< 192) (0x0fffff <<< 184) 64 960 1128 1000)) ∧
    Compact.ofValue (blockTarget (0xffff <<< 192) (0x0fffff <<< 184) 64 960 1128 1000) =
      0x1a11fffe :=
  ⟨(nextBlock_formula_iff 1128 0x1a0fffff 1000 0x1b00ffff 64 960 (0xffff <<< 192)
      (0x0fffff <<< 184) (by decide) (by decide +kernel) (by decide +kernel)).2
      (by decide +kernel),
    by decide +kernel⟩

/-- The easiest target for staking on the regression-test network is too large for the product: it
stays after a block that took no time at all, where the formula gives seven eighths of it. -/
theorem easiest_kept_by_overflow :
    (Params.stakeRegtest.stake.map fun s => (s.posLimit, s.targetSpacing, s.targetTimespan)) =
        some (0x207fffff, 64, 960) ∧
      Compact.target? 0x207fffff = some (0x7fffff <<< 232) ∧
      nextBlock 1000 0x207fffff 1000 0x207fffff 64 960 = .ok 0x207fffff ∧
      Compact.ofValue (blockTarget (0x7fffff <<< 232) (0x7fffff <<< 232) 64 960 1000 1000) =
        0x206fffff := by
  decide +kernel

end Work

end StakeChain
