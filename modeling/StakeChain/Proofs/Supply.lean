/-
What mining puts into circulation.

The subsidies of the first so many blocks are a sum over single blocks. Cut at the
halvings it falls into pieces in which every block has the same subsidy, and the
supply is added up piece by piece: what the pieces so far come to is the sum over the
blocks in them. A halving leaves at most half, so all pieces together come to at most
twice the first one, and where this much has a place in 64 bits nothing overflows on
the way.
-/
import Mathlib.Algebra.BigOperators.Intervals
import Mathlib.Algebra.Order.BigOperators.Group.Finset
import StakeChain.Proofs.Faults
import StakeChain.Subsidy

namespace StakeChain.Subsidy

/-- The number of blocks between two halvings. -/
abbrev halvingInterval (p : Params) : Nat :=
  p.subsidyHalvingInterval.toNat

/-- Blocks are paid until the subsidies are used up, and all of them together fit 64 bits. -/
structure Payable (p : Params) : Prop where
  interval : 1 ≤ halvingInterval p
  initial : 0 ≤ p.initialSubsidy.toInt
  fits : 2 * halvingInterval p * p.initialSubsidy.toInt ≤ 2 ^ 63 - 1

/-- The subsidies of the first so many blocks together. -/
def issued (p : Params) (blocks : Nat) : Int :=
  ∑ k ∈ Finset.range blocks, halved p (k / halvingInterval p)

variable {p : Params}

/-! ## Halvings -/

theorem halved_of_lt {halvings : Nat} (h : halvings < maxHalvings) :
    halved p halvings = p.initialSubsidy.toInt / 2 ^ halvings := by
  rw [halved, if_pos h, Int.shiftRight_eq_div_pow]
  norm_cast

theorem halved_of_le {halvings : Nat} (h : maxHalvings ≤ halvings) : halved p halvings = 0 :=
  if_neg (Nat.not_lt.mpr h)

theorem halved_nonneg (h : 0 ≤ p.initialSubsidy.toInt) (halvings : Nat) :
    0 ≤ halved p halvings := by
  by_cases hlt : halvings < maxHalvings
  · rw [halved_of_lt hlt]
    exact Int.ediv_nonneg h (by positivity)
  · rw [halved_of_le (Nat.not_lt.mp hlt)]

/-- A halving leaves at most half. -/
theorem two_mul_halved_succ_le (h : 0 ≤ p.initialSubsidy.toInt) (halvings : Nat) :
    2 * halved p (halvings + 1) ≤ halved p halvings := by
  by_cases hlt : halvings + 1 < maxHalvings
  · have hhalf : p.initialSubsidy.toInt / 2 ^ (halvings + 1) =
        p.initialSubsidy.toInt / 2 ^ halvings / 2 := by
      rw [pow_succ, Int.ediv_ediv_of_nonneg (by positivity)]
    rw [halved_of_lt hlt, halved_of_lt (by omega), hhalf]
    omega
  · rw [halved_of_le (Nat.not_lt.mp hlt), Int.mul_zero]
    exact halved_nonneg h halvings

/-- What is still to come is never more than the subsidy before the halving. -/
theorem sum_halved_le (h : 0 ≤ p.initialSubsidy.toInt) (halvings : Nat) :
    ∑ j ∈ Finset.range halvings, halved p j + 2 * halved p halvings ≤
      2 * p.initialSubsidy.toInt := by
  induction halvings with
  | zero =>
      rw [Finset.sum_range_zero, halved_of_lt (by decide), pow_zero, Int.ediv_one, zero_add]
  | succ halvings ih =>
      have hhalf := two_mul_halved_succ_le h halvings
      rw [Finset.sum_range_succ]
      omega

/-! ## Block by block and piece by piece -/

theorem issued_zero : issued p 0 = 0 := rfl

theorem issued_mono (h : 0 ≤ p.initialSubsidy.toInt) {a b : Nat} (hle : a ≤ b) :
    issued p a ≤ issued p b :=
  Finset.sum_le_sum_of_subset_of_nonneg (Finset.range_mono hle)
    fun _ _ _ => halved_nonneg h _

/-- Blocks that follow a halving, up to the next one, all have the subsidy that it left. -/
theorem issued_add {halvings blocks : Nat} (h : blocks ≤ halvingInterval p) :
    issued p (halvings * halvingInterval p + blocks) =
      issued p (halvings * halvingInterval p) + blocks * halved p halvings := by
  have hpiece : ∀ k ∈ Finset.range blocks,
      halved p ((halvings * halvingInterval p + k) / halvingInterval p) = halved p halvings := by
    intro k hk
    have hlt : k < halvingInterval p := (Finset.mem_range.mp hk).trans_le h
    rw [Nat.mul_comm, Nat.mul_add_div (by omega), Nat.div_eq_of_lt hlt, Nat.add_zero]
  rw [issued, Finset.sum_range_add, Finset.sum_congr rfl hpiece, Finset.sum_const,
    Finset.card_range, nsmul_eq_mul]
  rfl

/-- What the next piece adds, which is cut short where the blocks end. -/
theorem issued_next {blocks halvings : Nat} (h : halvings * halvingInterval p ≤ blocks) :
    issued p (min blocks ((halvings + 1) * halvingInterval p)) =
      issued p (halvings * halvingInterval p) +
        min ((blocks : Int) - halvings * halvingInterval p) (halvingInterval p) *
          halved p halvings := by
  obtain ⟨left, rfl⟩ := Nat.exists_eq_add_of_le h
  have hpiece : min (halvings * halvingInterval p + left) ((halvings + 1) * halvingInterval p) =
      halvings * halvingInterval p + min left (halvingInterval p) := by
    rw [Nat.succ_mul, Nat.add_min_add_left]
  have hleft : ((halvings * halvingInterval p + left : Nat) : Int) -
      halvings * halvingInterval p = left := by
    push_cast
    exact add_sub_cancel_left ..
  rw [hpiece, issued_add (Nat.min_le_right ..), hleft, Nat.cast_min]

theorem issued_halvings (halvings : Nat) :
    issued p (halvings * halvingInterval p) =
      halvingInterval p * ∑ j ∈ Finset.range halvings, halved p j := by
  induction halvings with
  | zero => rw [Nat.zero_mul, issued_zero, Finset.sum_range_zero, mul_zero]
  | succ halvings ih =>
      rw [Nat.succ_mul, issued_add (Nat.le_refl _), ih, Finset.sum_range_succ, mul_add]

/-- After the last halving nothing more is issued. -/
theorem issued_of_le (h : 1 ≤ halvingInterval p) {blocks : Nat}
    (hle : maxHalvings * halvingInterval p ≤ blocks) :
    issued p blocks = issued p (maxHalvings * halvingInterval p) := by
  obtain ⟨later, rfl⟩ := Nat.exists_eq_add_of_le hle
  have hnothing : ∀ k ∈ Finset.range later,
      halved p ((maxHalvings * halvingInterval p + k) / halvingInterval p) = 0 := fun k _ =>
    halved_of_le ((Nat.le_div_iff_mul_le h).mpr (Nat.le_add_right _ _))
  rw [issued, Finset.sum_range_add, Finset.sum_eq_zero hnothing, add_zero, issued]

namespace Payable

variable (h : Payable p)
include h

theorem issued_nonneg (blocks : Nat) : 0 ≤ issued p blocks :=
  issued_mono h.initial (Nat.zero_le blocks)

theorem issued_le (blocks : Nat) :
    issued p blocks ≤ 2 * halvingInterval p * p.initialSubsidy.toInt := by
  have hpieces : blocks ≤ (blocks / halvingInterval p + 1) * halvingInterval p :=
    (Nat.lt_div_mul_add h.interval).le.trans_eq (Nat.succ_mul _ _).symm
  have hsum := sum_halved_le h.initial (blocks / halvingInterval p + 1)
  have hleft := halved_nonneg h.initial (blocks / halvingInterval p + 1)
  calc issued p blocks
      ≤ issued p ((blocks / halvingInterval p + 1) * halvingInterval p) :=
        issued_mono h.initial hpieces
    _ = halvingInterval p * _ := issued_halvings _
    _ ≤ halvingInterval p * (2 * p.initialSubsidy.toInt) :=
        Int.mul_le_mul_of_nonneg_left (by omega) (Int.natCast_nonneg _)
    _ = 2 * halvingInterval p * p.initialSubsidy.toInt := by ring

theorem fitAmount_of_le {n : Int} {blocks : Nat} (hnonneg : 0 ≤ n) (hle : n ≤ issued p blocks) :
    fitAmount n = .ok n := by
  have hissued := h.issued_le blocks
  have hfits := h.fits
  exact fitAmount_of_natAbs_lt (by omega)

theorem atHeight_eq (height : UInt32) :
    atHeight height p = .ok (halved p (height.toNat / halvingInterval p)) := by
  rw [atHeight, quotient_of_pos h.interval]
  rfl

/-- With the pieces before a halving added up, what is added for the rest makes the sum over all
blocks. -/
theorem supplyFrom_eq (blocks : Nat) {fuel halvings : Nat}
    (hfuel : halvings + fuel = maxHalvings) :
    supplyFrom p blocks (issued p (min blocks (halvings * halvingInterval p))) fuel halvings =
      .ok (issued p blocks) := by
  induction fuel generalizing halvings with
  | zero =>
      obtain rfl : halvings = maxHalvings := hfuel
      rw [supplyFrom]
      rcases Nat.le_total blocks (maxHalvings * halvingInterval p) with hle | hle
      · rw [Nat.min_eq_left hle]
      · rw [Nat.min_eq_right hle, issued_of_le h.interval hle]
  | succ fuel ih =>
      rw [supplyFrom]
      by_cases hstart : blocks ≤ halvings * halvingInterval p
      · rw [if_pos (by exact_mod_cast hstart), Nat.min_eq_left hstart]
        rfl
      · have hle := Nat.le_of_not_le hstart
        have hnext := issued_next hle
        have hmono : issued p (halvings * halvingInterval p) ≤
            issued p (min blocks ((halvings + 1) * halvingInterval p)) :=
          issued_mono h.initial (Nat.le_min.mpr ⟨hle, Nat.mul_le_mul_right _ halvings.le_succ⟩)
        have hpart := (le_add_iff_nonneg_right _).mp (hmono.trans_eq hnext)
        have hbefore := h.issued_nonneg (halvings * halvingInterval p)
        rw [if_neg (by exact_mod_cast hstart), Nat.min_eq_right hle,
          h.fitAmount_of_le hpart (hnext ▸ le_add_of_nonneg_left hbefore)]
        change (fitAmount (_ + _) >>= _) = _
        rw [← hnext, h.fitAmount_of_le (h.issued_nonneg _) (Int.le_refl _)]
        exact ih (by omega)

theorem supply_eq (height : UInt32) : supply height p = .ok (issued p (height.toNat + 1)) := by
  have hall := h.supplyFrom_eq (height.toNat + 1) (Nat.zero_add maxHalvings)
  rw [Nat.zero_mul, Nat.min_zero, issued_zero] at hall
  exact hall

end Payable

theorem payable_main : Payable .main :=
  ⟨by decide, by decide, by decide⟩

/-- The supply at a height is the sum of the subsidies of the blocks up to it: every block has a
subsidy, no sum overflows on the way, more is never less at a greater height, and all of it
together is at most twice what is paid before the first halving. On the main network this is no
more than can ever exist. -/
theorem supply_is_sum :
    (∀ p : Params, 1 ≤ p.subsidyHalvingInterval.toNat → 0 ≤ p.initialSubsidy.toInt →
      2 * p.subsidyHalvingInterval.toNat * p.initialSubsidy.toInt ≤ 2 ^ 63 - 1 →
      ∃ subsidy : UInt32 → Int, (∀ height, atHeight height p = .ok (subsidy height)) ∧
        ∀ height : UInt32,
          let total (height : UInt32) : Int :=
            ∑ k ∈ Finset.range (height.toNat + 1), subsidy (UInt32.ofNat k)
          supply height p = .ok (total height) ∧
          (∀ later, height ≤ later → total height ≤ total later) ∧
          total height ≤ 2 * p.subsidyHalvingInterval.toNat * p.initialSubsidy.toInt) ∧
    ∀ height, ∃ n, supply height .main = .ok n ∧ n ≤ maxMoney.toInt := by
  constructor
  · intro p hinterval hinitial hfits
    have h : Payable p := ⟨hinterval, hinitial, hfits⟩
    refine ⟨_, h.atHeight_eq, fun height => ?_⟩
    have htotal (height : UInt32) :
        ∑ k ∈ Finset.range (height.toNat + 1),
          halved p ((UInt32.ofNat k).toNat / halvingInterval p) = issued p (height.toNat + 1) := by
      refine Finset.sum_congr rfl fun k hk => ?_
      have hlt : k < 2 ^ 32 := (Finset.mem_range.mp hk).trans_le height.toNat_lt
      rw [UInt32.toNat_ofNat', Nat.mod_eq_of_lt hlt]
    simp only [htotal]
    refine ⟨h.supply_eq height, fun later hle => ?_, h.issued_le _⟩
    exact issued_mono hinitial (Nat.succ_le_succ (UInt32.le_iff_toNat_le.mp hle))
  · intro height
    exact ⟨_, payable_main.supply_eq height, (payable_main.issued_le _).trans (by decide)⟩

/-- A subsidy that halves with every block, as large as there is room for. The third block makes a
quarter of what the first one made, and at the last height no more is there than twice that. -/
theorem supply_is_sum_steepest :
    let p : Params :=
      { Params.main with subsidyHalvingInterval := 1, initialSubsidy := 0x3fffffffffffffff }
    1 ≤ p.subsidyHalvingInterval.toNat ∧ 0 ≤ p.initialSubsidy.toInt ∧
      2 * p.subsidyHalvingInterval.toNat * p.initialSubsidy.toInt ≤ 2 ^ 63 - 1 ∧
      atHeight 2 p = .ok 0x0fffffffffffffff ∧
      supply 2 p = .ok (0x3fffffffffffffff + 0x1fffffffffffffff + 0x0fffffffffffffff) ∧
      ∃ n, supply 0xffffffff p = .ok n ∧ 0x3fffffffffffffff ≤ n ∧
        n ≤ 2 * p.subsidyHalvingInterval.toNat * p.initialSubsidy.toInt := by
  intro p
  have hinterval : 1 ≤ p.subsidyHalvingInterval.toNat := by decide
  have hinitial : 0 ≤ p.initialSubsidy.toInt := by decide
  have hfits : 2 * p.subsidyHalvingInterval.toNat * p.initialSubsidy.toInt ≤ 2 ^ 63 - 1 := by
    decide
  obtain ⟨subsidy, hsubsidy, hsum⟩ := supply_is_sum.1 p hinterval hinitial hfits
  have hpaid {height : UInt32} {n : Int} (h : atHeight height p = .ok n) : subsidy height = n :=
    Except.ok.inj ((hsubsidy height).symm.trans h)
  have hfirst : subsidy 0 = 0x3fffffffffffffff := hpaid (by decide)
  have hsecond : subsidy 1 = 0x1fffffffffffffff := hpaid (by decide)
  have hthird : subsidy 2 = 0x0fffffffffffffff := hpaid (by decide)
  obtain ⟨hthree, -, -⟩ := hsum 2
  obtain ⟨-, hmore, -⟩ := hsum 0
  obtain ⟨hall, -, hle⟩ := hsum 0xffffffff
  refine ⟨hinterval, hinitial, hfits, by decide, ?_, _, hall, ?_, hle⟩
  · rw [hthree, ← hfirst, ← hsecond, ← hthird]
    simp [Finset.sum_range_succ]
  · rw [← hfirst]
    exact (Finset.sum_range_one _).symm.trans_le (hmore _ (by decide))

end StakeChain.Subsidy
