/-
The work of a block is `2 ^ 256` over its target and one, and that of a branch
is the sum over its headers.

The quotient is one wider than a word, so it is taken of what is left after the
divisor was taken away once, and one is added. For that no step may wrap: the
target is not the greatest number, as its last byte or all but three bytes of
it are zero, and it is not zero, so the quotient is at most half of what a word
holds. The work of a branch does wrap. It is the sum up to a multiple of
`2 ^ 256`, and the sum itself as long as that fits.
-/
import StakeChain.Chain.Fork
import StakeChain.Proofs.CompactForm
import StakeChain.Proofs.Forks

namespace StakeChain

namespace Work

open U256 (checkedDiv checkedDiv_eq)
open StakeChain.Compact (target? target?_eq_some expand exponent leading leading_lt toNat_expand)

variable {bits bits' : UInt32} {target target' : U256}

/-! ## One block -/

/-- The greatest number is no target: the last byte of a long target is zero, and a short one has
three bytes. -/
theorem target_lt (h : target? bits = some target) : target.toNat + 1 < 2 ^ 256 := by
  obtain ⟨hexpand, -⟩ := target?_eq_some.mp h
  have hfits : (expand bits).overflow = false := by rw [hexpand]
  have hvalue := toNat_expand hfits
  rw [hexpand] at hvalue
  change target.toNat = leading bits * 2 ^ (8 * (exponent bits - 3)) at hvalue
  have hlt := target.isLt
  have hleading := leading_lt bits
  cases hsize : exponent bits - 3 with
  | zero =>
      rw [hsize] at hvalue
      omega
  | succ n =>
      rw [hsize, Nat.mul_succ, Nat.pow_add, ← Nat.mul_assoc] at hvalue
      omega

theorem target_pos (h : target? bits = some target) : 0 < target.toNat := by
  obtain ⟨-, hne⟩ := target?_eq_some.mp h
  exact Nat.pos_of_ne_zero (U256.toNat_ne_zero hne)

/-- No step of the calculation of the work of a target wraps, and nothing is divided by zero. -/
structure Unwrapped (target : U256) : Prop where
  divisor : (target + 1).toNat = target.toNat + 1
  quotient : ∃ q, checkedDiv (~~~target) (target + 1) = some q ∧ (q + 1).toNat = q.toNat + 1

theorem toNat_add_one {a : U256} (h : a.toNat + 1 < 2 ^ 256) : (a + 1).toNat = a.toNat + 1 := by
  rw [BitVec.toNat_add]
  exact Nat.mod_eq_of_lt h

/-- Taking the divisor away once makes the quotient smaller by one. -/
theorem complement_div_add_one {n : Nat} (h : n < 2 ^ 256) :
    (2 ^ 256 - 1 - n) / (n + 1) + 1 = 2 ^ 256 / (n + 1) := by
  rw [← Nat.add_div_right _ n.succ_pos]
  congr 1
  omega

theorem quotient_eq (h : target? bits = some target) :
    ∃ q, checkedDiv (~~~target) (target + 1) = some q ∧
      q.toNat + 1 = 2 ^ 256 / (target.toNat + 1) := by
  have hdivisor := toNat_add_one (target_lt h)
  have hne : target + 1 ≠ 0 := by
    intro hzero
    rw [hzero] at hdivisor
    cases hdivisor
  refine ⟨~~~target / (target + 1), ?_, ?_⟩
  · rw [checkedDiv_eq, if_neg hne]
  · rw [BitVec.toNat_udiv, BitVec.toNat_not, hdivisor]
    exact complement_div_add_one target.isLt

theorem quotient_lt (h : target? bits = some target) :
    2 ^ 256 / (target.toNat + 1) < 2 ^ 256 :=
  Nat.div_lt_self (Nat.two_pow_pos 256) (Nat.succ_lt_succ (target_pos h))

theorem unwrapped_of_target (h : target? bits = some target) : Unwrapped target := by
  obtain ⟨q, hq, hwork⟩ := quotient_eq h
  refine ⟨toNat_add_one (target_lt h), q, hq, toNat_add_one ?_⟩
  rw [hwork]
  exact quotient_lt h

theorem toNat_ofBits (h : target? bits = some target) :
    (ofBits bits).toNat = 2 ^ 256 / (target.toNat + 1) := by
  obtain ⟨q, hq, hwork⟩ := quotient_eq h
  have hfits : q.toNat + 1 < 2 ^ 256 := by
    rw [hwork]
    exact quotient_lt h
  simp only [ofBits, h, hq]
  rw [toNat_add_one hfits, hwork]

theorem ofBits_of_none (h : target? bits = none) : ofBits bits = 0 := by
  rw [ofBits, h]

/-- A smaller target never has less work. -/
theorem ofBits_le (h : target? bits = some target) (h' : target? bits' = some target')
    (hle : target ≤ target') : ofBits bits' ≤ ofBits bits := by
  rw [BitVec.le_def, toNat_ofBits h, toNat_ofBits h']
  exact Nat.div_le_div_left (Nat.succ_le_succ hle) (Nat.succ_pos _)

end Work

/-! ## All blocks of a branch -/

namespace Branch

variable {b tip candidate : Branch}

/-- The work of all headers of a branch together, however much it is. -/
def totalWork (b : Branch) : Nat :=
  (b.links.map fun l => (Work.ofBits l.header.bits).toNat).sum

theorem totalWork_root (header : BlockHeader) :
    (root header).totalWork = (Work.ofBits header.bits).toNat :=
  Nat.add_zero _

/-- A header adds its own work, and to the word that is kept as well as that fits. -/
theorem work_of_extend {b' : Branch} {header : BlockHeader} {stake : Option StakeRecord}
    (h : b.extend header stake = .ok b') :
    b'.totalWork = (Work.ofBits header.bits).toNat + b.totalWork ∧
      b'.tip.work = b.tip.work + Work.ofBits header.bits := by
  obtain ⟨height, -, h⟩ := Verdict.bind_eq_ok.mp h
  cases h
  exact ⟨List.sum_cons, rfl⟩

theorem Grown.toNat_work (h : b.Grown) : b.tip.work.toNat = b.totalWork % 2 ^ 256 := by
  induction h with
  | @root header =>
      rw [totalWork_root]
      exact (Nat.mod_eq_of_lt (Work.ofBits header.bits).isLt).symm
  | extend _ he ih =>
      obtain ⟨htotal, hwork⟩ := work_of_extend he
      rw [hwork, htotal, BitVec.toNat_add, ih, Nat.mod_add_mod, Nat.add_comm]

theorem Grown.toNat_work_of_lt (h : b.Grown) (hfits : b.totalWork < 2 ^ 256) :
    b.tip.work.toNat = b.totalWork := by
  rw [h.toNat_work, Nat.mod_eq_of_lt hfits]

theorem isBetter_iff (htip : tip.Grown) (hcandidate : candidate.Grown)
    (htipFits : tip.totalWork < 2 ^ 256) (hfits : candidate.totalWork < 2 ^ 256) :
    Reorganization.isBetter candidate tip = true ↔ tip.totalWork < candidate.totalWork := by
  rw [Reorganization.isBetter, BitVec.ult_iff_lt, BitVec.lt_def,
    htip.toNat_work_of_lt htipFits, hcandidate.toNat_work_of_lt hfits]

/-- The work of a compact form that stands for a target is `2 ^ 256` over the target and one,
rounded down, found without wrapping or dividing by zero, and zero where there is no target; so a
smaller target never has less. The work that is kept for a branch is the sum of that of its headers
as long as the sum fits, and then the branch with more work is the better one. -/
theorem work_exact :
    (∀ bits target, Compact.target? bits = some target →
      Work.Unwrapped target ∧ (Work.ofBits bits).toNat = 2 ^ 256 / (target.toNat + 1)) ∧
    (∀ bits, Compact.target? bits = none → Work.ofBits bits = 0) ∧
    (∀ bits bits' target target', Compact.target? bits = some target →
      Compact.target? bits' = some target' → target ≤ target' →
        Work.ofBits bits' ≤ Work.ofBits bits) ∧
    (∀ b : Branch, b.Grown → b.totalWork < 2 ^ 256 → b.tip.work.toNat = b.totalWork) ∧
    ∀ tip candidate : Branch, tip.Grown → candidate.Grown →
      tip.totalWork < 2 ^ 256 → candidate.totalWork < 2 ^ 256 →
        (Reorganization.isBetter candidate tip = true ↔ tip.totalWork < candidate.totalWork) := by
  refine ⟨?_, ?_, ?_, ?_, ?_⟩
  · intro bits target h
    exact ⟨Work.unwrapped_of_target h, Work.toNat_ofBits h⟩
  · intro bits h
    exact Work.ofBits_of_none h
  · intro bits bits' target target' h h' hle
    exact Work.ofBits_le h h' hle
  · intro b hb hfits
    exact hb.toNat_work_of_lt hfits
  · intro tip candidate htip hcandidate htipFits hfits
    exact isBetter_iff htip hcandidate htipFits hfits

/-- Three blocks with the easiest target are more work than two. -/
theorem work_exact_easiest :
    (∃ target, Compact.target? 0x207fffff = some target ∧ Work.Unwrapped target ∧
      (Work.ofBits 0x207fffff).toNat = 2 ^ 256 / (target.toNat + 1)) ∧
    Reorganization.Sample.long.tip.work.toNat = 6 ∧
    Reorganization.isBetter Reorganization.Sample.long Reorganization.Sample.short = true := by
  have hlong : Reorganization.Sample.long.Grown :=
    Reorganization.Sample.grown_of_mem_all _ (by simp [Reorganization.Sample.all])
  have hshort : Reorganization.Sample.short.Grown :=
    Reorganization.Sample.grown_of_mem_all _ (by simp [Reorganization.Sample.all])
  have hlongWork : Reorganization.Sample.long.totalWork = 6 := by decide +kernel
  have hshortWork : Reorganization.Sample.short.totalWork = 4 := by decide +kernel
  obtain ⟨htarget, -, -, hsum, hbetter⟩ := work_exact
  refine ⟨?_, ?_, ?_⟩
  · have heasiest : Compact.target? 0x207fffff = some (0x7fffff#256 <<< 232) := by
      decide +kernel
    exact ⟨_, heasiest, htarget _ _ heasiest⟩
  · rw [hsum _ hlong (by omega), hlongWork]
  · rw [hbetter _ _ hshort hlong (by omega) (by omega), hlongWork, hshortWork]
    decide

end Branch

end StakeChain
