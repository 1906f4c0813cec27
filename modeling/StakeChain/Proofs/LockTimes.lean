/-
Locks that a script demands are kept by the chain.

A script does not look at the chain. What it demands is compared with what
the spending transaction says of itself, its lock time or the sequence of
one input, and the rules of the chain hold the transaction to what it says.
So a demand is met where both sides read the transaction in the same way.
For lock times they always do. For relative locks they do unless the version
is below zero: a checker takes it for a large one and the chain for a small
one, which knows no relative locks.
-/
import Mathlib.Data.Nat.Bitwise
import StakeChain.Eval.Checker
import StakeChain.Validation.Body
import StakeChain.Proofs.Ancestry
import StakeChain.Proofs.Engine

namespace StakeChain

theorem Tx.inputAt_eq_ok {tx : Tx} {index : Nat} {i : TxIn} :
    tx.inputAt index = .ok i ↔ tx.inputs[index]? = some i := by
  rw [inputAt]
  cases tx.inputs[index]? with
  | none => exact ⟨nofun, nofun⟩
  | some j => simp

/-! ## Lock times -/

namespace Checker

variable {tx : Tx} {index : Nat} {amount : Int64} {shared : Option TxDigests}

theorem lockTimeCovers_iff {actual : Nat} {demanded : Int} :
    lockTimeCovers actual demanded = true ↔
      ((actual : Int) < lockTimeThreshold ↔ demanded < lockTimeThreshold) ∧
        demanded ≤ actual := by
  simp only [lockTimeCovers, Bool.and_eq_true, beq_iff_eq, decide_eq_decide, decide_eq_true_eq]

/-- With a yes the lock time of the transaction covers the demanded one, and the input does not
free the transaction from it. -/
theorem lockTime_eq_yes {n : Int} (h : (ofTx tx index amount shared).lockTime n = .ok true) :
    lockTimeCovers tx.lockTime.toNat n = true ∧
      ∃ i ∈ tx.inputs, i.sequence ≠ sequenceFinal := by
  rw [ofTx] at h
  dsimp only at h
  split at h
  · next hcovers =>
      obtain ⟨i, hi, hfinal⟩ := Verdict.bind_eq_ok.mp h
      have hne : (i.sequence != sequenceFinal) = true := Except.ok.inj hfinal
      exact ⟨hcovers, i, List.mem_of_getElem? (Tx.inputAt_eq_ok.mp hi), bne_iff_ne.mp hne⟩
  · cases h

end Checker

theorem Tx.isFinal_iff {tx : Tx} {height : Nat} {time : Int} :
    tx.isFinal height time = true ↔
      tx.lockTime.toNat = 0 ∨
      (tx.lockTime.toNat < lockTimeThreshold ∧ tx.lockTime.toNat < height) ∨
      (lockTimeThreshold ≤ tx.lockTime.toNat ∧ (tx.lockTime.toNat : Int) < time) ∨
      ∀ i ∈ tx.inputs, i.sequence = sequenceFinal := by
  simp only [isFinal, Bool.or_eq_true, beq_iff_eq, decide_eq_true_eq, List.all_eq_true, or_assoc]
  split <;> grind

/-- The time that lock times in a block are compared with: the median time of the headers before
where the rules say so, and else the time of the block. -/
inductive Candidate.Cutoff (c : Candidate) : UInt32 → Prop
  | median {b : Branch} {t : UInt32} :
      c.rules.lockTime.medianTime = true → c.previous? = some b →
      b.medianTime c.params.medianTimeSpan.toNat = .ok t → Cutoff c t
  | own : (c.rules.lockTime.medianTime = true → c.previous? = none) → Cutoff c c.header.time

namespace BodyRule

theorem cutoff_of_lockCutoff {c : Candidate} {t : UInt32} (h : lockCutoff c = .ok t) :
    c.Cutoff t := by
  rw [lockCutoff] at h
  split at h
  · next b hb =>
      split at h
      · next hmedian => exact .median hmedian hb h
      · next hmedian =>
          cases h
          exact .own fun hm => absurd hm hmedian
  · next hnone =>
      cases h
      exact .own fun _ => hnone

theorem lockTime_eq_ok {c : Candidate} :
    lockTime.check c = .ok () ↔
      ∃ t, lockCutoff c = .ok t ∧ ∀ tx ∈ c.block.txs, tx.isFinal c.height t.toNat = true := by
  refine Verdict.bind_eq_ok.trans (exists_congr fun t => ?_)
  rw [Verdict.mapError_eq_ok, Verdict.demand_eq_ok, List.all_eq_true]

end BodyRule

/-- A lock time that a script demanded has passed: in a block whose transactions are final, where
the checker of an input says yes to a demand, the demand is for nothing, for a height below that
of the block, or for a time before the one that lock times are compared with. -/
theorem demanded_lockTime_passed (c : Candidate) (h : BodyRule.lockTime.check c = .ok ())
    (tx : Tx) (htx : tx ∈ c.block.txs) (index : Nat) (amount : Int64)
    (shared : Option TxDigests) (n : Nat)
    (hyes : (Checker.ofTx tx index amount shared).lockTime n = .ok true) :
    ∃ cutoff, c.Cutoff cutoff ∧
      (n = 0 ∨ (n < lockTimeThreshold ∧ n < c.height) ∨
        (lockTimeThreshold ≤ n ∧ n < cutoff.toNat)) := by
  obtain ⟨cutoff, hcutoff, hfinal⟩ := BodyRule.lockTime_eq_ok.mp h
  refine ⟨cutoff, BodyRule.cutoff_of_lockCutoff hcutoff, ?_⟩
  obtain ⟨hcovers, i, hi, hsequence⟩ := Checker.lockTime_eq_yes hyes
  obtain ⟨hkind, hle⟩ := Checker.lockTimeCovers_iff.mp hcovers
  rcases Tx.isFinal_iff.mp (hfinal tx htx) with hzero | ⟨hlow, hheight⟩ | ⟨hhigh, htime⟩ | hall
  · exact .inl (by omega)
  · exact .inr (.inl ⟨by omega, by omega⟩)
  · exact .inr (.inr ⟨by omega, by omega⟩)
  · exact absurd (hall i hi) hsequence

namespace Sample

/-- A header at a height and a time. -/
def link (height : Nat) (time : UInt32) : Link :=
  ⟨⟨4, Digest.zero, Digest.zero, time, 0, 0⟩, Digest.zero, height, 0, none⟩

/-- Headers at heights from zero to three, ten minutes apart. -/
def branch : Branch :=
  ⟨link 3 2400, [link 2 1800, link 1 1200, link 0 600]⟩

/-- A transaction that is locked until a time, in the last block of that branch. -/
def timed : Candidate where
  params := .regtest
  block := ⟨branch.tip.header, [⟨2, [⟨place, Script.empty, 0, []⟩], [], 500000000⟩], []⟩
  branch := { branch with below := [link 2 500000001] }
  adjustedTime := 0
  rules := ⟨Flags.none, ⟨true, true⟩, false, false⟩

end Sample

/-- The demand for a time one second earlier than the median. -/
theorem demanded_lockTime_passed_timed :
    ∃ cutoff, Sample.timed.Cutoff cutoff ∧
      ((500000000 : Nat) = 0 ∨
        (500000000 < lockTimeThreshold ∧ 500000000 < Sample.timed.height) ∨
        (lockTimeThreshold ≤ 500000000 ∧ 500000000 < cutoff.toNat)) :=
  demanded_lockTime_passed Sample.timed (by decide +kernel) _ (List.mem_singleton_self _) 0 0 none
    500000000 (by decide +kernel)

/-! ## Relative locks -/

/-- The bit of a sequence that makes a relative lock one of time. -/
def sequenceTypeBit : Nat := 22

theorem and_sequenceTypeFlag (n : Nat) :
    n &&& sequenceTypeFlag = (n.testBit sequenceTypeBit).toNat * 2 ^ 22 :=
  Nat.and_two_pow n 22

theorem and_sequenceMask (n : Nat) : n &&& sequenceMask = n % 65536 :=
  Nat.and_two_pow_sub_one_eq_mod n 16

namespace Checker

variable {tx : Tx} {index : Nat} {amount : Int64} {shared : Option TxDigests}

theorem sequenceCovers_iff {actual demanded : Nat} :
    sequenceCovers actual demanded = true ↔
      actual.testBit sequenceTypeBit = demanded.testBit sequenceTypeBit ∧
        demanded % 65536 ≤ actual % 65536 := by
  have hboth (n : Nat) : n &&& (sequenceTypeFlag ||| sequenceMask) =
      2 ^ 22 * (n.testBit sequenceTypeBit).toNat + n % 65536 := by
    have hlt : n % 65536 < 2 ^ 22 := by omega
    rw [Nat.and_or_distrib_left, and_sequenceTypeFlag, and_sequenceMask,
      Nat.two_pow_add_eq_or_of_lt hlt, Nat.mul_comm]
  have hflag : sequenceTypeFlag = 2 ^ 22 := rfl
  simp only [sequenceCovers, hboth, Bool.and_eq_true, beq_iff_eq, decide_eq_decide,
    decide_eq_true_eq]
  rw [hflag]
  cases actual.testBit sequenceTypeBit <;> cases demanded.testBit sequenceTypeBit <;>
    simp <;> omega

/-- With a yes the version knows relative locks, and that of the input is on, of the demanded
kind, and no shorter. -/
theorem sequence_eq_yes {n : Int} (h : (ofTx tx index amount shared).sequence n = .ok true) :
    2 ≤ tx.version.toUInt32 ∧ ∃ i, tx.inputs[index]? = some i ∧
      i.sequence.toNat.testBit sequenceDisableBit = false ∧
      sequenceCovers i.sequence.toNat n.toNat = true := by
  obtain ⟨i, hi, hyes⟩ := Verdict.bind_eq_ok.mp h
  have hall := Except.ok.inj hyes
  rw [Bool.and_eq_true, Bool.and_eq_true, Bool.not_eq_true', decide_eq_true_iff] at hall
  exact ⟨hall.1.1, i, Tx.inputAt_eq_ok.mp hi, hall.1.2, hall.2⟩

end Checker

namespace SequenceLock

variable {b : Branch} {lock : SequenceLock} {sequence height : UInt32}

/-- A lock opens no earlier than another. -/
structure AtLeast (lock other : SequenceLock) : Prop where
  height : other.minHeight ≤ lock.minHeight
  time : other.minTime ≤ lock.minTime

theorem AtLeast.refl (lock : SequenceLock) : lock.AtLeast lock :=
  ⟨Int.le_refl _, Int.le_refl _⟩

theorem AtLeast.trans {a b c : SequenceLock} (hab : a.AtLeast b) (hbc : b.AtLeast c) :
    a.AtLeast c :=
  ⟨Int.le_trans hbc.height hab.height, Int.le_trans hbc.time hab.time⟩

theorem add_eq (hon : sequence.toNat.testBit sequenceDisableBit = false) :
    lock.add b sequence height =
      if sequence.toNat.testBit sequenceTypeBit then
        { lock with
          minTime := max lock.minTime
            (((b.ancestor? (height.toNat - 1)).elim 0 fun a => (a.lockMedian.toNat : Int)) +
              (sequence.toNat % 65536 : Nat) * timeUnit - 1) }
      else
        { lock with
          minHeight :=
            max lock.minHeight (height.toNat + (sequence.toNat % 65536 : Nat) - 1) } := by
  rw [add, hon, and_sequenceMask, and_sequenceTypeFlag]
  cases sequence.toNat.testBit sequenceTypeBit <;> cases b.ancestor? (height.toNat - 1) <;> rfl

/-- Inputs only ever make the lock of a transaction longer. -/
theorem add_atLeast (lock : SequenceLock) : (lock.add b sequence height).AtLeast lock := by
  cases hon : sequence.toNat.testBit sequenceDisableBit with
  | true =>
      rw [add, hon]
      exact .refl lock
  | false =>
      rw [add_eq hon]
      split
      · exact ⟨Int.le_refl _, Int.le_max_left ..⟩
      · exact ⟨Int.le_max_left .., Int.le_refl _⟩

theorem foldl_atLeast (spent : List (TxIn × UInt32)) (lock : SequenceLock) :
    (spent.foldl (fun lock (i, height) => lock.add b i.sequence height) lock).AtLeast lock := by
  induction spent generalizing lock with
  | nil => exact .refl lock
  | cons first rest ih => exact (ih _).trans (add_atLeast lock)

/-- The lock of a transaction is at least the one that an input adds to those before it. -/
theorem exists_ofTx_atLeast {tx : Tx} {rules : LockTimeRules} {heights : List UInt32} {i : TxIn}
    (hversion : ¬ tx.version < 2) (hrules : rules.sequence = true)
    (hi : (i, height) ∈ tx.inputs.zip heights) :
    ∃ before : SequenceLock,
      (ofTx tx rules heights b).AtLeast (before.add b i.sequence height) := by
  obtain ⟨l, r, hspent⟩ := List.append_of_mem hi
  rw [ofTx, decide_eq_false hversion, hrules, hspent, List.foldl_append, List.foldl_cons]
  exact ⟨_, foldl_atLeast r _⟩

theorem opens_iff {parent : Branch} (hparent : b.parent? = some parent) :
    lock.opens b = true ↔
      lock.minHeight < b.height ∧ lock.minTime < parent.lockMedian.toNat := by
  rw [opens, hparent, Bool.and_eq_true, decide_eq_true_iff, decide_eq_true_iff]

end SequenceLock

/-- Below version two, and so below zero, no relative lock is looked at. -/
theorem Tx.meetsSequenceLocks_of_version_lt {tx : Tx} (h : tx.version < 2)
    (rules : LockTimeRules) (heights : List UInt32) (b : Branch) :
    tx.meetsSequenceLocks rules heights b = true := by
  rw [meetsSequenceLocks, SequenceLock.ofTx, decide_eq_true h, Bool.true_or, if_pos rfl,
    SequenceLock.opens, SequenceLock.free, Bool.and_eq_true, decide_eq_true_iff,
    decide_eq_true_iff]
  refine ⟨Int.lt_of_lt_of_le (by decide) (Int.natCast_nonneg _), ?_⟩
  cases b.parent? with
  | none => decide
  | some p => exact Int.lt_of_lt_of_le (by decide) (Int.natCast_nonneg _)

/-- For versions from zero on a checker and the chain agree on which know relative locks. -/
theorem not_version_lt_two {v : Int32} (h₀ : 0 ≤ v) (h : 2 ≤ v.toUInt32) : ¬ v < 2 := by
  rw [UInt32.le_iff_toNat_le, Int32.toNat_toUInt32_of_le h₀] at h
  rw [Int32.lt_iff_toInt_lt]
  have htwo : (2 : UInt32).toNat = 2 := rfl
  have htwo' : (2 : Int32).toInt = 2 := rfl
  have hclamp : v.toNatClampNeg = v.toInt.toNat := rfl
  omega

/-- A relative lock that a script demanded is kept by a transaction whose version is not below
zero. Where the checker of an input says yes to a demand and the chain lets the transaction into
the last block of a branch, that block is as many blocks above the coin of the input as demanded;
or, if time was demanded, the median time of the block before it is that much after the median
time of the block before the coin's. -/
theorem demanded_sequence_passed (tx : Tx) (hversion : 0 ≤ tx.version) (index : Nat)
    (amount : Int64) (shared : Option TxDigests) (rules : LockTimeRules)
    (hrules : rules.sequence = true) (heights : List UInt32)
    (hlength : heights.length = tx.inputs.length) (b parent : Branch) (hb : b.Rooted)
    (hparent : b.parent? = some parent) (hheights : ∀ h ∈ heights, h.toNat ≤ b.height) (n : Nat)
    (hyes : (Checker.ofTx tx index amount shared).sequence n = .ok true)
    (hmeets : tx.meetsSequenceLocks rules heights b = true) :
    ∃ height, heights[index]? = some height ∧
      if n.testBit sequenceTypeBit then
        ∃ a, b.ancestor? (height.toNat - 1) = some a ∧
          a.lockMedian.toNat + 512 * (n % 65536) ≤ parent.lockMedian.toNat
      else height.toNat + n % 65536 ≤ b.height := by
  obtain ⟨htwo, i, hi, hon, hcovers⟩ := Checker.sequence_eq_yes hyes
  obtain ⟨hkind, hle⟩ := Checker.sequenceCovers_iff.mp hcovers
  rw [Int.toNat_natCast] at hkind hle
  obtain ⟨hindex, rfl⟩ := List.getElem?_eq_some_iff.mp hi
  have hindex' : index < heights.length := hlength ▸ hindex
  refine ⟨heights[index], List.getElem?_eq_getElem hindex', ?_⟩
  have hmem : (tx.inputs[index], heights[index]) ∈ tx.inputs.zip heights :=
    List.mem_of_getElem? (i := index) (by rw [List.getElem?_zip_eq_some]; simp [hindex, hindex'])
  obtain ⟨before, hatLeast⟩ :=
    SequenceLock.exists_ofTx_atLeast (b := b) (not_version_lt_two hversion htwo) hrules hmem
  obtain ⟨hheight, htime⟩ := (SequenceLock.opens_iff hparent).mp hmeets
  have hheight := Int.lt_of_le_of_lt hatLeast.height hheight
  have htime := Int.lt_of_le_of_lt hatLeast.time htime
  rw [SequenceLock.add_eq hon, hkind] at hheight htime
  -- the lock that the input adds is of the demanded kind and no shorter
  cases hbit : n.testBit sequenceTypeBit with
  | true =>
      obtain ⟨a, ha, -⟩ := hb.exists_ancestor
        (Nat.le_trans (Nat.sub_le _ 1) (hheights _ (List.getElem_mem hindex')))
      rw [hbit, if_pos rfl, ha] at htime
      have hlock := Int.lt_of_le_of_lt (Int.le_max_right _ _) htime
      rw [Option.elim, SequenceLock.timeUnit] at hlock
      exact ⟨a, ha, by omega⟩
  | false =>
      rw [hbit, if_neg Bool.false_ne_true] at hheight
      have hlock := Int.lt_of_le_of_lt (Int.le_max_right _ _) hheight
      change _ + _ ≤ _
      omega

namespace Sample

/-- A spend of two coins: one has to be two blocks deep, the other 512 seconds old. -/
def waiting (version : Int32) : Tx :=
  ⟨version, [⟨place, Script.empty, 2, []⟩, ⟨place, Script.empty, 0x400001, []⟩], [], 0⟩

theorem rooted_branch : branch.Rooted :=
  .above rfl (.above rfl (.above rfl (.root rfl)))

/-- Both coins are at one height. -/
theorem twice_le {height : UInt32} {n : Nat} (h : height.toNat ≤ n) :
    ∀ h ∈ [height, height], h.toNat ≤ n :=
  List.forall_mem_cons.mpr ⟨h, List.forall_mem_cons.mpr ⟨h, nofun⟩⟩

theorem forall_pair_le (height : UInt32) (h : height.toNat ≤ branch.height) :
    ∀ h ∈ [height, height], h.toNat ≤ branch.height :=
  twice_le h

theorem yes_waiting : (Checker.ofTx (waiting (-1)) 0 0 none).sequence 2 = .ok true ∧
    (Checker.ofTx (waiting 2) 0 0 none).sequence 2 = .ok true ∧
    (Checker.ofTx (waiting 2) 1 0 none).sequence 0x400001 = .ok true := by
  decide

theorem ofTx_waiting {b a : Branch} {height : UInt32}
    (ha : b.ancestor? (height.toNat - 1) = some a) :
    SequenceLock.ofTx (waiting 2) ⟨true, true⟩ [height, height] b =
      ⟨height.toNat + 1, a.lockMedian.toNat + 511⟩ := by
  change (SequenceLock.free.add b 2 height).add b 0x400001 height = _
  rw [SequenceLock.add_eq (by decide), SequenceLock.add_eq (by decide), ha]
  change SequenceLock.mk (max (-1) (height.toNat + 2 - 1))
    (max (-1) (a.lockMedian.toNat + 512 - 1)) = _
  rw [SequenceLock.mk.injEq]
  omega

theorem meets_waiting :
    (waiting 2).meetsSequenceLocks ⟨true, true⟩ [1, 1] branch = true := by
  have hcoin : (Branch.mk (link 0 600) []).lockMedian = 600 := by
    decide +kernel
  have hparent : (Branch.mk (link 2 1800) [link 1 1200, link 0 600]).lockMedian = 1200 := by
    simp [Branch.lockMedian, Branch.median?, Branch.times, Branch.links, Branch.medianSpan, link,
      List.mergeSort]
  have hancestor : branch.ancestor? 0 = some ⟨link 0 600, []⟩ := by decide
  rw [Tx.meetsSequenceLocks, ofTx_waiting hancestor, SequenceLock.opens_iff rfl, hparent, hcoin]
  decide

end Sample

/-- Both demands on the same headers: the first coin is at height one, and so is the second. -/
theorem demanded_sequence_passed_waiting :
    (∃ height, ([1, 1] : List UInt32)[0]? = some height ∧
      height.toNat + 2 % 65536 ≤ Sample.branch.height) ∧
    ∃ height a parent, ([1, 1] : List UInt32)[1]? = some height ∧
      Sample.branch.parent? = some parent ∧
      Sample.branch.ancestor? (height.toNat - 1) = some a ∧
      a.lockMedian.toNat + 512 * (0x400001 % 65536) ≤ parent.lockMedian.toNat := by
  have hheights := Sample.forall_pair_le 1 (by decide)
  constructor
  · obtain ⟨height, hheight, hdeep⟩ := demanded_sequence_passed (Sample.waiting 2) (by decide) 0 0
      none ⟨true, true⟩ rfl [1, 1] rfl Sample.branch _ Sample.rooted_branch rfl hheights 2
      Sample.yes_waiting.2.1 Sample.meets_waiting
    rw [if_neg (by decide)] at hdeep
    exact ⟨height, hheight, hdeep⟩
  · obtain ⟨height, hheight, hold⟩ := demanded_sequence_passed (Sample.waiting 2) (by decide) 1 0
      none ⟨true, true⟩ rfl [1, 1] rfl Sample.branch _ Sample.rooted_branch rfl hheights 0x400001
      Sample.yes_waiting.2.2 Sample.meets_waiting
    rw [if_pos (by decide)] at hold
    obtain ⟨a, ha, hle⟩ := hold
    exact ⟨height, a, _, hheight, rfl, ha, hle⟩

/-- With a version below zero the coin need not be two blocks deep, although its script demands
it. -/
theorem demanded_sequence_skipped :
    Sample.branch.Rooted ∧ (∃ parent, Sample.branch.parent? = some parent) ∧
      ([2, 2] : List UInt32).length = (Sample.waiting (-1)).inputs.length ∧
      (∀ h ∈ ([2, 2] : List UInt32), h.toNat ≤ Sample.branch.height) ∧
      (Checker.ofTx (Sample.waiting (-1)) 0 0 none).sequence 2 = .ok true ∧
      (Sample.waiting (-1)).meetsSequenceLocks ⟨true, true⟩ [2, 2] Sample.branch = true ∧
      (2 : Nat).testBit sequenceTypeBit = false ∧
      ¬ ∃ height, ([2, 2] : List UInt32)[0]? = some height ∧
        height.toNat + 2 % 65536 ≤ Sample.branch.height := by
  refine ⟨Sample.rooted_branch, ⟨_, rfl⟩, rfl, Sample.forall_pair_le 2 (by decide),
    Sample.yes_waiting.1,
    Tx.meetsSequenceLocks_of_version_lt (by decide) _ _ _, by decide, ?_⟩
  rintro ⟨height, hheight, hdeep⟩
  cases hheight
  revert hdeep
  decide

end StakeChain
