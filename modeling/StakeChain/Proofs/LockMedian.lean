/-
When the median time that lock times look at does not go back.

Headers are held to a median over a span that the network sets, and lock times
are compared with one over eleven headers. A header that comes in after the
first median may well be before the second, and set it back. It cannot where the
second median is never above the first. More than half of any span of times are
no later than the median at its end, and so no later than the last one, as that
median does not go back. Of several spans in a row that is true as well. So it
is true of eleven times where the span goes evenly into eleven, and where it goes
evenly into ten or twelve: one time more or less does not make up for the two by
which more than half of an even number is ahead.
-/
import StakeChain.Proofs.MedianTime

namespace StakeChain.Branch

variable {a b parent : Branch} {times times' : List UInt32} {v m : UInt32} {span n : Nat}

/-! ## More than half of some times -/

/-- More than half of the times are before a given one. -/
def MostlyBefore (v : UInt32) (times : List UInt32) : Prop :=
  times.length / 2 < times.countP (· < v)

instance : Decidable (MostlyBefore v times) :=
  inferInstanceAs (Decidable (_ < _))

theorem median_lt_iff (h : median? times = some m) : m < v ↔ MostlyBefore v times := by
  rw [MostlyBefore, ← UInt32.not_le, le_median_iff h, Nat.not_le]

theorem MostlyBefore.append (h : MostlyBefore v times) (h' : MostlyBefore v times') :
    MostlyBefore v (times ++ times') := by
  rw [MostlyBefore] at h h' ⊢
  rw [List.length_append, List.countP_append]
  omega

/-- What is more than half of every span is more than half of several spans in a row. -/
theorem mostlyBefore_take_mul (hne : times ≠ [])
    (h : ∀ k < times.length, MostlyBefore v ((times.drop k).take span)) (n : Nat) :
    MostlyBefore v (times.take ((n + 1) * span)) := by
  induction n generalizing times with
  | zero =>
      rw [Nat.zero_add, Nat.one_mul]
      exact h 0 (List.length_pos_iff.mpr hne)
  | succ n ih =>
      have hfirst : MostlyBefore v (times.take span) := h 0 (List.length_pos_iff.mpr hne)
      rw [Nat.succ_mul, Nat.add_comm, List.take_add]
      by_cases hrest : times.drop span = []
      · rw [hrest, List.take_nil, List.append_nil]
        exact hfirst
      · refine hfirst.append (ih hrest ?_)
        intro k hk
        rw [List.length_drop] at hk
        rw [List.drop_drop]
        exact h (span + k) (by omega)

theorem countP_take_add_le (p : UInt32 → Bool) (times : List UInt32) (n d : Nat) :
    (times.take n).countP p ≤ (times.take (n + d)).countP p ∧
      (times.take (n + d)).countP p ≤ (times.take n).countP p + min d (times.length - n) := by
  have hlast : ((times.drop n).take d).countP p ≤ min d (times.length - n) := by
    rw [← List.length_drop, ← List.length_take]
    exact List.countP_le_length
  rw [List.take_add, List.countP_append]
  omega

/-- One time more or less leaves more than half of an odd number of times. -/
theorem mostlyBefore_take_odd {half : Nat} (hlow : 2 * half ≤ n) (hhigh : n ≤ 2 * half + 2)
    (h : MostlyBefore v (times.take n)) : MostlyBefore v (times.take (2 * half + 1)) := by
  rw [MostlyBefore, List.length_take] at h ⊢
  rcases Nat.lt_or_ge n (2 * half + 1) with hless | hmore
  · obtain ⟨hcount, -⟩ := countP_take_add_le (· < v) times n (2 * half + 1 - n)
    rw [Nat.add_sub_cancel' (Nat.le_of_lt hless)] at hcount
    omega
  · obtain ⟨-, hcount⟩ := countP_take_add_le (· < v) times (2 * half + 1) (n - (2 * half + 1))
    rw [Nat.add_sub_cancel' hmore] at hcount
    omega

/-! ## The median of eleven -/

theorem median?_lockMedian (b : Branch) : median? (b.times medianSpan) = some b.lockMedian := by
  have hpos : 0 < medianSpan := by decide
  obtain ⟨m, hm⟩ := b.exists_medianTime hpos
  rw [medianTime_eq_ok] at hm
  rw [lockMedian, hm]
  rfl

theorem medianTime_medianSpan (b : Branch) : b.medianTime medianSpan = .ok b.lockMedian :=
  medianTime_eq_ok.mpr (median?_lockMedian b)

theorem lockMedian_eq_of_countP
    (hbefore : (b.times medianSpan).countP (· < v) ≤ (b.times medianSpan).length / 2)
    (hupTo : (b.times medianSpan).length / 2 < (b.times medianSpan).countP (· ≤ v)) :
    b.lockMedian = v := by
  have hv : b.medianTime medianSpan = .ok v :=
    medianTime_eq_of_countP (by decide) hbefore hupTo
  cases (medianTime_medianSpan b).symm.trans hv
  rfl

/-- The span goes evenly into that of lock times, or into one header more or less. -/
def GoesInto (span : Nat) : Prop :=
  ∃ n ∈ [medianSpan - 1, medianSpan, medianSpan + 1], span ∣ n

instance : Decidable (GoesInto span) :=
  inferInstanceAs (Decidable (∃ n ∈ _, _))

theorem GoesInto.exists_mul (h : GoesInto span) :
    0 < span ∧ ∃ k, 2 * 5 ≤ (k + 1) * span ∧ (k + 1) * span ≤ 2 * 5 + 2 := by
  obtain ⟨n, hn, c, rfl⟩ := h
  have hbounds : 10 ≤ span * c ∧ span * c ≤ 12 := by
    simp only [medianSpan, List.mem_cons, List.not_mem_nil, or_false] at hn
    omega
  cases c with
  | zero => omega
  | succ k =>
      rw [Nat.mul_comm] at hbounds
      refine ⟨?_, k, hbounds⟩
      refine Nat.pos_of_ne_zero ?_
      rintro rfl
      omega

theorem exists_links_eq_drop {k : Nat} (hk : k < b.links.length) :
    ∃ a : Branch, a.links = b.links.drop k :=
  ⟨⟨b.links[k], b.links.drop (k + 1)⟩, (List.drop_eq_getElem_cons hk).symm⟩

/-- Up to the end of a branch more than half of every span of times are before what its last median
is before. -/
theorem mostlyBefore_of_medianTime_lt (hrise : b.MediansRise span)
    (hm : b.medianTime span = .ok m) (hv : m < v) {k : Nat} (hk : k < b.links.length) :
    MostlyBefore v (((b.links.map fun l => l.header.time).drop k).take span) := by
  obtain ⟨a, ha⟩ := exists_links_eq_drop hk
  have hsuffix : a.links <:+ b.links := ha ▸ List.drop_suffix k b.links
  obtain ⟨ma, hma⟩ := a.exists_medianTime (pos_of_medianTime hm)
  have hle : ma ≤ m := hrise.le_of_suffix hsuffix hma hm
  have hmostly := (median_lt_iff (medianTime_eq_ok.mp hma)).mp (UInt32.lt_of_le_of_lt hle hv)
  rwa [times, ha, List.map_take, List.map_drop] at hmostly

/-- Where the span goes evenly into that of lock times, their median is never after the one that
the next header has to be after. -/
theorem lockMedian_le_medianTime (hspan : GoesInto span) (hrise : b.MediansRise span)
    (hm : b.medianTime span = .ok m) : b.lockMedian ≤ m := by
  refine UInt32.not_lt.mp ?_
  intro hlt
  obtain ⟨-, k, hlow, hhigh⟩ := hspan.exists_mul
  have hwindows : ∀ k < (b.links.map fun l => l.header.time).length,
      MostlyBefore b.lockMedian (((b.links.map fun l => l.header.time).drop k).take span) := by
    intro k hk
    rw [List.length_map] at hk
    exact mostlyBefore_of_medianTime_lt hrise hm hlt hk
  have hseveral := mostlyBefore_take_mul (by simp [links]) hwindows k
  have heleven := mostlyBefore_take_odd hlow hhigh hseveral
  rw [← List.map_take] at heleven
  exact UInt32.lt_irrefl _ ((median_lt_iff (median?_lockMedian b)).mpr heleven)

/-- Then no header sets the median of lock times back. -/
theorem Timely.lockMediansRise (h : b.Timely span) (hspan : GoesInto span) :
    b.MediansRise medianSpan := by
  intro a parent ha hp m m' hm hm'
  have hparent : parent.links <:+ b.links := (parent_suffix hp).trans ha
  obtain ⟨hpos, -⟩ := hspan.exists_mul
  obtain ⟨ms, hms⟩ := parent.exists_medianTime hpos
  have hle : parent.lockMedian ≤ ms :=
    lockMedian_le_medianTime hspan (EachStep.of_suffix h.mediansRise hparent) hms
  have hlt : ms < a.tip.header.time := h a parent ha hp ms hms
  cases (medianTime_medianSpan parent).symm.trans hm
  exact medianTime_le_of_parent? hp hm (UInt32.le_of_lt (UInt32.lt_of_le_of_lt hle hlt)) hm'

theorem MediansRise.lockMedian_le (h : b.MediansRise medianSpan) (ha : a.links <:+ b.links) :
    a.lockMedian ≤ b.lockMedian :=
  h.le_of_suffix ha (medianTime_medianSpan a) (medianTime_medianSpan b)

end StakeChain.Branch
