/-
Median times do not go back.

The median of some times is their sorted list at one place, so it is no
earlier than a given time exactly if few enough of them are. A header that is
not earlier than the median of those before it adds no time before that
median. One time leaves at the other end of the span, or none while the
branch is short, and where the middle is depends on the number of times
alone, which does not get smaller. So at most as many times as before are
earlier than the old median, and the new one is not among them.
-/
import StakeChain.Proofs.Ancestry
import StakeChain.Validation.Header

namespace StakeChain

namespace Branch

/-! ## The middle of some times -/

/-- At a place of a sorted list nothing is before a time exactly if no more than that many members
are. -/
theorem le_getElem_iff {l : List UInt32} (hsorted : l.Pairwise (· ≤ ·)) {i : Nat}
    (hi : i < l.length) {v : UInt32} : v ≤ l[i] ↔ l.countP (· < v) ≤ i := by
  induction l generalizing i with
  | nil => cases hi
  | cons a rest ih =>
      obtain ⟨ha, hrest⟩ := List.pairwise_cons.mp hsorted
      by_cases hav : a < v
      · rw [List.countP_cons, if_pos (decide_eq_true hav)]
        cases i with
        | zero => exact iff_of_false (UInt32.not_le.mpr hav) (by omega)
        | succ j =>
            rw [List.getElem_cons_succ, ih hrest]
            omega
      · -- the first member is the least one
        have hva : v ≤ a := UInt32.not_lt.mp hav
        have hall : ∀ t ∈ a :: rest, v ≤ t := by
          intro t ht
          rcases List.mem_cons.mp ht with rfl | ht
          · exact hva
          · exact UInt32.le_trans hva (ha t ht)
        have hnone : (a :: rest).countP (· < v) = 0 :=
          List.countP_eq_zero.mpr fun t ht => by simpa using hall t ht
        rw [hnone]
        exact iff_of_true (hall _ (List.getElem_mem hi)) (Nat.zero_le i)

theorem median?_eq_some_iff {times : List UInt32} {m : UInt32} :
    median? times = some m ↔
      ∃ h : times.length / 2 < (times.mergeSort fun a b => a ≤ b).length,
        (times.mergeSort fun a b => a ≤ b)[times.length / 2] = m :=
  List.getElem?_eq_some_iff

/-- There is a median where there is a time. -/
theorem exists_median? {times : List UInt32} (h : times ≠ []) : ∃ m, median? times = some m := by
  have hpos : 0 < times.length := List.length_pos_iff.mpr h
  refine ⟨_, median?_eq_some_iff.mpr ⟨?_, rfl⟩⟩
  rw [List.length_mergeSort]
  omega

/-- A median is no earlier than a time exactly if at most half of the times are. -/
theorem le_median_iff {times : List UInt32} {m v : UInt32} (h : median? times = some m) :
    v ≤ m ↔ times.countP (· < v) ≤ times.length / 2 := by
  obtain ⟨hlt, rfl⟩ := median?_eq_some_iff.mp h
  have hsorted : (times.mergeSort fun a b => a ≤ b).Pairwise (· ≤ ·) := by
    refine (List.pairwise_mergeSort ?_ ?_ times).imp of_decide_eq_true
    · exact fun a b c hab hbc => decide_eq_true
        (UInt32.le_trans (of_decide_eq_true hab) (of_decide_eq_true hbc))
    · exact fun a b => by simpa using UInt32.le_total a b
  rw [le_getElem_iff hsorted, (List.mergeSort_perm ..).countP_eq]

/-- A time that is not before the median of a span comes in, and one may leave at the other end. -/
theorem median?_le_median? {t m m' : UInt32} {rest : List UInt32} {span : Nat}
    (hm : median? (rest.take span) = some m) (ht : m ≤ t)
    (hm' : median? ((t :: rest).take span) = some m') : m ≤ m' := by
  rw [le_median_iff hm']
  cases span with
  | zero =>
      obtain ⟨hlt, _⟩ := median?_eq_some_iff.mp hm
      exact absurd hlt (by simp)
  | succ n =>
      have hold : (rest.take (n + 1)).countP (· < m) ≤ (rest.take (n + 1)).length / 2 :=
        (le_median_iff hm).mp (UInt32.le_refl m)
      have hleft : (rest.take n).countP (· < m) ≤ (rest.take (n + 1)).countP (· < m) :=
        (List.take_sublist_take_left (Nat.le_succ n)).countP_le
      have hnew : ¬decide (t < m) = true := by simpa using ht
      rw [List.take_succ_cons, List.countP_cons, if_neg hnew, Nat.add_zero]
      calc (rest.take n).countP (· < m)
          ≤ (rest.take (n + 1)).length / 2 := Nat.le_trans hleft hold
        _ ≤ (t :: rest.take n).length / 2 := by
          simp only [List.length_cons, List.length_take]
          omega

/-! ## Along a branch -/

variable {a b parent : Branch} {span : Nat} {m m' : UInt32}

theorem medianTime_eq_ok : b.medianTime span = .ok m ↔ median? (b.times span) = some m := by
  rw [medianTime]
  cases median? (b.times span) with
  | none => exact ⟨nofun, nofun⟩
  | some t => simp

/-- A span of at least one header has a median time. -/
theorem exists_medianTime (b : Branch) (hspan : 0 < span) : ∃ m, b.medianTime span = .ok m := by
  obtain ⟨n, rfl⟩ : ∃ n, span = n + 1 := ⟨span - 1, by omega⟩
  have htimes : b.times (n + 1) ≠ [] := by simp [times, links]
  obtain ⟨m, hm⟩ := exists_median? htimes
  exact ⟨m, medianTime_eq_ok.mpr hm⟩

/-- A time is the median one if at most half of the times are before it, and more than half are
not after it. -/
theorem medianTime_eq_of_countP {v : UInt32} (hspan : 0 < span)
    (hbefore : (b.times span).countP (· < v) ≤ (b.times span).length / 2)
    (hupTo : (b.times span).length / 2 < (b.times span).countP (· ≤ v)) :
    b.medianTime span = .ok v := by
  obtain ⟨m, hm⟩ := b.exists_medianTime hspan
  have hmedian := medianTime_eq_ok.mp hm
  have hle : v ≤ m := (le_median_iff hmedian).mpr hbefore
  have hge : m ≤ v := by
    refine UInt32.not_lt.mp fun hlt => ?_
    have hfew := (le_median_iff hmedian).mp (UInt32.le_refl m)
    have hmono : (b.times span).countP (· ≤ v) ≤ (b.times span).countP (· < m) :=
      List.countP_mono_left fun t _ ht => by
        simpa using UInt32.lt_of_le_of_lt (of_decide_eq_true ht) hlt
    omega
  rw [hm, UInt32.le_antisymm hge hle]

/-- The median of one time is that time. -/
theorem medianTime_one (b : Branch) : b.medianTime 1 = .ok b.tip.header.time := by
  rw [medianTime_eq_ok]
  simp [times, links, median?]

/-- A header that is not earlier than the median time of those before it does not set it back. -/
theorem medianTime_le_of_parent? (hp : b.parent? = some parent)
    (hm : parent.medianTime span = .ok m) (ht : m ≤ b.tip.header.time)
    (hm' : b.medianTime span = .ok m') : m ≤ m' := by
  rw [medianTime_eq_ok, times, List.map_take] at hm hm'
  rw [links_of_parent? hp, List.map_cons] at hm'
  exact median?_le_median? hm ht hm'

/-- Every header of the branch is later than the median time of the headers before it. -/
def Timely (span : Nat) (b : Branch) : Prop :=
  b.EachStep fun parent a => ∀ m, parent.medianTime span = .ok m → m < a.tip.header.time

/-- The rule about times holds a header to the median time of those before it. -/
theorem medianTime_lt_of_time {c : Candidate} (h : HeaderRule.time.check c = .ok ())
    (hp : c.previous? = some parent) :
    ∃ m, parent.medianTime c.params.medianTimeSpan.toNat = .ok m ∧ m < c.header.time := by
  obtain ⟨_, hmedian, _⟩ := Verdict.bind_eq_ok.mp h
  rw [HeaderRule.checkMedian, hp] at hmedian
  obtain ⟨m, hm, hlt⟩ := Verdict.bind_eq_ok.mp hmedian
  exact ⟨m, Verdict.mapError_eq_ok.mp hm, of_decide_eq_true (Verdict.demand_eq_ok.mp hlt)⟩

/-- A header that is later than the median time of those before it passes the rule, at its own
time. -/
theorem exists_passing {p : Params} (hp : a.parent? = some parent)
    (hm : parent.medianTime p.medianTimeSpan.toNat = .ok m) (hlt : m < a.tip.header.time) :
    ∃ c : Candidate, c.params = p ∧ c.previous? = some parent ∧ c.header = a.tip.header ∧
      HeaderRule.time.check c = .ok () := by
  let c : Candidate :=
    ⟨p, ⟨a.tip.header, [], []⟩, a, a.tip.header.time, ⟨Flags.none, .none, false, false⟩⟩
  have hmedian : HeaderRule.checkMedian c = .ok () := by
    rw [HeaderRule.checkMedian, show c.previous? = some parent from hp]
    refine Verdict.bind_eq_ok.mpr ⟨m, Verdict.mapError_eq_ok.mpr hm, ?_⟩
    exact Verdict.demand_eq_ok.mpr (decide_eq_true hlt)
  have hahead : a.tip.header.time.toNat ≤
      a.tip.header.time.toNat + p.maxFutureBlockTime.toNat := Nat.le_add_right _ _
  refine ⟨c, rfl, hp, rfl, Verdict.bind_eq_ok.mpr ⟨(), hmedian, ?_⟩⟩
  exact Verdict.demand_eq_ok.mpr (decide_eq_true hahead)

/-- Where every header is later than the median time of those before it, no header has a median
time before that of its parent, be the branch longer than the span or not. -/
theorem medianTimes_of_timely (span : Nat) (hspan : 0 < span) (b : Branch) (h : b.Timely span) :
    ∀ a parent : Branch, a.links <:+ b.links → a.parent? = some parent →
      ∃ m m', parent.medianTime span = .ok m ∧ a.medianTime span = .ok m' ∧ m ≤ m' := by
  intro a parent ha hp
  obtain ⟨m, hm⟩ := parent.exists_medianTime hspan
  obtain ⟨m', hm'⟩ := a.exists_medianTime hspan
  have ht : m ≤ a.tip.header.time := UInt32.le_of_lt (h a parent ha hp m hm)
  exact ⟨m, m', hm, hm', medianTime_le_of_parent? hp hm ht hm'⟩

/-! ## Medians that do not fall -/

/-- No header of the branch has a median time before that of its parent. -/
def MediansRise (span : Nat) (b : Branch) : Prop :=
  b.EachStep fun parent a => ∀ m m', parent.medianTime span = .ok m →
    a.medianTime span = .ok m' → m ≤ m'

theorem Timely.mediansRise (h : b.Timely span) : b.MediansRise span := by
  refine EachStep.imp h ?_
  intro parent a hp ht m m' hm hm'
  exact medianTime_le_of_parent? hp hm (UInt32.le_of_lt (ht m hm)) hm'

/-- A median is one of some times. -/
theorem pos_of_medianTime (hm : b.medianTime span = .ok m) : 0 < span := by
  rcases Nat.eq_zero_or_pos span with rfl | hspan
  · obtain ⟨hlt, -⟩ := median?_eq_some_iff.mp (medianTime_eq_ok.mp hm)
    exact absurd hlt (by simp [times])
  · exact hspan

theorem MediansRise.le_of_suffix (h : b.MediansRise span) (ha : a.links <:+ b.links)
    (hm : a.medianTime span = .ok m) (hm' : b.medianTime span = .ok m') : m ≤ m' := by
  have hall : ∀ v, b.medianTime span = .ok v → m ≤ v := by
    refine EachStep.reaches (P := fun c => ∀ v, c.medianTime span = .ok v → m ≤ v) ?_ ha ?_
    · intro c parent hc hp hparent v hv
      obtain ⟨mp, hmp⟩ := parent.exists_medianTime (pos_of_medianTime hm)
      exact UInt32.le_trans (hparent mp hmp) (h c parent hc hp mp v hmp hv)
    · intro v hv
      cases hm.symm.trans hv
      exact UInt32.le_refl m
  exact hall m' hm'

end Branch

namespace Sample

/-- A header that shows its height in its hash. -/
def linkAt (height : Nat) (version : Int32) (time : UInt32) : Link :=
  ⟨⟨version, Digest.zero, Digest.zero, time, 0, 0⟩, Digest.ofNat height, height, 0, none⟩

/-- Four headers, the last of which is earlier than the one before it. -/
def backwards : Branch :=
  ⟨linkAt 3 4 31, [linkAt 2 4 40, linkAt 1 4 30, linkAt 0 4 10]⟩

/-- A fifth header moves the span of four. -/
def onwards : Branch :=
  ⟨linkAt 4 4 32, backwards.links⟩

theorem median_backwards : backwards.medianTime 4 = .ok 31 :=
  Branch.medianTime_eq_of_countP (by decide) (by decide) (by decide)

theorem timely_onwards : onwards.Timely 4 := by
  have hfirst : (Branch.mk (linkAt 0 4 10) []).medianTime 4 = .ok 10 :=
    Branch.medianTime_eq_of_countP (by decide) (by decide) (by decide)
  have hsecond : (Branch.mk (linkAt 1 4 30) [linkAt 0 4 10]).medianTime 4 = .ok 30 :=
    Branch.medianTime_eq_of_countP (by decide) (by decide) (by decide)
  have hthird : (Branch.mk (linkAt 2 4 40) [linkAt 1 4 30, linkAt 0 4 10]).medianTime 4 =
      .ok 30 :=
    Branch.medianTime_eq_of_countP (by decide) (by decide) (by decide)
  refine .of_parent? rfl (.of_parent? rfl (.of_parent? rfl (.of_parent? rfl
    (.of_parent?_none rfl) ?_) ?_) ?_) ?_
  · intro m hm
    cases hfirst.symm.trans hm
    decide
  · intro m hm
    cases hsecond.symm.trans hm
    decide
  · intro m hm
    cases hthird.symm.trans hm
    decide
  · intro m hm
    cases median_backwards.symm.trans hm
    decide

end Sample

/-- The median time after the header that is earlier than its parent, and after the next one. -/
theorem medianTimes_of_timely_onwards :
    Sample.onwards.Timely 4 ∧
      ∃ m', Sample.onwards.medianTime 4 = .ok m' ∧ 31 ≤ m' := by
  obtain ⟨m, m', hm, hm', hle⟩ := Branch.medianTimes_of_timely 4 (by decide) Sample.onwards
    Sample.timely_onwards Sample.onwards Sample.backwards (List.suffix_refl _) rfl
  cases Sample.median_backwards.symm.trans hm
  exact ⟨Sample.timely_onwards, m', hm', hle⟩

end StakeChain
