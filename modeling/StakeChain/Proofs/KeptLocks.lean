/-
Relative locks that are met stay met, for spans that fit.

What a relative lock asks for is the same from every block above the coin, as
ancestors are found by their height. Heights go up along a branch, so nothing
but the median of eleven headers can shut a lock again. Headers are held to a
median over a span that the network sets, and for spans that go evenly into
ten, eleven or twelve that keeps the median of eleven from going back. For the
others it does not. Under a span that is a little too short or too long one
header may follow that is later than the median of the rule and earlier than
the one of locks. The branch here has such a header whatever the span is.
-/
import StakeChain.Proofs.LockMedian
import StakeChain.Proofs.LockTimes
import StakeChain.Proofs.Activation

namespace StakeChain

variable {p : Params} {a a' b parent : Branch} {tx : Tx} {rules : LockTimeRules}
  {heights : List UInt32} {lock : SequenceLock} {span : Nat}

/-! ## Locks from block to block -/

namespace SequenceLock

theorem add_of_suffix {sequence height : UInt32} (hg : b.Graded) (ha : a.links <:+ b.links)
    (hheight : height.toNat ≤ a.height) :
    lock.add b sequence height = lock.add a sequence height := by
  have hbefore : height.toNat - 1 ≤ a.height := Nat.le_trans (Nat.sub_le _ 1) hheight
  rw [add, add, hg.ancestor?_of_suffix ha hbefore]

/-- From every block above the coins the lock of a transaction is the same. -/
theorem ofTx_of_suffix (hg : b.Graded) (ha : a.links <:+ b.links)
    (hheights : ∀ h ∈ heights, h.toNat ≤ a.height) :
    ofTx tx rules heights b = ofTx tx rules heights a := by
  rw [ofTx, ofTx]
  refine if_congr Iff.rfl rfl ?_
  refine List.foldl_ext _ _ _ ?_
  rintro lock ⟨i, height⟩ hspent
  exact add_of_suffix hg ha (hheights height (List.of_mem_zip hspent).2)

theorem opens_iff_of_lowest (hp : b.parent? = none) :
    lock.opens b = true ↔ lock.minHeight < b.height ∧ lock.minTime < 0 := by
  rw [opens, hp, Bool.and_eq_true, decide_eq_true_iff, decide_eq_true_iff]

/-- A header does not shut a lock, unless it sets the median of lock times back. -/
theorem opens_of_parent? (hg : b.Graded) (hp : b.parent? = some parent)
    (hrise : b.MediansRise Branch.medianSpan) (h : lock.opens parent = true) :
    lock.opens b = true := by
  obtain ⟨hheight, -⟩ := hg.of_parent? hp
  rw [opens_iff hp]
  cases hpp : parent.parent? with
  | none =>
      obtain ⟨hminHeight, hminTime⟩ := (opens_iff_of_lowest hpp).mp h
      omega
  | some below =>
      have hparent : parent.MediansRise Branch.medianSpan :=
        Branch.EachStep.of_suffix hrise (Branch.parent_suffix hp)
      have hmedian : below.lockMedian ≤ parent.lockMedian :=
        hparent.lockMedian_le (Branch.parent_suffix hpp)
      rw [UInt32.le_iff_toNat_le] at hmedian
      obtain ⟨hminHeight, hminTime⟩ := (opens_iff hpp).mp h
      omega

/-- A lock that is open stays open where the median of lock times does not go back. -/
theorem opens_of_suffix (hg : b.Graded) (hrise : b.MediansRise Branch.medianSpan)
    (ha : a.links <:+ b.links) (h : lock.opens a = true) : lock.opens b = true := by
  refine Branch.EachStep.reaches (P := fun c => lock.opens c = true) ?_ ha h
  intro c parent hc hp
  exact opens_of_parent? (hg.of_suffix hc).1 hp (Branch.EachStep.of_suffix hrise hc)

end SequenceLock

theorem Tx.meetsSequenceLocks_of_suffix (hg : b.Graded) (hrise : b.MediansRise Branch.medianSpan)
    (ha : a.links <:+ b.links) (hheights : ∀ h ∈ heights, h.toNat ≤ a.height)
    (h : tx.meetsSequenceLocks rules heights a = true) :
    tx.meetsSequenceLocks rules heights b = true := by
  rw [meetsSequenceLocks] at h ⊢
  rw [SequenceLock.ofTx_of_suffix hg ha hheights]
  exact SequenceLock.opens_of_suffix hg hrise ha h

/-! ## Branches from times -/

namespace Branch

/-- Every time is after the median of the span of times that come after it in the list, as those of
the headers of a branch are. -/
def InOrder (span : Nat) : List UInt32 → Prop
  | [] => True
  | t :: rest => (rest = [] ∨ MostlyBefore t (rest.take span)) ∧ InOrder span rest

instance decidableInOrder (span : Nat) : (times : List UInt32) → Decidable (InOrder span times)
  | [] => isTrue trivial
  | _ :: rest =>
      have := decidableInOrder span rest
      inferInstanceAs (Decidable (_ ∧ _))

/-- All spans that are as long as the branch, or longer, are one. -/
theorem InOrder.of_length_le {n : Nat} {times : List UInt32} (h : InOrder n times)
    (hlength : times.length ≤ n + 1) (hn : n ≤ span) : InOrder span times := by
  induction times with
  | nil => trivial
  | cons t rest ih =>
      obtain ⟨hfirst, hrest⟩ := h
      rw [List.length_cons] at hlength
      refine ⟨?_, ih hrest (by omega)⟩
      have hwhole {k : Nat} (hk : n ≤ k) : rest.take k = rest :=
        List.take_of_length_le (by omega)
      rw [hwhole (Nat.le_refl n)] at hfirst
      rwa [hwhole hn]

end Branch

namespace Sample

/-- Headers at these times, the last one first. -/
def ending (time : UInt32) : List UInt32 → Branch
  | [] => ⟨linkAt 0 4 time, []⟩
  | earlier :: rest => ⟨linkAt (rest.length + 1) 4 time, (ending earlier rest).links⟩

theorem parent?_ending (time earlier : UInt32) (rest : List UInt32) :
    (ending time (earlier :: rest)).parent? = some (ending earlier rest) := by
  cases rest with
  | nil => rfl
  | cons _ _ => rfl

theorem times_ending (time : UInt32) (rest : List UInt32) :
    (ending time rest).times span = (time :: rest).take span := by
  have htimes : (ending time rest).links.map (fun l => l.header.time) = time :: rest := by
    induction rest generalizing time with
    | nil => rfl
    | cons earlier rest ih => exact congrArg (time :: ·) (ih earlier)
  rw [Branch.times, List.map_take, htimes]

theorem graded_ending (time : UInt32) (rest : List UInt32) : (ending time rest).Graded := by
  induction rest generalizing time with
  | nil => exact .lowest
  | cons earlier rest ih =>
      cases rest with
      | nil => exact .above rfl (ih earlier)
      | cons _ _ => exact .above rfl (ih earlier)

theorem passesTimes_ending (hspan : 0 < p.medianTimeSpan.toNat) {time : UInt32}
    {rest : List UInt32} (h : Branch.InOrder p.medianTimeSpan.toNat (time :: rest)) :
    Deployment.PassesTimes p (ending time rest) := by
  induction rest generalizing time with
  | nil => exact .of_parent?_none rfl
  | cons earlier rest ih =>
      obtain ⟨hfirst, hrest⟩ := h
      refine .of_parent? (parent?_ending time earlier rest) (ih hrest) ?_
      obtain ⟨m, hm⟩ := (ending earlier rest).exists_medianTime hspan
      refine Branch.exists_passing (parent?_ending time earlier rest) hm ?_
      rw [Branch.medianTime_eq_ok, times_ending] at hm
      exact (Branch.median_lt_iff hm).mpr (hfirst.resolve_left (List.cons_ne_nil _ _))

/-! ## A branch that shuts a lock -/

/-- The times of headers, the last one first, that rise slowly but for two crests. A third header
on the second crest is still to come. -/
def crests : List UInt32 :=
  [1000, 1000, 8, 7, 6, 5, 4, 1000, 1000, 1000, 3, 2, 1, 0]

/-- After the crest comes a header that is as early as those before it. -/
def trough : Branch :=
  ending 9 (1000 :: crests)

/-- One header more. -/
def beyond : Branch :=
  ending 9000 (9 :: 1000 :: crests)

theorem suffix_beyond : trough.links <:+ beyond.links :=
  Branch.parent_suffix (parent?_ending 9000 9 (1000 :: crests))

/-- All headers of it pass, whatever the span is that does not fit. -/
theorem inOrder_beyond (hpos : span ≠ 0) (hspan : ¬Branch.GoesInto span) :
    Branch.InOrder span (9000 :: 9 :: 1000 :: crests) := by
  have hshort : ∀ n < 17, n = 0 ∨ Branch.GoesInto n ∨
      Branch.InOrder n (9000 :: 9 :: 1000 :: crests) := by
    decide
  rcases Nat.lt_or_ge span 17 with hlt | hge
  · exact ((hshort span hlt).resolve_left hpos).resolve_left hspan
  · have hlongest : Branch.InOrder 16 (9000 :: 9 :: 1000 :: crests) :=
      ((hshort 16 (by decide)).resolve_left (by decide)).resolve_left (by decide)
    exact hlongest.of_length_le (by decide) (by omega)

theorem lockMedian_crest : (ending 1000 crests).lockMedian = 1000 :=
  Branch.lockMedian_eq_of_countP (by decide) (by decide)

/-- The header in the trough sets the median of eleven back. -/
theorem lockMedian_trough : (ending 9 (1000 :: crests)).lockMedian = 9 :=
  Branch.lockMedian_eq_of_countP (by decide) (by decide)

theorem meets_ending_iff {time earlier : UInt32} {rest : List UInt32}
    (hlowest : (ending time (earlier :: rest)).ancestor? 0 = some (ending 0 [])) :
    (waiting 2).meetsSequenceLocks ⟨true, true⟩ [1, 1] (ending time (earlier :: rest)) = true ↔
      2 < (ending time (earlier :: rest)).height ∧
        511 < (ending earlier rest).lockMedian.toNat := by
  have hzero : (ending 0 []).lockMedian = 0 :=
    Branch.lockMedian_eq_of_countP (by decide) (by decide)
  rw [Tx.meetsSequenceLocks, ofTx_waiting hlowest,
    SequenceLock.opens_iff (parent?_ending time earlier rest), hzero]
  change (1 : Int) + 1 < _ ∧ (0 : Int) + 511 < _ ↔ _
  omega

theorem meets_trough : (waiting 2).meetsSequenceLocks ⟨true, true⟩ [1, 1] trough = true := by
  refine (meets_ending_iff (by decide)).mpr ⟨by decide, ?_⟩
  rw [lockMedian_crest]
  decide

theorem not_meets_beyond :
    ¬(waiting 2).meetsSequenceLocks ⟨true, true⟩ [1, 1] beyond = true := by
  intro hmeets
  obtain ⟨-, htime⟩ := (meets_ending_iff (by decide)).mp hmeets
  rw [lockMedian_trough] at htime
  exact absurd htime (by decide)

end Sample

/-! ## Spans that fit -/

/-- On every branch whose headers pass the rule about times, relative locks that are met in a block
are met in every block above it. -/
def Params.KeepsLocks (p : Params) : Prop :=
  ∀ b : Branch, b.Graded → Deployment.PassesTimes p b →
    ∀ a a' : Branch, a.links <:+ a'.links → a'.links <:+ b.links →
      ∀ (tx : Tx) (rules : LockTimeRules) (heights : List UInt32),
        (∀ h ∈ heights, h.toNat ≤ a.height) →
          tx.meetsSequenceLocks rules heights a = true →
            tx.meetsSequenceLocks rules heights a' = true

/-- With a span of no headers none passes that has another one before it. -/
theorem Deployment.PassesTimes.parent?_eq_none (h : Deployment.PassesTimes p b)
    (hspan : p.medianTimeSpan = 0) : b.parent? = none := by
  cases hp : b.parent? with
  | none => rfl
  | some parent =>
      obtain ⟨c, rfl, hprevious, -, hcheck⟩ := h b parent (List.suffix_refl _) hp
      obtain ⟨m, hm, -⟩ := Branch.medianTime_lt_of_time hcheck hprevious
      have hpos := Branch.pos_of_medianTime hm
      rw [hspan] at hpos
      exact absurd hpos (Nat.lt_irrefl 0)

theorem keepsLocks_of_goesInto (hspan : Branch.GoesInto p.medianTimeSpan.toNat) :
    p.KeepsLocks := by
  intro b hg h a a' ha ha' tx rules heights hheights hmeets
  have hrise : b.MediansRise Branch.medianSpan := h.timely.lockMediansRise hspan
  exact Tx.meetsSequenceLocks_of_suffix (hg.of_suffix ha').1 (Branch.EachStep.of_suffix hrise ha')
    ha hheights hmeets

/-- Relative locks that are met stay met exactly if the span of the rule about times goes evenly
into ten, eleven or twelve, or is nothing. -/
theorem keepsLocks_iff (p : Params) :
    p.KeepsLocks ↔ p.medianTimeSpan = 0 ∨ Branch.GoesInto p.medianTimeSpan.toNat := by
  constructor
  · intro h
    by_contra hnone
    obtain ⟨hne, hspan⟩ := not_or.mp hnone
    have hpos : p.medianTimeSpan.toNat ≠ 0 := fun h0 => hne (UInt64.toNat_inj.mp h0)
    have hpasses : Deployment.PassesTimes p Sample.beyond :=
      Sample.passesTimes_ending (Nat.pos_of_ne_zero hpos) (Sample.inOrder_beyond hpos hspan)
    have hkept := h Sample.beyond (Sample.graded_ending _ _) hpasses Sample.trough Sample.beyond
      Sample.suffix_beyond (List.suffix_refl _) _ _ _ (Sample.twice_le (by decide))
      Sample.meets_trough
    exact Sample.not_meets_beyond hkept
  · rintro (hspan | hspan)
    · intro b _ h a a' ha ha' tx rules heights _ hmeets
      have hlowest : b.parent? = none := h.parent?_eq_none hspan
      cases Branch.eq_of_suffix_of_parent?_none hlowest ha'
      cases Branch.eq_of_suffix_of_parent?_none hlowest ha
      exact hmeets
    · exact keepsLocks_of_goesInto hspan

/-- With the span of eleven they stay met, here in the next block. -/
theorem keepsLocks_iff_main :
    (Sample.waiting 2).meetsSequenceLocks ⟨true, true⟩ [1, 1]
        (Sample.ending 3000 [2000, 1000, 0]) = true ∧
      (Sample.waiting 2).meetsSequenceLocks ⟨true, true⟩ [1, 1]
        (Sample.ending 4000 [3000, 2000, 1000, 0]) = true := by
  have hmedian : (Sample.ending 2000 [1000, 0]).lockMedian = 1000 :=
    Branch.lockMedian_eq_of_countP (by decide) (by decide)
  have hmeets : (Sample.waiting 2).meetsSequenceLocks ⟨true, true⟩ [1, 1]
      (Sample.ending 3000 [2000, 1000, 0]) = true := by
    refine (Sample.meets_ending_iff (by decide)).mpr ⟨by decide, ?_⟩
    rw [hmedian]
    decide
  have hpasses : Deployment.PassesTimes .main (Sample.ending 4000 [3000, 2000, 1000, 0]) :=
    Sample.passesTimes_ending (by decide) (by decide)
  have hkeeps : Params.main.KeepsLocks := (keepsLocks_iff .main).mpr (.inr (by decide))
  exact ⟨hmeets, hkeeps _ (Sample.graded_ending _ _) hpasses _ _
    (Branch.parent_suffix (Sample.parent?_ending 4000 3000 _)) (List.suffix_refl _) _ _ _
    (Sample.twice_le (by decide)) hmeets⟩

namespace Sample

/-- A network on which headers are held to the median of seven. -/
def sevens : Params :=
  { Params.regtest with medianTimeSpan := 7 }

end Sample

/-- There the coins are two blocks and 512 seconds old in one block, and not so in the next. -/
theorem locks_shut_beyond :
    Sample.beyond.Graded ∧ Deployment.PassesTimes Sample.sevens Sample.beyond ∧
      Sample.trough.links <:+ Sample.beyond.links ∧
      (∀ h ∈ ([1, 1] : List UInt32), h.toNat ≤ Sample.trough.height) ∧
      (Sample.waiting 2).meetsSequenceLocks ⟨true, true⟩ [1, 1] Sample.trough = true ∧
      ¬(Sample.waiting 2).meetsSequenceLocks ⟨true, true⟩ [1, 1] Sample.beyond = true := by
  refine ⟨Sample.graded_ending _ _, ?_, Sample.suffix_beyond, Sample.twice_le (by decide),
    Sample.meets_trough, Sample.not_meets_beyond⟩
  exact Sample.passesTimes_ending (by decide) (Sample.inOrder_beyond (by decide) (by decide))

end StakeChain
