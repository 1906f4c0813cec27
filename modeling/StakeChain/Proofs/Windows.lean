/-
The states of a deployment along the windows of a branch.

The state in a window follows from the state in the window before, the median
time at its end and the votes in it, so the states of a branch are a
recursion over its windows. The answers are not found by that recursion but
by one that looks at no window that ends before the start: as medians do not
fall, nothing was started in it or in one below. It can have failed, though,
if its time ran out before the start. That is the one case where stopping
early makes a difference.
-/
import Mathlib.Algebra.Order.Ring.Nat
import StakeChain.Deployment
import StakeChain.Proofs.MedianTime

namespace StakeChain

namespace Deployment

variable {p : Params} {index k : Nat} {d : DeploymentParams} {a b window : Branch} {m : UInt32}

/-! ## The recursion over the windows -/

/-- Whether each of some headers votes. -/
def ballots (bit : UInt8) (headers : List Link) : Except Fault (List Bool) :=
  headers.mapM fun l => signals l.header.version bit

/-- The number of headers that vote. -/
def voters (bit : UInt8) (headers : List Link) : Except Fault Nat :=
  List.count true <$> ballots bit headers

/-- The state in a window, from the state in the one before. That one is the end of a branch, and
its median time is given. -/
def following (p : Params) (d : DeploymentParams) (window : Branch) (median : Nat) :
    ThresholdState → Except Fault ThresholdState
  | .defined =>
      if d.timeout.toInt ≤ median then .ok .failed
      else if d.startTime.toInt ≤ median then .ok .started
      else .ok .defined
  | .started =>
      if d.timeout.toInt ≤ median then .ok .failed
      else do
        let count ← voters d.bit (window.links.take p.minerConfirmationWindow.toNat)
        if p.ruleChangeActivationThreshold.toNat ≤ count then pure .lockedIn else pure .started
  | .lockedIn => .ok .active
  | .active => .ok .active
  | .failed => .ok .failed

/-- The branch up to the end of its window of some number, the first of which is one. -/
def window? (p : Params) (b : Branch) : Nat → Option Branch
  | 0 => none
  | k + 1 => b.ancestor? ((k + 1) * p.minerConfirmationWindow.toNat - 1)

/-- The state after so many windows. -/
def stateAfter (p : Params) (d : DeploymentParams) (b : Branch) : Nat → Except Fault ThresholdState
  | 0 => .ok .defined
  | k + 1 =>
      match window? p b (k + 1) with
      | none => .ok .defined
      | some window => do
          let median ← window.medianTime p.medianTimeSpan.toNat
          let s ← stateAfter p d b k
          following p d window median.toNat s

/-- The state for the block after a branch, where the states after windows are given. -/
def stateBy (after : DeploymentParams → Branch → Nat → Except Fault ThresholdState) (p : Params)
    (index : Nat) (previous : Option Branch) : Except Fault ThresholdState :=
  match p.deployment? index with
  | none => .ok .defined
  | some d =>
      if d.startTime = DeploymentParams.alwaysActiveTime then .ok .active
      else
        match previous with
        | none => .ok .defined
        | some b => do
            let height ← fitWord 32 (b.height + 1)
            after d b (height / p.minerConfirmationWindow.toNat)

/-- The state for the block after a branch by the recursion alone: nothing is kept, and every
window is looked at. -/
def expected (p : Params) (index : Nat) (previous : Option Branch) : Except Fault ThresholdState :=
  stateBy (stateAfter p) p index previous

/-- The time has run out at the end of a window, and it is before the start. -/
def OverdueAfter (p : Params) (d : DeploymentParams) (b : Branch) (k : Nat) : Prop :=
  ∃ window m, window? p b k = some window ∧ window.medianTime p.medianTimeSpan.toNat = .ok m ∧
    d.timeout.toInt ≤ m.toNat ∧ (m.toNat : Int) < d.startTime.toInt

/-- The question is about the windows of a branch: the deployment is voted on, and there is a
block before. -/
structure Voted (p : Params) (index : Nat) (previous : Option Branch) (d : DeploymentParams)
    (b : Branch) : Prop where
  deployment : p.deployment? index = some d
  voted : d.startTime ≠ DeploymentParams.alwaysActiveTime
  before : previous = some b
  fits : b.height + 1 < 2 ^ 32

/-- The time of a deployment has run out before its start, at the end of the last window of a
branch. -/
def Overdue (p : Params) (index : Nat) (previous : Option Branch) : Prop :=
  ∃ d b, Voted p index previous d b ∧
    OverdueAfter p d b ((b.height + 1) / p.minerConfirmationWindow.toNat)

/-! ## One window to the next -/

theorem ballots_cons {bit : UInt8} {l : Link} {rest : List Link} :
    ballots bit (l :: rest) =
      signals l.header.version bit >>= fun vote => List.cons vote <$> ballots bit rest := by
  rw [ballots, List.mapM_cons]
  rfl

theorem countVotes_eq {bit : UInt8} {count : Nat} {headers : List Link} :
    countVotes bit count headers = (count + ·) <$> voters bit headers := by
  induction headers generalizing count with
  | nil => rfl
  | cons l rest ih =>
      rw [countVotes, voters, ballots_cons]
      cases signals l.header.version bit with
      | error e => rfl
      | ok vote =>
          change countVotes bit (count + vote.toNat) rest =
            (count + ·) <$> List.count true <$> (List.cons vote <$> ballots bit rest)
          rw [ih, voters]
          cases ballots bit rest with
          | error e => rfl
          | ok votes =>
              change Except.ok (count + vote.toNat + votes.count true) =
                Except.ok (count + (vote :: votes).count true)
              rw [List.count_cons, Nat.add_assoc, Nat.add_comm vote.toNat]
              cases vote with
              | false => rfl
              | true => rfl

theorem votes_eq {period : Nat} {bit : UInt8} :
    votes b period bit = voters bit (b.links.take period) := by
  rw [votes, countVotes_eq]
  cases voters bit (b.links.take period) with
  | error e => rfl
  | ok count => exact congrArg Except.ok (Nat.zero_add count)

theorem next_eq_following : next p d window = following p d window := by
  funext median s
  cases s with
  | started => rw [next, following, votes_eq]
  | defined => rfl
  | lockedIn => rfl
  | active => rfl
  | failed => rfl

/-! ## Windows of a branch -/

theorem exists_succ_of_window? (h : window? p b k = some window) : ∃ j, k = j + 1 := by
  cases k with
  | zero => cases h
  | succ j => exact ⟨j, rfl⟩

theorem height_of_window? (hg : b.Graded) (hperiod : 0 < p.minerConfirmationWindow.toNat)
    (h : window? p b k = some window) :
    window.height + 1 = k * p.minerConfirmationWindow.toNat ∧ window.links <:+ b.links := by
  cases k with
  | zero => cases h
  | succ j =>
      obtain ⟨hheight, hsuffix⟩ := hg.of_ancestor? h
      have hpos : 0 < (j + 1) * p.minerConfirmationWindow.toNat := Nat.mul_pos j.succ_pos hperiod
      exact ⟨by omega, hsuffix⟩

/-- From every branch through them the windows are the same. -/
theorem window?_of_suffix (hg : b.Graded) (ha : a.links <:+ b.links)
    (hk : k * p.minerConfirmationWindow.toNat ≤ a.height + 1) :
    window? p b k = window? p a k := by
  cases k with
  | zero => rfl
  | succ j => exact hg.ancestor?_of_suffix ha (by omega)

/-- A branch that ends with a window ends with its own last window. -/
theorem window?_self
    (hk : a.height + 1 = k * p.minerConfirmationWindow.toNat) : window? p a k = some a := by
  cases k with
  | zero => omega
  | succ j =>
      rw [window?, ← hk, Nat.add_sub_cancel]
      exact Branch.ancestor?_self

/-- The last window of a branch has as its number how many windows fit in. -/
theorem lastWindow?_eq (hperiod : 0 < p.minerConfirmationWindow.toNat) :
    lastWindow? p b = fitWord 32 (b.height + 1) >>= fun height =>
      pure (window? p b (height / p.minerConfirmationWindow.toNat)) := by
  have hleft : remainder (b.height + 1) p.minerConfirmationWindow.toNat =
      .ok ((b.height + 1) % p.minerConfirmationWindow.toNat) := if_neg (by omega)
  rw [lastWindow?, fitWord]
  by_cases hfits : b.height + 1 < Nat.pow 2 32
  · rw [if_pos hfits]
    change (remainder (b.height + 1) p.minerConfirmationWindow.toNat >>= fun left =>
      Except.ok (if left ≤ b.height then b.ancestor? (b.height - left) else none)) =
        Except.ok (window? p b ((b.height + 1) / p.minerConfirmationWindow.toNat))
    rw [hleft]
    refine congrArg Except.ok ?_
    have hdiv := Nat.div_add_mod (b.height + 1) p.minerConfirmationWindow.toNat
    have hmod := Nat.mod_lt (b.height + 1) hperiod
    cases hk : (b.height + 1) / p.minerConfirmationWindow.toNat with
    | zero =>
        rw [hk] at hdiv
        exact if_neg (by omega)
    | succ j =>
        rw [hk, Nat.mul_comm, Nat.succ_mul] at hdiv
        rw [if_pos (by omega), window?, Nat.succ_mul]
        exact congrArg b.ancestor? (by omega)
  · rw [if_neg hfits]
    rfl

/-- The window before the one that a branch ends with. -/
theorem windowBefore?_eq (hperiod : 0 < p.minerConfirmationWindow.toNat)
    (hk : a.height + 1 = (k + 1) * p.minerConfirmationWindow.toNat) :
    windowBefore? p a = window? p a k := by
  rw [Nat.succ_mul] at hk
  cases k with
  | zero => exact if_neg (by omega)
  | succ j =>
      have hpos : 0 < (j + 1) * p.minerConfirmationWindow.toNat := Nat.mul_pos j.succ_pos hperiod
      rw [windowBefore?, if_pos (by omega), window?]
      exact congrArg a.ancestor? (by omega)

/-! ## The recursion that stops before the start -/

/-- The state after so many windows, where no window is looked at that ends before the start. -/
def shortAfter (p : Params) (d : DeploymentParams) (b : Branch) : Nat → Except Fault ThresholdState
  | 0 => .ok .defined
  | k + 1 =>
      match window? p b (k + 1) with
      | none => .ok .defined
      | some window => do
          let median ← window.medianTime p.medianTimeSpan.toNat
          if median.toNat < d.startTime.toInt then .ok .defined
          else shortAfter p d b k >>= next p d window median.toNat

theorem shortAfter_of_none (h : window? p b k = none) : shortAfter p d b k = .ok .defined := by
  cases k with
  | zero => rfl
  | succ j => rw [shortAfter, h]

theorem shortAfter_of_some (h : window? p b (k + 1) = some window) :
    shortAfter p d b (k + 1) =
      window.medianTime p.medianTimeSpan.toNat >>= fun median =>
        if median.toNat < d.startTime.toInt then .ok .defined
        else shortAfter p d b k >>= next p d window median.toNat := by
  rw [shortAfter, h]

theorem shortAfter_of_fault {e : Fault} (h : window? p b (k + 1) = some window)
    (hm : window.medianTime p.medianTimeSpan.toNat = .error e) :
    shortAfter p d b (k + 1) = .error e := by
  rw [shortAfter_of_some h, hm]
  rfl

theorem shortAfter_of_early (h : window? p b (k + 1) = some window)
    (hm : window.medianTime p.medianTimeSpan.toNat = .ok m)
    (hearly : (m.toNat : Int) < d.startTime.toInt) :
    shortAfter p d b (k + 1) = .ok .defined := by
  rw [shortAfter_of_some h, hm]
  exact if_pos hearly

theorem shortAfter_of_late (h : window? p b (k + 1) = some window)
    (hm : window.medianTime p.medianTimeSpan.toNat = .ok m)
    (hlate : ¬(m.toNat : Int) < d.startTime.toInt) :
    shortAfter p d b (k + 1) = shortAfter p d b k >>= next p d window m.toNat := by
  rw [shortAfter_of_some h, hm]
  exact if_neg hlate

/-- The states are those of every branch through the windows. -/
theorem shortAfter_of_suffix (hg : b.Graded) (ha : a.links <:+ b.links)
    (hk : k * p.minerConfirmationWindow.toNat ≤ a.height + 1) :
    shortAfter p d b k = shortAfter p d a k := by
  induction k with
  | zero => rfl
  | succ j ih =>
      have hj : j * p.minerConfirmationWindow.toNat ≤ a.height + 1 := by
        rw [Nat.succ_mul] at hk
        omega
      rw [shortAfter, shortAfter, window?_of_suffix hg ha hk, ih hj]

theorem stateAfter_of_none (h : window? p b k = none) : stateAfter p d b k = .ok .defined := by
  cases k with
  | zero => rfl
  | succ j => rw [stateAfter, h]

theorem stateAfter_of_some (h : window? p b (k + 1) = some window) :
    stateAfter p d b (k + 1) =
      window.medianTime p.medianTimeSpan.toNat >>= fun median =>
        stateAfter p d b k >>= next p d window median.toNat := by
  rw [stateAfter, h, next_eq_following]

/-! ## Where it makes no difference to stop early -/

theorem links_of_window? (hg : b.Graded) (hperiod : 0 < p.minerConfirmationWindow.toNat)
    {j : Nat} (hjk : j ≤ k) {early : Branch} (hj : window? p b j = some early)
    (hk : window? p b k = some window) : early.links <:+ window.links := by
  obtain ⟨hheight, hsuffix⟩ := height_of_window? hg hperiod hk
  have hle : j * p.minerConfirmationWindow.toNat ≤ window.height + 1 := by
    rw [hheight]
    exact Nat.mul_le_mul_right _ hjk
  rw [window?_of_suffix hg hsuffix hle] at hj
  exact (height_of_window? (hg.of_suffix hsuffix).1 hperiod hj).2

/-- Medians do not fall from one window to a later one. -/
theorem median_le_of_window? (hg : b.Graded) (hperiod : 0 < p.minerConfirmationWindow.toNat)
    (hrise : b.MediansRise p.medianTimeSpan.toNat) {j : Nat} (hjk : j ≤ k) {early : Branch}
    {m' : UInt32} (hj : window? p b j = some early) (hk : window? p b k = some window)
    (hm' : early.medianTime p.medianTimeSpan.toNat = .ok m')
    (hm : window.medianTime p.medianTimeSpan.toNat = .ok m) : m'.toNat ≤ m.toNat :=
  UInt32.le_iff_toNat_le.mp <|
    Branch.MediansRise.le_of_suffix
      (Branch.EachStep.of_suffix hrise (height_of_window? hg hperiod hk).2)
      (links_of_window? hg hperiod hjk hj hk) hm' hm

/-- Up to a window that ends before the start nothing happens, but that the time runs out. -/
theorem stateAfter_of_early (hg : b.Graded) (hperiod : 0 < p.minerConfirmationWindow.toNat)
    (hrise : b.MediansRise p.medianTimeSpan.toNat) (hw : window? p b k = some window)
    (hm : window.medianTime p.medianTimeSpan.toNat = .ok m)
    (hearly : (m.toNat : Int) < d.startTime.toInt) :
    stateAfter p d b k = .ok (if d.timeout.toInt ≤ m.toNat then .failed else .defined) := by
  induction k generalizing window m with
  | zero => cases hw
  | succ j ih =>
      have hbefore : stateAfter p d b j = .ok .defined ∨
          stateAfter p d b j = .ok .failed ∧ d.timeout.toInt ≤ m.toNat := by
        cases hj : window? p b j with
        | none => exact .inl (stateAfter_of_none hj)
        | some early =>
            obtain ⟨m', hm'⟩ := early.exists_medianTime (Branch.pos_of_medianTime hm)
            have hle := median_le_of_window? hg hperiod hrise j.le_succ hj hw hm' hm
            have hstate := ih hj hm' (by omega)
            by_cases hover : d.timeout.toInt ≤ m'.toNat
            · rw [if_pos hover] at hstate
              exact .inr ⟨hstate, by omega⟩
            · rw [if_neg hover] at hstate
              exact .inl hstate
      rw [stateAfter_of_some hw, hm]
      change stateAfter p d b j >>= next p d window m.toNat = _
      rcases hbefore with hs | ⟨hs, hover⟩
      · rw [hs]
        change next p d window m.toNat .defined = _
        rw [next, if_neg (show ¬d.startTime.toInt ≤ m.toNat by omega)]
        split
        · rfl
        · rfl
      · rw [hs, if_pos hover]
        rfl

/-- Stopping early changes the state exactly where the time has run out before the start. -/
theorem shortAfter_cases (hg : b.Graded) (hperiod : 0 < p.minerConfirmationWindow.toNat)
    (hrise : b.MediansRise p.medianTimeSpan.toNat) :
    OverdueAfter p d b k ∧ shortAfter p d b k = .ok .defined ∧ stateAfter p d b k = .ok .failed ∨
      ¬OverdueAfter p d b k ∧ shortAfter p d b k = stateAfter p d b k := by
  induction k with
  | zero =>
      refine .inr ⟨?_, rfl⟩
      rintro ⟨_, _, hw, _⟩
      cases hw
  | succ j ih =>
      cases hw : window? p b (j + 1) with
      | none =>
          refine .inr ⟨?_, (shortAfter_of_none hw).trans (stateAfter_of_none hw).symm⟩
          rintro ⟨_, _, hw', _⟩
          cases hw.symm.trans hw'
      | some window =>
          cases hm : window.medianTime p.medianTimeSpan.toNat with
          | error e =>
              refine .inr ⟨?_, ?_⟩
              · rintro ⟨_, _, hw', hm', _⟩
                cases hw.symm.trans hw'
                cases hm.symm.trans hm'
              · rw [shortAfter_of_fault hw hm, stateAfter_of_some hw, hm]
                rfl
          | ok m =>
              have hover : OverdueAfter p d b (j + 1) ↔
                  d.timeout.toInt ≤ m.toNat ∧ (m.toNat : Int) < d.startTime.toInt := by
                constructor
                · rintro ⟨_, _, hw', hm', h⟩
                  cases hw.symm.trans hw'
                  cases hm.symm.trans hm'
                  exact h
                · exact fun h => ⟨window, m, hw, hm, h⟩
              rw [hover]
              by_cases hearly : (m.toNat : Int) < d.startTime.toInt
              · rw [shortAfter_of_early hw hm hearly,
                  stateAfter_of_early hg hperiod hrise hw hm hearly]
                by_cases htime : d.timeout.toInt ≤ m.toNat
                · exact .inl ⟨⟨htime, hearly⟩, rfl, congrArg _ (if_pos htime)⟩
                · exact .inr ⟨fun h => htime h.1, (congrArg _ (if_neg htime)).symm⟩
              · refine .inr ⟨fun h => hearly h.2, ?_⟩
                rw [shortAfter_of_late hw hm hearly, stateAfter_of_some hw, hm]
                change _ = stateAfter p d b j >>= next p d window m.toNat
                rcases ih with ⟨⟨early, m', hj, hm', htime, _⟩, hshort, hstate⟩ | ⟨_, heq⟩
                · -- what is late now was overdue before, so it fails here at the latest
                  have hle := median_le_of_window? hg hperiod hrise j.le_succ hj hw hm' hm
                  rw [hshort, hstate]
                  exact if_pos (by omega)
                · rw [heq]

theorem stateBy_of_voted {previous : Option Branch}
    {after : DeploymentParams → Branch → Nat → Except Fault ThresholdState}
    (h : Voted p index previous d b) :
    stateBy after p index previous =
      after d b ((b.height + 1) / p.minerConfirmationWindow.toNat) := by
  have hfits : fitWord 32 (b.height + 1) = .ok (b.height + 1) := if_pos h.fits
  rw [stateBy, h.deployment]
  simp only [if_neg h.voted, h.before, hfits]
  rfl

/-- Where the question is not about windows, it is the same which states they have. -/
theorem stateBy_of_not_voted {previous : Option Branch}
    {after after' : DeploymentParams → Branch → Nat → Except Fault ThresholdState}
    (h : ∀ d b, ¬Voted p index previous d b) :
    stateBy after p index previous = stateBy after' p index previous := by
  rw [stateBy, stateBy]
  cases hd : p.deployment? index with
  | none => rfl
  | some d =>
      by_cases hvoted : d.startTime = DeploymentParams.alwaysActiveTime
      · simp only [if_pos hvoted]
      · simp only [if_neg hvoted]
        cases hprevious : previous with
        | none => rfl
        | some b =>
            have hfits : ¬b.height + 1 < Nat.pow 2 32 :=
              fun hfits => h d b ⟨hd, hvoted, hprevious, hfits⟩
            have hfault : fitWord 32 (b.height + 1) = .error .overflow := if_neg hfits
            simp only [hfault]
            rfl

/-- The recursion that stops early comes to the state of the other one, exactly unless the time
has run out before the start. -/
theorem stateBy_shortAfter_iff {previous : Option Branch}
    (hperiod : 0 < p.minerConfirmationWindow.toNat)
    (hgraded : ∀ b, previous = some b → b.Graded)
    (hrise : ∀ b, previous = some b → b.MediansRise p.medianTimeSpan.toNat) :
    stateBy (shortAfter p) p index previous = expected p index previous ↔
      ¬Overdue p index previous := by
  rw [expected]
  by_cases hvoted : ∃ d b, Voted p index previous d b
  · obtain ⟨d, b, h⟩ := hvoted
    have hover : Overdue p index previous ↔
        OverdueAfter p d b ((b.height + 1) / p.minerConfirmationWindow.toNat) := by
      constructor
      · rintro ⟨d', b', h', hover⟩
        cases h.deployment.symm.trans h'.deployment
        cases h.before.symm.trans h'.before
        exact hover
      · exact fun hover => ⟨d, b, h, hover⟩
    rw [stateBy_of_voted h, stateBy_of_voted h, hover]
    rcases shortAfter_cases (hgraded b h.before) hperiod (hrise b h.before) with
      ⟨hover, hshort, hstate⟩ | ⟨hover, heq⟩
    · rw [hshort, hstate]
      exact iff_of_false nofun fun h => h hover
    · exact iff_of_true heq hover
  · refine iff_of_true (stateBy_of_not_voted fun d b h => hvoted ⟨d, b, h⟩) ?_
    rintro ⟨d, b, h, _⟩
    exact hvoted ⟨d, b, h⟩

/-! ## States that are there -/

/-- Bits that a version has can be counted. -/
theorem exists_countVotes {bit : UInt8} (hbit : bit.toNat < 32) (count : Nat)
    (headers : List Link) : ∃ n, countVotes bit count headers = .ok n := by
  induction headers generalizing count with
  | nil => exact ⟨count, rfl⟩
  | cons l rest ih =>
      obtain ⟨vote, hvote⟩ : ∃ vote, signals l.header.version bit = .ok vote := by
        rw [signals]
        split
        · exact ⟨_, rfl⟩
        · exact ⟨_, rfl⟩
      rw [countVotes, hvote]
      exact ih _

theorem exists_next (hbit : d.bit.toNat < 32) (median : Nat) (s : ThresholdState) :
    ∃ s', next p d window median s = .ok s' := by
  cases s with
  | defined =>
      rw [next]
      split
      · exact ⟨_, rfl⟩
      · split
        · exact ⟨_, rfl⟩
        · exact ⟨_, rfl⟩
  | started =>
      obtain ⟨count, hcount⟩ := exists_countVotes hbit 0
        (window.links.take p.minerConfirmationWindow.toNat)
      rw [next, votes, hcount]
      split
      · exact ⟨_, rfl⟩
      · change ∃ s', (if p.ruleChangeActivationThreshold.toNat ≤ count then _ else _) = Except.ok s'
        split
        · exact ⟨_, rfl⟩
        · exact ⟨_, rfl⟩
  | lockedIn => exact ⟨_, rfl⟩
  | active => exact ⟨_, rfl⟩
  | failed => exact ⟨_, rfl⟩

theorem exists_shortAfter (hspan : 0 < p.medianTimeSpan.toNat) (hbit : d.bit.toNat < 32)
    (b : Branch) (k : Nat) : ∃ s, shortAfter p d b k = .ok s := by
  induction k with
  | zero => exact ⟨_, rfl⟩
  | succ j ih =>
      obtain ⟨s, hs⟩ := ih
      cases hw : window? p b (j + 1) with
      | none => exact ⟨_, shortAfter_of_none hw⟩
      | some window =>
          obtain ⟨m, hm⟩ := window.exists_medianTime hspan
          by_cases hearly : (m.toNat : Int) < d.startTime.toInt
          · exact ⟨_, shortAfter_of_early hw hm hearly⟩
          · rw [shortAfter_of_late hw hm hearly, hs]
            exact exists_next hbit m.toNat s

theorem exists_stateBy_shortAfter {previous : Option Branch}
    (hspan : 0 < p.medianTimeSpan.toNat)
    (hbit : ∀ d, p.deployment? index = some d → d.bit.toNat < 32)
    (hfits : ∀ b, previous = some b → b.height + 1 < 2 ^ 32) :
    ∃ s, stateBy (shortAfter p) p index previous = .ok s := by
  by_cases hvoted : ∃ d b, Voted p index previous d b
  · obtain ⟨d, b, h⟩ := hvoted
    rw [stateBy_of_voted h]
    exact exists_shortAfter hspan (hbit d h.deployment) b _
  · rw [stateBy]
    cases hd : p.deployment? index with
    | none => exact ⟨_, rfl⟩
    | some d =>
        by_cases halways : d.startTime = DeploymentParams.alwaysActiveTime
        · exact ⟨_, if_pos halways⟩
        · simp only [if_neg halways]
          cases hprevious : previous with
          | none => exact ⟨_, rfl⟩
          | some b => exact absurd ⟨d, b, hd, halways, hprevious, hfits b hprevious⟩ hvoted

end Deployment

end StakeChain
