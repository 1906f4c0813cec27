/-
Activation is final.

The state of a deployment is found anew for every block, from the headers
before it, and a window that ends before the start counts as one in which
nothing happened. That states are not lost again rests on the rule about the
times of headers: it keeps the medians from falling, so once a window ended
after the start every later one does. Then the states are a walk from window
to window, one step of the recursion at a time.
-/
import StakeChain.Proofs.KnownStates

namespace StakeChain

namespace Deployment

variable {p : Params} {index k j : Nat} {d : DeploymentParams} {a a' b window parent : Branch}
  {m : UInt32} {s s' : ThresholdState}

/-! ## Moves from one window to the next -/

/-- How a state may change from one window to the next. No window after the one in which the
deployment was locked in has it locked in. -/
inductive Moves : ThresholdState → ThresholdState → Prop
  | stays {s : ThresholdState} : s ≠ .lockedIn → Moves s s
  | starts : Moves .defined .started
  | runsOut : Moves .defined .failed
  | locksIn : Moves .started .lockedIn
  | fails : Moves .started .failed
  | activates : Moves .lockedIn .active

theorem moves_of_next {median : Nat} (h : next p d window median s = .ok s') : Moves s s' := by
  cases s with
  | defined =>
      rw [next] at h
      split at h
      · cases h
        exact .runsOut
      · split at h
        · cases h
          exact .starts
        · cases h
          exact .stays (by decide)
  | started =>
      rw [next] at h
      split at h
      · cases h
        exact .fails
      · obtain ⟨count, -, h⟩ := Verdict.bind_eq_ok.mp h
        split at h
        · cases h
          exact .locksIn
        · cases h
          exact .stays (by decide)
  | lockedIn =>
      cases h
      exact .activates
  | active =>
      cases h
      exact .stays (by decide)
  | failed =>
      cases h
      exact .stays (by decide)

/-! ## The states after the windows of a branch -/

/-- Where a window is not known the ones before it are not known either. -/
theorem window?_eq_none_of_le (hg : b.Graded)
    (hk : k * p.minerConfirmationWindow.toNat ≤ b.height + 1) (hjk : j ≤ k)
    (hnone : window? p b k = none) : window? p b j = none := by
  cases j with
  | zero => rfl
  | succ i =>
      obtain ⟨n, rfl⟩ : ∃ n, k = n + 1 := Nat.exists_eq_succ_of_ne_zero (by omega)
      have hle := Nat.mul_le_mul_right p.minerConfirmationWindow.toNat hjk
      exact hg.ancestor?_eq_none_of_le hnone (by omega) (by omega)

/-- A state that came from votes is followed by the next one. -/
theorem shortAfter_succ_of_ne (hg : b.Graded) (hperiod : 0 < p.minerConfirmationWindow.toNat)
    (hrise : b.MediansRise p.medianTimeSpan.toNat)
    (hk : (k + 1) * p.minerConfirmationWindow.toNat ≤ b.height + 1)
    (hs : shortAfter p d b k = .ok s) (hne : s ≠ .defined) :
    ∃ window m, shortAfter p d b (k + 1) = next p d window m s := by
  cases hearly : window? p b k with
  | none =>
      cases (shortAfter_of_none hearly).symm.trans hs
      exact absurd rfl hne
  | some early =>
      cases hw : window? p b (k + 1) with
      | none => cases (window?_eq_none_of_le hg hk k.le_succ hw).symm.trans hearly
      | some window =>
          obtain ⟨i, rfl⟩ := exists_succ_of_window? hearly
          cases hm' : early.medianTime p.medianTimeSpan.toNat with
          | error e => cases (shortAfter_of_fault hearly hm').symm.trans hs
          | ok m' =>
              obtain ⟨m, hm⟩ := window.exists_medianTime (Branch.pos_of_medianTime hm')
              have hle := median_le_of_window? hg hperiod hrise (Nat.le_succ _) hearly hw hm' hm
              by_cases hstart : (m'.toNat : Int) < d.startTime.toInt
              · cases (shortAfter_of_early hearly hm' hstart).symm.trans hs
                exact absurd rfl hne
              · refine ⟨window, m.toNat, ?_⟩
                rw [shortAfter_of_late hw hm (by omega), hs]
                rfl

/-- Up to a window that ends before the start the deployment is defined. -/
theorem shortAfter_of_early_succ (hg : b.Graded) (hperiod : 0 < p.minerConfirmationWindow.toNat)
    (hrise : b.MediansRise p.medianTimeSpan.toNat) (hw : window? p b (k + 1) = some window)
    (hm : window.medianTime p.medianTimeSpan.toNat = .ok m)
    (hearly : (m.toNat : Int) < d.startTime.toInt) : shortAfter p d b k = .ok .defined := by
  cases hbefore : window? p b k with
  | none => exact shortAfter_of_none hbefore
  | some early =>
      obtain ⟨i, rfl⟩ := exists_succ_of_window? hbefore
      obtain ⟨m', hm'⟩ := early.exists_medianTime (Branch.pos_of_medianTime hm)
      have hle := median_le_of_window? hg hperiod hrise (Nat.le_succ _) hbefore hw hm' hm
      exact shortAfter_of_early hbefore hm' (by omega)

/-- The state after one window more is one move away. -/
theorem exists_moves (hg : b.Graded) (hperiod : 0 < p.minerConfirmationWindow.toNat)
    (hrise : b.MediansRise p.medianTimeSpan.toNat)
    (hk : (k + 1) * p.minerConfirmationWindow.toNat ≤ b.height + 1)
    (hs' : shortAfter p d b (k + 1) = .ok s') :
    ∃ s, shortAfter p d b k = .ok s ∧ Moves s s' := by
  cases hw : window? p b (k + 1) with
  | none =>
      cases (shortAfter_of_none hw).symm.trans hs'
      exact ⟨.defined, shortAfter_of_none (window?_eq_none_of_le hg hk k.le_succ hw), .stays (by decide)⟩
  | some window =>
      cases hm : window.medianTime p.medianTimeSpan.toNat with
      | error e => cases (shortAfter_of_fault hw hm).symm.trans hs'
      | ok m =>
          by_cases hearly : (m.toNat : Int) < d.startTime.toInt
          · cases (shortAfter_of_early hw hm hearly).symm.trans hs'
            exact ⟨.defined, shortAfter_of_early_succ hg hperiod hrise hw hm hearly, .stays (by decide)⟩
          · rw [shortAfter_of_late hw hm hearly] at hs'
            obtain ⟨s, hs, hnext⟩ := Verdict.bind_eq_ok.mp hs'
            exact ⟨s, hs, moves_of_next hnext⟩

/-- A state that every step keeps stays from its window on. -/
theorem shortAfter_of_le (hg : b.Graded) (hperiod : 0 < p.minerConfirmationWindow.toNat)
    (hrise : b.MediansRise p.medianTimeSpan.toNat) (hne : s ≠ .defined)
    (hkept : ∀ window m, next p d window m s = .ok s) (hjk : j ≤ k)
    (hk : k * p.minerConfirmationWindow.toNat ≤ b.height + 1)
    (hs : shortAfter p d b j = .ok s) : shortAfter p d b k = .ok s := by
  induction hjk with
  | refl => exact hs
  | @step n hjn ih =>
      have hn : n * p.minerConfirmationWindow.toNat ≤ b.height + 1 :=
        Nat.le_trans (Nat.mul_le_mul_right _ n.le_succ) hk
      obtain ⟨window, m, hnext⟩ := shortAfter_succ_of_ne hg hperiod hrise hk (ih hn) hne
      exact hnext.trans (hkept window m)

/-! ## The states of the blocks of a branch -/

/-- The state for the last block of a branch, on fresh known states. -/
def stateOf (p : Params) (index : Nat) (a : Branch) : Except Fault ThresholdState :=
  (state p index a.parent?).run' []

/-- Where a deployment is not voted on it has the same state for all blocks. -/
theorem exists_stateOf_of_not_voted
    (h : ∀ d, p.deployment? index = some d → d.startTime = DeploymentParams.alwaysActiveTime) :
    ∃ s, s ≠ .lockedIn ∧ ∀ a, stateOf p index a = .ok s := by
  cases hd : p.deployment? index with
  | none =>
      refine ⟨.defined, by decide, ?_⟩
      intro a
      rw [stateOf, state, hd]
      rfl
  | some d =>
      refine ⟨.active, by decide, ?_⟩
      intro a
      rw [stateOf, state, hd]
      simp only [if_pos (h d hd)]
      rfl

/-- The state for a block is that after the windows that are complete before it. -/
theorem stateOf_eq (hperiod : 0 < p.minerConfirmationWindow.toNat)
    (hd : p.deployment? index = some d) (hvoted : d.startTime ≠ DeploymentParams.alwaysActiveTime)
    (hg : b.Graded) (hfits : b.height < 2 ^ 32) (ha : a.links <:+ b.links) :
    stateOf p index a = shortAfter p d b (a.height / p.minerConfirmationWindow.toNat) := by
  obtain ⟨hag, hle⟩ := hg.of_suffix ha
  have hk : a.height / p.minerConfirmationWindow.toNat * p.minerConfirmationWindow.toNat ≤
      a.height := Nat.div_mul_le_self _ _
  rw [shortAfter_of_suffix hg ha (by omega), stateOf]
  cases hp : a.parent? with
  | none =>
      have hnone : window? p a (a.height / p.minerConfirmationWindow.toNat) = none := by
        cases hn : a.height / p.minerConfirmationWindow.toNat with
        | zero => rfl
        | succ i =>
            rw [hn] at hk
            have hpos : 0 < (i + 1) * p.minerConfirmationWindow.toNat :=
              Nat.mul_pos i.succ_pos hperiod
            exact Branch.ancestor?_of_parent?_none hp (by omega)
      rw [state_fresh hperiod (fun _ h => by cases h), stateBy, hd, shortAfter_of_none hnone]
      exact if_neg hvoted
  | some parent =>
      obtain ⟨hheight, hpg⟩ := hag.of_parent? hp
      have hgraded : ∀ c, some parent = some c → c.Graded := by
        intro c hc
        cases hc
        exact hpg
      have hsuffix : parent.links <:+ a.links := Branch.parent_suffix hp
      rw [state_fresh hperiod hgraded, stateBy_of_voted ⟨hd, hvoted, rfl, by omega⟩, ← hheight,
        shortAfter_of_suffix hag hsuffix (by omega)]

/-- The states of a deployment for the blocks of a branch go from window to window. -/
structure MovesForward (p : Params) (index : Nat) (b : Branch) : Prop where
  /-- The blocks of one window have one state. -/
  oneWindow : ∀ a a' : Branch, a.links <:+ b.links → a'.links <:+ b.links →
    a.height / p.minerConfirmationWindow.toNat = a'.height / p.minerConfirmationWindow.toNat →
      stateOf p index a = stateOf p index a'
  /-- From one window to the next the state makes one move. -/
  moves : ∀ a a' : Branch, a.links <:+ b.links → a'.links <:+ b.links →
    a.height / p.minerConfirmationWindow.toNat + 1 =
        a'.height / p.minerConfirmationWindow.toNat →
      ∀ s', stateOf p index a' = .ok s' → ∃ s, stateOf p index a = .ok s ∧ Moves s s'
  /-- After the window in which it is locked in it is active. -/
  activates : ∀ a a' : Branch, a.links <:+ b.links → a'.links <:+ b.links →
    a.height / p.minerConfirmationWindow.toNat + 1 =
        a'.height / p.minerConfirmationWindow.toNat →
      stateOf p index a = .ok .lockedIn → stateOf p index a' = .ok .active
  /-- An active deployment stays active for every block above, and a failed one failed. -/
  final : ∀ a a' : Branch, a.links <:+ a'.links → a'.links <:+ b.links →
    ∀ s, s = .active ∨ s = .failed → stateOf p index a = .ok s → stateOf p index a' = .ok s
  /-- Every block has a state, if the deployment votes with a bit that there is. -/
  total : (∀ d, p.deployment? index = some d → d.bit.toNat < 32) →
    ∀ a : Branch, a.links <:+ b.links → ∃ s, stateOf p index a = .ok s

theorem movesForward_of_constant (hne : s ≠ .lockedIn) (h : ∀ a, stateOf p index a = .ok s) :
    MovesForward p index b where
  oneWindow a a' _ _ _ := (h a).trans (h a').symm
  moves a a' _ _ _ s' hs' := by
    cases (h a').symm.trans hs'
    exact ⟨s, h a, .stays hne⟩
  activates a _ _ _ _ hs := by
    cases (h a).symm.trans hs
    exact absurd rfl hne
  final a a' _ _ _ _ hs := (h a').trans ((h a).symm.trans hs)
  total _ a _ := ⟨s, h a⟩

theorem movesForward_of_mediansRise (hperiod : 0 < p.minerConfirmationWindow.toNat)
    (hg : b.Graded) (hfits : b.height < 2 ^ 32) (hrise : b.MediansRise p.medianTimeSpan.toNat)
    (hspan : ∀ parent, b.parent? = some parent → 0 < p.medianTimeSpan.toNat) :
    MovesForward p index b := by
  by_cases hvoted : ∃ d, p.deployment? index = some d ∧
      d.startTime ≠ DeploymentParams.alwaysActiveTime
  · obtain ⟨d, hd, hvoted⟩ := hvoted
    have hstate : ∀ a : Branch, a.links <:+ b.links → stateOf p index a =
        shortAfter p d b (a.height / p.minerConfirmationWindow.toNat) :=
      fun a ha => stateOf_eq hperiod hd hvoted hg hfits ha
    have hwindows : ∀ a : Branch, a.links <:+ b.links →
        a.height / p.minerConfirmationWindow.toNat * p.minerConfirmationWindow.toNat ≤
          b.height + 1 := by
      intro a ha
      have hle := (hg.of_suffix ha).2
      have hdiv := Nat.div_mul_le_self a.height p.minerConfirmationWindow.toNat
      omega
    constructor
    · intro a a' ha ha' hsame
      rw [hstate a ha, hstate a' ha', hsame]
    · intro a a' ha ha' hnext s' hs'
      have hk := hwindows a' ha'
      rw [hstate a' ha', ← hnext] at hs'
      rw [← hnext] at hk
      rw [hstate a ha]
      exact exists_moves hg hperiod hrise hk hs'
    · intro a a' ha ha' hnext hs
      have hk := hwindows a' ha'
      rw [hstate a ha] at hs
      rw [← hnext] at hk
      rw [hstate a' ha', ← hnext]
      obtain ⟨window, m, hmove⟩ := shortAfter_succ_of_ne hg hperiod hrise hk hs (by decide)
      exact hmove
    · intro a a' ha ha' s hs hstays
      have hle : a.height / p.minerConfirmationWindow.toNat ≤
          a'.height / p.minerConfirmationWindow.toNat :=
        Nat.div_le_div_right ((hg.of_suffix ha').1.of_suffix ha).2
      rw [hstate a (ha.trans ha')] at hstays
      rw [hstate a' ha']
      rcases hs with rfl | rfl
      · exact shortAfter_of_le hg hperiod hrise (by decide) (fun _ _ => rfl) hle (hwindows a' ha') hstays
      · exact shortAfter_of_le hg hperiod hrise (by decide) (fun _ _ => rfl) hle (hwindows a' ha') hstays
    · intro hbit a ha
      cases hp : b.parent? with
      | none =>
          cases Branch.eq_of_suffix_of_parent?_none hp ha
          refine ⟨.defined, ?_⟩
          rw [stateOf, hp, state_fresh hperiod (fun _ h => by cases h), stateBy, hd]
          exact if_neg hvoted
      | some parent =>
          rw [hstate a ha]
          exact exists_shortAfter (hspan parent hp) (hbit d hd) b _
  · have halways : ∀ d, p.deployment? index = some d →
        d.startTime = DeploymentParams.alwaysActiveTime :=
      fun d hd => Decidable.byContradiction fun hv => hvoted ⟨d, hd, hv⟩
    obtain ⟨s, hne, h⟩ := exists_stateOf_of_not_voted halways
    exact movesForward_of_constant hne h

/-- Every header passes the rule about times against the one before it, at whatever time. -/
def PassesTimes (p : Params) (b : Branch) : Prop :=
  b.EachStep fun parent a => ∃ c : Candidate, c.params = p ∧ c.previous? = some parent ∧
    c.header = a.tip.header ∧ HeaderRule.time.check c = .ok ()

theorem PassesTimes.timely (h : PassesTimes p b) : b.Timely p.medianTimeSpan.toNat := by
  refine Branch.EachStep.imp h ?_
  rintro parent a - ⟨c, rfl, hprevious, hheader, hcheck⟩ m hm
  obtain ⟨m', hm', hlt⟩ := Branch.medianTime_lt_of_time hcheck hprevious
  cases hm.symm.trans hm'
  rw [← hheader]
  exact hlt

/-- Along a branch whose headers pass the rule about times, a deployment moves only forward, one
move a window, and where it arrives it stays. -/
theorem movesForward_of_passesTimes (p : Params) (hperiod : 0 < p.minerConfirmationWindow.toNat)
    (index : Nat) (b : Branch) (hg : b.Graded) (hfits : b.height < 2 ^ 32)
    (h : PassesTimes p b) : MovesForward p index b := by
  refine movesForward_of_mediansRise hperiod hg hfits h.timely.mediansRise ?_
  intro parent hp
  obtain ⟨c, rfl, hprevious, -, hcheck⟩ := h b parent (List.suffix_refl _) hp
  obtain ⟨m, hm, -⟩ := Branch.medianTime_lt_of_time hcheck hprevious
  exact Branch.pos_of_medianTime hm

end Deployment

namespace Sample

/-- Three headers more, after both of a window have voted. -/
def tall : Branch :=
  ⟨linkAt 6 0x20000000 70, linkAt 5 0x20000000 60 :: linkAt 4 0x20000000 50 :: leftmost.links⟩

/-- With a median of one time a header that is later than the one before it passes. -/
theorem passes_of_lt {a parent : Branch} (hp : a.parent? = some parent)
    (hlt : parent.tip.header.time < a.tip.header.time) :
    ∃ c : Candidate, c.params = voting ∧ c.previous? = some parent ∧
      c.header = a.tip.header ∧ HeaderRule.time.check c = .ok () :=
  Branch.exists_passing hp (parent.medianTime_one) hlt

theorem passesTimes_tall : Deployment.PassesTimes voting tall := by
  refine .of_parent? rfl (.of_parent? rfl (.of_parent? rfl (.of_parent? rfl (.of_parent? rfl
    (.of_parent? rfl (.of_parent?_none rfl) ?_) ?_) ?_) ?_) ?_) ?_
  all_goals exact passes_of_lt rfl (by decide)

end Sample

/-- Two of two votes lock the deployment in for one window, and from the next one on it is
active. -/
theorem movesForward_of_passesTimes_tall :
    Deployment.MovesForward Sample.voting 0 Sample.tall ∧
      Deployment.stateOf Sample.voting 0 Sample.trunk = .ok .defined ∧
      Deployment.stateOf Sample.voting 0 Sample.leftmost = .ok .started ∧
      Deployment.stateOf Sample.voting 0 Sample.tall = .ok .active := by
  have hgraded : Sample.tall.Graded :=
    .above rfl (.above rfl (.above rfl (.above rfl (.above rfl (.above rfl .lowest)))))
  refine ⟨Deployment.movesForward_of_passesTimes Sample.voting (by decide) 0 Sample.tall hgraded
    (by decide) Sample.passesTimes_tall, ?_, ?_, ?_⟩
  · decide +kernel
  · decide +kernel
  · decide +kernel

end StakeChain
