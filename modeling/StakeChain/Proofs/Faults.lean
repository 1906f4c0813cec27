/-
Why no block is at fault.

A rule may rely on what other rules have found: that there is a coinbase and
what its first input is, that the block is no larger than it may be, that every
transaction has as many coins as inputs and that their amounts add up. So the
rules are gone through in the order in which they are applied, each of them
with what those before it have found. Only few rules need any of that; the
others have no fault for any candidate.

There is one sum that no check before it keeps in range: the amounts of the
outputs of a transaction are added up before the sum is looked at. Where a
network allows amounts of `2 ^ 62`, two of them add up to more than is kept.
-/
import StakeChain.Proofs.Issue
import StakeChain.Proofs.Limits
import StakeChain.Proofs.Sizes
import StakeChain.Proofs.Windows
import StakeChain.Proofs.WitnessCommitment

namespace StakeChain

/-! ## Ending without a fault -/

section

variable {α β : Type} {x : Except Rejection α}

/-- It may end early for a reason, but it has no fault. -/
def Faultless (x : Except Rejection α) : Prop :=
  ∀ f, x ≠ .error (.fault f)

namespace Faultless

theorem ok (a : α) : Faultless (.ok a) :=
  nofun

theorem consensus (e : ConsensusError) : Faultless (.error (.consensus e) : Except Rejection α) :=
  nofun

theorem demand (condition : Bool) (e : ConsensusError) : Faultless (Verdict.demand condition e) := by
  cases condition with
  | true => exact ok ()
  | false => exact consensus e

theorem bind {g : α → Except Rejection β} (hx : Faultless x)
    (hg : ∀ a, x = .ok a → Faultless (g a)) : Faultless (x >>= g) := by
  intro f h
  rcases Verdict.bind_eq_error.mp h with h | ⟨a, ha, h⟩
  · exact hx f h
  · exact hg a ha f h

theorem lift {y : Except Fault α} (h : ∃ a, y = .ok a) : Faultless (y.mapError .fault) := by
  obtain ⟨a, rfl⟩ := h
  exact ok a

theorem ite {c : Prop} [Decidable c] {y : Except Rejection α} (hx : c → Faultless x)
    (hy : ¬c → Faultless y) : Faultless (if c then x else y) := by
  split
  · next h => exact hx h
  · next h => exact hy h

theorem forM {l : List α} {g : α → Verdict} (h : ∀ a ∈ l, Faultless (g a)) :
    Faultless (l.forM g) := by
  induction l with
  | nil => exact ok ()
  | cons a rest ih =>
      rw [List.forall_mem_cons] at h
      exact (h.1).bind fun _ _ => ih h.2

end Faultless

end

/-- What follows something that has a result has one too, if it has one for that. -/
theorem exists_bind {α β : Type} {x : Except Fault α} {a : α} {g : α → Except Fault β}
    (hx : x = .ok a) (hg : ∃ b, g a = .ok b) : ∃ b, x >>= g = .ok b := by
  obtain ⟨b, hb⟩ := hg
  exact ⟨b, Verdict.bind_eq_ok.mpr ⟨a, hx, hb⟩⟩

theorem fitWord_of_lt {width n : Nat} (h : n < 2 ^ width) : fitWord width n = .ok n :=
  if_pos h

theorem fitAmount_of_natAbs_lt {n : Int} (h : n.natAbs < 2 ^ 63) : fitAmount n = .ok n :=
  if_pos (fitsInt64_of_natAbs_lt h)

theorem quotient_of_pos {a b : Nat} (h : 0 < b) : quotient a b = .ok (a / b) :=
  if_neg (Nat.ne_of_gt h)

theorem remainder_of_pos {a b : Nat} (h : 0 < b) : remainder a b = .ok (a % b) :=
  if_neg (Nat.ne_of_gt h)

/-- Parameters under which nothing is divided by zero, sizes and counts of a block that is not too
long fit their words, and so does any amount. -/
structure Params.Regular (p : Params) : Prop where
  medianTimeSpan : 1 ≤ p.medianTimeSpan.toNat
  minerConfirmationWindow : 1 ≤ p.minerConfirmationWindow.toNat
  subsidyHalvingInterval : 1 ≤ p.subsidyHalvingInterval.toNat
  powTargetSpacing : 1 ≤ p.powTargetSpacing.toNat
  powTargetTimespan : p.powTargetSpacing.toNat ≤ p.powTargetTimespan.toNat
  witnessScaleFactor : 1 ≤ p.witnessScaleFactor.toNat ∧ p.witnessScaleFactor.toNat ≤ 1024
  maxBlockWeight : p.maxBlockWeight.toNat ≤ 2 ^ 27
  maxBlockSerializedSize : p.maxBlockSerializedSize.toNat ≤ 2 ^ 27
  targetSpacing : ∀ s, p.stake = some s → 1 ≤ s.targetSpacing.toNat
  bits : ∀ d ∈ p.deployments, d.bit.toNat < 32
  maxMoney : 0 ≤ p.maxMoney.toInt ∧ p.maxMoney.toInt ≤ 2 ^ 62

/-- What outputs pay together. -/
def TxOut.total (outputs : List TxOut) : Int :=
  (outputs.map fun o => o.value.toInt).sum

theorem TxOut.total_append_singleton (outputs : List TxOut) (o : TxOut) :
    total (outputs ++ [o]) = total outputs + o.value.toInt := by
  rw [total, List.map_append, List.sum_append]
  exact congrArg _ (add_zero _)

/-- No part of the outputs from the left pays just the least amount that is too large for 64 bits
with a sign. -/
def Tx.SumsFit (tx : Tx) : Prop :=
  ∀ k, TxOut.total (tx.outputs.take k) ≠ 2 ^ 63

/-! ## The target of the next block -/

namespace Branch

variable {p : Params} {b : Branch}

theorem exists_nextWork (hp : p.Regular) {previous : Option Branch}
    (hheight : ∀ b, previous = some b → b.height < 2 ^ 32 - 2) (time : UInt32) :
    ∃ bits, nextWork previous time p = .ok bits := by
  cases previous with
  | none => exact ⟨_, rfl⟩
  | some b =>
      have hspacing : ¬p.powTargetSpacing = 0 := by
        intro hzero
        have := hp.powTargetSpacing
        rw [hzero] at this
        exact absurd this (by decide)
      have hinterval : p.retargetInterval = .ok (p.powTargetTimespan / p.powTargetSpacing) :=
        if_neg hspacing
      have hpos : 0 < (p.powTargetTimespan / p.powTargetSpacing).toNat := by
        rw [UInt32.toNat_div]
        exact Nat.div_pos hp.powTargetTimespan hp.powTargetSpacing
      have hfits : b.height + 1 < 2 ^ 32 := by
        have := hheight b rfl
        omega
      refine exists_bind hinterval (exists_bind (fitWord_of_lt hfits)
        (exists_bind (remainder_of_pos hpos) ?_))
      split
      · exact ⟨_, rfl⟩
      · exact ⟨_, rfl⟩

theorem exists_nextOfKind (kind : Bool) (limit timespan : UInt32) {spacing : UInt32}
    (hspacing : 1 ≤ spacing.toNat) : ∃ bits, b.nextOfKind kind limit spacing timespan = .ok bits := by
  rw [nextOfKind]
  split
  · exact ⟨_, rfl⟩
  · dsimp only
    split
    · exact ⟨_, rfl⟩
    · exact exists_bind (quotient_of_pos hspacing) ⟨_, rfl⟩

theorem exists_nextTarget (hp : p.Regular) {previous : Option Branch}
    (hheight : ∀ b, previous = some b → b.height < 2 ^ 32 - 2) (time : UInt32) (kind : Bool) :
    ∃ bits, nextTarget previous time kind p = .ok bits := by
  rw [nextTarget]
  cases hstake : p.stake with
  | none => exact exists_nextWork hp hheight time
  | some s =>
      cases previous with
      | none => exact ⟨_, rfl⟩
      | some b => exact exists_nextOfKind _ _ _ (hp.targetSpacing s hstake)

end Branch

/-! ## The rules in force -/

namespace Deployment

variable {α β : Type} {q : Query α} {post : α → Prop} {last : β → Prop}

/-- Whatever is known, the question has an answer, and one that is as said. -/
def Answered (q : Query α) (post : α → Prop) : Prop :=
  ∀ known, ∃ a left, q.run known = .ok (a, left) ∧ post a

theorem Answered.pure {a : α} (h : post a) : Answered (pure a) post :=
  fun known => ⟨a, known, rfl, h⟩

theorem Answered.bind {g : α → Query β} (hq : Answered q post)
    (hg : ∀ a, post a → Answered (g a) last) : Answered (q >>= g) last := by
  intro known
  obtain ⟨a, left, hrun, ha⟩ := hq known
  obtain ⟨b, more, hnext, hb⟩ := hg a ha left
  refine ⟨b, more, ?_, hb⟩
  change (q.run known >>= fun x => (g x.1).run x.2) = _
  rw [hrun]
  exact hnext

theorem Answered.get_bind {g : Cache → Query α} (h : ∀ known, Answered (g known) post) :
    Answered (get >>= g) post :=
  fun known => h known known

theorem Answered.lift {r : Except Fault α} (h : ∃ a, r = .ok a ∧ post a) :
    Answered (liftM r) post := by
  intro known
  obtain ⟨a, rfl, ha⟩ := h
  exact ⟨a, known, rfl, ha⟩

/-- An answer without more said about it. -/
theorem Answered.lift_exists {r : Except Fault α} (h : ∃ a, r = .ok a) :
    Answered (liftM r) fun _ => True := by
  obtain ⟨a, ha⟩ := h
  exact .lift ⟨a, ha, trivial⟩

variable {p : Params} {index : Nat} {d : DeploymentParams}

theorem answered_remember (window : Branch) (s : ThresholdState) :
    Answered (remember index window s) fun _ => True :=
  fun known => ⟨s, ((index, window.hash), s) :: known, rfl, trivial⟩

theorem answered_pending (hspan : 1 ≤ p.medianTimeSpan.toNat) (fuel : Nat) (window : Option Branch)
    (later : List (Branch × Nat)) :
    Answered (pending p index d fuel window later) fun _ => True := by
  induction fuel generalizing window later with
  | zero =>
      cases window with
      | none => exact .pure trivial
      | some window => exact .pure trivial
  | succ fuel ih =>
      cases window with
      | none => exact .pure trivial
      | some window =>
          refine .get_bind fun known => ?_
          cases known.lookup (index, window.hash) with
          | some s => exact .pure trivial
          | none =>
              refine (Answered.lift_exists (window.exists_medianTime hspan)).bind fun median _ => ?_
              dsimp only
              split
              · exact (answered_remember window .defined).bind fun _ _ => .pure trivial
              · exact ih _ _

theorem answered_advance (hbit : d.bit.toNat < 32) (s : ThresholdState)
    (windows : List (Branch × Nat)) : Answered (advance p index d s windows) fun _ => True := by
  induction windows generalizing s with
  | nil => exact .pure trivial
  | cons w rest ih =>
      refine (Answered.lift_exists (exists_next hbit w.2 s)).bind fun s _ => ?_
      exact (answered_remember w.1 s).bind fun s _ => ih s

theorem exists_lastWindow? (hp : p.Regular) {b : Branch} (hheight : b.height < 2 ^ 32 - 2) :
    ∃ window, lastWindow? p b = .ok window := by
  have hfits : b.height + 1 < 2 ^ 32 := by omega
  exact exists_bind (fitWord_of_lt hfits)
    (exists_bind (remainder_of_pos hp.minerConfirmationWindow) ⟨_, rfl⟩)

theorem answered_state (hp : p.Regular) {previous : Option Branch}
    (hheight : ∀ b, previous = some b → b.height < 2 ^ 32 - 2) (index : Nat) :
    Answered (state p index previous) fun _ => True := by
  rw [state]
  cases hd : p.deployment? index with
  | none => exact .pure trivial
  | some d =>
      have hbit := hp.bits d (List.mem_of_getElem? hd)
      dsimp only
      split
      · exact .pure trivial
      · cases previous with
        | none => exact .pure trivial
        | some b =>
            refine (Answered.lift_exists (exists_lastWindow? hp (hheight b rfl))).bind
              fun window _ => ?_
            refine (answered_pending hp.medianTimeSpan _ window []).bind fun found _ => ?_
            exact answered_advance hbit found.1 found.2

theorem answered_isActive (hp : p.Regular) {previous : Option Branch}
    (hheight : ∀ b, previous = some b → b.height < 2 ^ 32 - 2) (index : Nat) :
    Answered (isActive p index previous) fun _ => True :=
  (answered_state hp hheight index).bind fun _ _ => .pure trivial

theorem answered_ofBlock (hp : p.Regular) {previous : Option Branch}
    (hheight : ∀ b, previous = some b → b.height < 2 ^ 32 - 2) (header : BlockHeader) :
    Answered (BlockRules.ofBlock p previous header) fun _ => True := by
  have hafter : ∃ height, BlockRules.heightAfter previous = .ok height := by
    cases previous with
    | none => exact ⟨0, rfl⟩
    | some b =>
        have hfits : b.height + 1 < 2 ^ 32 := by
          have := hheight b rfl
          omega
        exact ⟨_, fitWord_of_lt hfits⟩
  refine (Answered.lift_exists hafter).bind fun height _ => ?_
  refine (answered_isActive hp hheight _).bind fun csv _ => ?_
  refine (answered_isActive hp hheight _).bind fun segwit _ => ?_
  exact (answered_isActive hp hheight _).bind fun coldStaking _ => .pure trivial

end Deployment

/-! ## What a candidate has to be like -/

/-- A candidate under regular parameters, whose height and size fit their words. Where amounts may
be as large as they go, its outputs have to add up to something that can be kept. -/
structure Candidate.Regular (c : Candidate) : Prop where
  params : c.params.Regular
  height : ∀ b, c.previous? = some b → b.height < 2 ^ 32 - 2
  size : c.block.totalSize < 2 ^ 54
  sums : c.params.maxMoney.toInt = 2 ^ 62 → ∀ tx ∈ c.block.txs, tx.SumsFit

theorem Candidate.Regular.fitWord_scaled {c : Candidate} (h : c.Regular) {n : Nat}
    (hn : n ≤ c.block.totalSize) :
    fitWord 64 (n * c.params.witnessScaleFactor.toNat) =
      .ok (n * c.params.witnessScaleFactor.toNat) := by
  refine fitWord_of_lt ?_
  calc
    n * c.params.witnessScaleFactor.toNat ≤ c.block.totalSize * 1024 :=
      Nat.mul_le_mul hn h.params.witnessScaleFactor.2
    _ < 2 ^ 64 := by
      have := h.size
      omega

/-! ## Amounts of a transaction -/

namespace Tx

/-- The amounts before were found to be in range, so the next one leaves the range of what is kept
only if they are as large as they go. -/
theorem faultless_checkAmounts {p : Params} (hp : p.Regular) {before outputs : List TxOut}
    (hsums : p.maxMoney.toInt = 2 ^ 62 →
      ∀ k, TxOut.total ((before ++ outputs).take k) ≠ 2 ^ 63)
    (hrange : 0 ≤ TxOut.total before ∧ TxOut.total before ≤ p.maxMoney.toInt) :
    Faultless (checkAmounts p (TxOut.total before) outputs) := by
  induction outputs generalizing before with
  | nil => exact .ok ()
  | cons o rest ih =>
      rw [List.append_cons] at hsums
      refine (Faultless.demand _ _).bind fun _ hnonneg => ?_
      refine (Faultless.demand _ _).bind fun _ hle => ?_
      rw [Verdict.demand_eq_ok, decide_eq_true_eq] at hnonneg hle
      rw [← TxOut.total_append_singleton]
      have hfits : (TxOut.total (before ++ [o])).natAbs < 2 ^ 63 := by
        have hmax := hp.maxMoney.2
        have hnot : p.maxMoney.toInt = 2 ^ 62 → TxOut.total (before ++ [o]) ≠ 2 ^ 63 := by
          intro hmoney
          have hat := hsums hmoney (before ++ [o]).length
          rwa [List.take_left] at hat
        have hsum := TxOut.total_append_singleton before o
        omega
      rw [fitAmount_of_natAbs_lt hfits]
      refine (Faultless.demand _ _).bind fun _ hin => ih hsums ?_
      rwa [Verdict.demand_eq_ok, Params.inMoneyRange_iff] at hin

theorem faultless_check {c : Candidate} (h : c.Regular) {tx : Tx} (htx : tx ∈ c.block.txs) :
    Faultless (tx.check c.params) := by
  have hsize : tx.baseSize ≤ c.block.totalSize :=
    (Block.baseSize_le_of_mem htx).trans c.block.baseSize_le_totalSize
  refine (Faultless.demand _ _).bind fun _ _ => (Faultless.demand _ _).bind fun _ _ => ?_
  refine (Faultless.lift ⟨_, h.fitWord_scaled hsize⟩).bind fun _ _ => ?_
  refine (Faultless.demand _ _).bind fun _ _ => ?_
  have hamounts : Faultless (checkAmounts c.params (TxOut.total []) tx.outputs) :=
    faultless_checkAmounts h.params (fun hmoney => h.sums hmoney tx htx)
      ⟨le_refl _, h.params.maxMoney.1⟩
  refine hamounts.bind fun _ _ => (Faultless.demand _ _).bind fun _ _ => ?_
  exact .ite (fun _ => .demand _ _) fun _ => .demand _ _

end Tx

/-! ## Rules about headers and bodies -/

namespace Candidate

variable {c : Candidate}

theorem faultless_checkAll_append {rules more : List PlainRule} (h : Faultless (c.checkAll rules))
    (hmore : (∀ r ∈ rules, r.check c = .ok ()) → Faultless (c.checkAll more)) :
    Faultless (c.checkAll (rules ++ more)) := by
  rw [checkAll, List.forM_eq_forM, List.forM_append]
  exact h.bind fun _ hall => hmore (Verdict.forM_eq_ok.mp hall)

theorem faultless_headerRule (h : c.Regular) {r : PlainRule} (hr : r ∈ c.params.headerRules) :
    Faultless (r.check c) := by
  simp only [Params.headerRules, List.mem_cons, List.not_mem_nil, or_false] at hr
  rcases hr with rfl | rfl | rfl | rfl | rfl | rfl
  · exact .demand _ _
  · have hmedian : Faultless (HeaderRule.checkMedian c) := by
      rw [HeaderRule.checkMedian]
      cases c.previous? with
      | none => exact .ok ()
      | some b =>
          exact (Faultless.lift (b.exists_medianTime h.params.medianTimeSpan)).bind
            fun _ _ => .demand _ _
    exact hmedian.bind fun _ _ => .demand _ _
  · exact (Faultless.lift (Branch.exists_nextTarget h.params h.height _ _)).bind
      fun _ _ => .demand _ _
  · exact .demand _ _
  · exact .demand _ _
  · exact .demand _ _

theorem faultless_sizeRule (h : c.Regular) : Faultless (BodyRule.size.check c) := by
  have hcount : c.block.txs.length ≤ c.block.totalSize :=
    c.block.length_txs_le.trans c.block.baseSize_le_totalSize
  have hsize : Faultless (c.block.checkSize c.params) := by
    refine (Faultless.demand _ _).bind fun _ _ => ?_
    refine (Faultless.lift ⟨_, h.fitWord_scaled hcount⟩).bind fun _ _ => ?_
    refine (Faultless.demand _ _).bind fun _ _ => ?_
    exact (Faultless.lift ⟨_, h.fitWord_scaled c.block.baseSize_le_totalSize⟩).bind
      fun _ _ => .demand _ _
  exact hsize.bind fun _ _ => .demand _ _

/-- What the size rule has found. -/
theorem sizes_of_sizeRule (h : BodyRule.size.check c = .ok ()) :
    c.block.baseSize * c.params.witnessScaleFactor.toNat ≤ c.params.maxBlockWeight.toNat ∧
      c.block.totalSize ≤ c.params.maxBlockSerializedSize.toNat := by
  obtain ⟨_, hsize, htotal⟩ := Verdict.bind_eq_ok.mp h
  obtain ⟨_, _, hsize⟩ := Verdict.bind_eq_ok.mp hsize
  obtain ⟨_, _, hsize⟩ := Verdict.bind_eq_ok.mp hsize
  obtain ⟨_, _, hsize⟩ := Verdict.bind_eq_ok.mp hsize
  obtain ⟨size, hword, hle⟩ := Verdict.bind_eq_ok.mp hsize
  have hscaled := Verdict.mapError_eq_ok.mp hword
  rw [Verdict.demand_eq_ok, decide_eq_true_eq] at hle htotal
  refine ⟨?_, htotal⟩
  rw [fitWord] at hscaled
  split at hscaled
  · cases hscaled
    exact hle
  · cases hscaled

/-- The rules up to that about the size, which later ones rely on. -/
def earlyRules (p : Params) : List PlainRule :=
  p.headerRules ++ [BodyRule.merkleRoot, BodyRule.coinbase, BodyRule.size]

theorem faultless_earlyRule (h : c.Regular) {r : PlainRule} (hr : r ∈ earlyRules c.params) :
    Faultless (r.check c) := by
  rcases List.mem_append.mp hr with hr | hr
  · exact faultless_headerRule h hr
  · simp only [List.mem_cons, List.not_mem_nil, or_false] at hr
    rcases hr with rfl | rfl | rfl
    · exact (Faultless.demand _ _).bind fun _ _ => .demand _ _
    · exact (Faultless.demand _ _).bind fun _ _ => .demand _ _
    · exact faultless_sizeRule h

/-- The nonce is looked for in the first input of the coinbase, which is there. -/
theorem faultless_commitment {b : Block} (h : b.checkCoinbase = .ok ()) (enabled : Bool) :
    Faultless (Commitment.check b enabled) := by
  obtain ⟨coinbase, rest, input, htxs, hinputs⟩ := Block.exists_coinbase h
  have hnonce : Faultless (Commitment.nonce coinbase) := by
    rw [Commitment.nonce, hinputs]
    dsimp only
    split
    · split
      · exact .ok _
      · exact .consensus _
    · exact .consensus _
  rw [Commitment.check, Commitment.output?_eq_counted enabled htxs]
  cases Commitment.counted enabled coinbase.outputs with
  | none => exact .demand _ _
  | some output => exact hnonce.bind fun _ _ => .demand _ _

theorem faultless_weight (h : c.Regular) (hsize : BodyRule.size.check c = .ok ()) :
    Faultless (c.block.checkWeight c.params) := by
  have hscale := h.params.witnessScaleFactor
  have hfits : c.block.baseSize * (c.params.witnessScaleFactor.toNat - 1) +
      c.block.totalSize < 2 ^ 64 := by
    have hbase : c.block.baseSize * (c.params.witnessScaleFactor.toNat - 1) ≤
        c.block.baseSize * c.params.witnessScaleFactor.toNat :=
      Nat.mul_le_mul_left _ (Nat.sub_le _ 1)
    have hsizes := sizes_of_sizeRule hsize
    have hweight := h.params.maxBlockWeight
    have htotal := h.params.maxBlockSerializedSize
    omega
  have hdifference : difference c.params.witnessScaleFactor.toNat 1 =
      .ok (c.params.witnessScaleFactor.toNat - 1) := if_pos hscale.1
  have hweight : ∃ weight, c.block.weight c.params = .ok weight :=
    exists_bind hdifference (exists_bind (fitWord_of_lt (Nat.lt_of_le_of_lt
      (Nat.le_add_right _ _) hfits)) ⟨_, fitWord_of_lt hfits⟩)
  exact (Faultless.lift hweight).bind fun _ _ => .demand _ _

theorem faultless_sigOps (h : c.Regular) (hsize : BodyRule.size.check c = .ok ()) :
    Faultless (BodyRule.sigOps.check c) := by
  have hfits : c.block.legacySigOps * c.params.witnessScaleFactor.toNat < 2 ^ 64 := by
    calc
      c.block.legacySigOps * c.params.witnessScaleFactor.toNat
          ≤ maxKeysPerMultisig * c.block.baseSize * c.params.witnessScaleFactor.toNat :=
        Nat.mul_le_mul_right _ c.block.legacySigOps_le
      _ = maxKeysPerMultisig * (c.block.baseSize * c.params.witnessScaleFactor.toNat) :=
        Nat.mul_assoc _ _ _
      _ ≤ maxKeysPerMultisig * 2 ^ 27 :=
        Nat.mul_le_mul_left _ ((sizes_of_sizeRule hsize).1.trans h.params.maxBlockWeight)
      _ < 2 ^ 64 := by decide
  exact (Faultless.lift ⟨_, fitWord_of_lt hfits⟩).bind fun _ _ => .demand _ _

theorem faultless_lockTime (h : c.Regular) : Faultless (BodyRule.lockTime.check c) := by
  have hcutoff : ∃ cutoff, BodyRule.lockCutoff c = .ok cutoff := by
    rw [BodyRule.lockCutoff]
    cases c.previous? with
    | none => exact ⟨_, rfl⟩
    | some b =>
        dsimp only
        split
        · exact b.exists_medianTime h.params.medianTimeSpan
        · exact ⟨_, rfl⟩
  exact (Faultless.lift hcutoff).bind fun _ _ => .demand _ _

theorem faultless_stakeParams : Faultless (StakeRule.params c) := by
  rw [StakeRule.params]
  cases c.params.stake with
  | none => exact .consensus _
  | some p => exact .ok p

/-- The rules about what stakes look at what is there, and at nothing else. -/
theorem faultless_stakeRule {r : PlainRule}
    (hr : r ∈ [StakeRule.blockType, StakeRule.signature, StakeRule.timeMask,
      StakeRule.coinstakeShape]) : Faultless (r.check c) := by
  simp only [List.mem_cons, List.not_mem_nil, or_false] at hr
  rcases hr with rfl | rfl | rfl | rfl
  · refine faultless_stakeParams.bind fun p _ => (Faultless.demand _ _).bind fun _ _ => ?_
    exact (Faultless.demand _ _).bind fun _ _ => .ite (fun _ => .demand _ _) fun _ => .ok ()
  · exact .demand _ _
  · refine .ite (fun _ => ?_) fun _ => .ok ()
    refine faultless_stakeParams.bind fun p _ => (Faultless.demand _ _).bind fun _ _ => ?_
    exact (Faultless.demand _ _).bind fun _ _ => .demand _ _
  · exact (Faultless.demand _ _).bind fun _ _ => .ite (fun _ => .demand _ _) fun _ => .ok ()

theorem faultless_coinbaseHeight : Faultless (BodyRule.coinbaseHeight.check c) := by
  refine .ite (fun _ => ?_) fun _ => .ok ()
  rw [Block.checkHeight]
  cases c.block.txs.head?.bind fun tx => tx.inputs.head? with
  | none => exact .consensus _
  | some input => exact .demand _ _

/-- The rules after that about the size. -/
def laterRules (p : Params) : List PlainRule :=
  p.whereStaked [StakeRule.blockType, StakeRule.signature] ++
    [BodyRule.commitment, BodyRule.weight, BodyRule.transactions, BodyRule.sigOps,
      BodyRule.lockTime, BodyRule.coinbaseHeight] ++
    p.whereStaked [StakeRule.timeMask, StakeRule.coinstakeShape]

theorem plainRules_eq (p : Params) : p.plainRules = earlyRules p ++ laterRules p := by
  simp only [Params.plainRules, Params.integrityRules, Params.partialRules, earlyRules,
    laterRules, List.append_assoc, List.cons_append, List.nil_append]

theorem mem_of_mem_whereStaked {α : Type} {p : Params} {rules : List α} {r : α}
    (h : r ∈ p.whereStaked rules) : r ∈ rules := by
  rw [Params.whereStaked] at h
  split at h
  · exact h
  · exact absurd h List.not_mem_nil

theorem faultless_laterRule (h : c.Regular) (hcoinbase : BodyRule.coinbase.check c = .ok ())
    (hsize : BodyRule.size.check c = .ok ()) {r : PlainRule} (hr : r ∈ laterRules c.params) :
    Faultless (r.check c) := by
  rw [laterRules, List.mem_append, List.mem_append] at hr
  rcases hr with (hr | hr) | hr
  · refine faultless_stakeRule ?_
    exact List.mem_append_left [StakeRule.timeMask, StakeRule.coinstakeShape]
      (mem_of_mem_whereStaked hr)
  · simp only [List.mem_cons, List.not_mem_nil, or_false] at hr
    rcases hr with rfl | rfl | rfl | rfl | rfl | rfl
    · exact faultless_commitment hcoinbase _
    · exact faultless_weight h hsize
    · exact .forM fun tx htx => Tx.faultless_check h htx
    · exact faultless_sigOps h hsize
    · exact faultless_lockTime h
    · exact faultless_coinbaseHeight
  · refine faultless_stakeRule ?_
    exact List.mem_append_right [StakeRule.blockType, StakeRule.signature]
      (mem_of_mem_whereStaked hr)

/-- The first three phases have no fault. -/
theorem faultless_checkPlain (h : c.Regular) : Faultless c.checkPlain := by
  rw [checkPlain, plainRules_eq]
  refine faultless_checkAll_append (.forM fun r hr => faultless_earlyRule h hr) fun hearly => ?_
  refine .forM fun r hr => faultless_laterRule h (hearly _ ?_) (hearly _ ?_) hr
  · exact List.mem_append_right _ (.tail _ (.head _))
  · exact List.mem_append_right _ (.tail _ (.tail _ (.head _)))

end Candidate

end StakeChain
