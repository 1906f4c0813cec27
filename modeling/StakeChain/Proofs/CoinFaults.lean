/-
Why the coins and the scripts of no block are at fault.

When the coins of a block are looked up, its transactions were looked at by
themselves: they pay no negative amounts. What they take is found to be in
range coin by coin, so fees and what a coinstake makes can be kept. The walk
over the transactions leaves a list of coins for each of them, and the rules
that come later point into these lists. They may do so because the lists are
as long as the inputs, and none of these rules touches them.

A script has no fault of its own. Its checker looks for one input, which is
there while the inputs are gone through. The stacks between the scripts of a
spend are within their limits; only the witness may have more items than that,
and then their number is the limit.
-/
import StakeChain.Proofs.Faults
import StakeChain.Proofs.LockTimes
import StakeChain.Proofs.Sequential

namespace StakeChain

/-! ## Spends -/

/-- The checker of an input that is there has an answer to every question. -/
theorem Checker.answers_ofTx {tx : Tx} {index : Nat} (h : index < tx.inputs.length)
    (amount : Int64) (shared : Option TxDigests) :
    (ofTx tx index amount shared).Answers fun _ => False := by
  have hinput := Tx.inputAt_eq_ok.mpr (List.getElem?_eq_getElem h)
  refine ⟨?_, ?_, ?_⟩
  · intro sig key code version f hf
    simp only [ofTx] at hf
    split at hf
    · cases hf
    · cases version with
      | legacy => cases hf
      | witnessV0 =>
          simp only [signatureHash, Sighash.witness, hinput] at hf
          cases hf
  · intro demanded f hf
    simp only [ofTx, hinput] at hf
    split at hf
    · cases hf
    · cases hf
  · intro demanded f hf
    simp only [ofTx, hinput] at hf
    cases hf

namespace Eval

/-- No more items than that, all of a size that may be pushed. -/
structure Fits (limit : Nat) (stack : List Bytes) : Prop where
  count : stack.length ≤ limit
  size : ∀ item ∈ stack, item.length ≤ maxElementSize

theorem Fits.nil (limit : Nat) : Fits limit [] :=
  ⟨Nat.zero_le _, nofun⟩

theorem Fits.tail {limit : Nat} {item : Bytes} {stack : List Bytes} (h : Fits limit (item :: stack)) :
    Fits limit stack :=
  ⟨(Nat.le_succ _).trans h.count, fun _ hother => h.size _ (List.mem_cons_of_mem _ hother)⟩

namespace Verification

variable {faults : Fault → Prop} {limit : Nat} {spend : Spend} {witness : Witness}
  {trace : List Event}

theorem ends_demand (condition : Bool) (e : ScriptError) :
    Ends faults (fun _ _ => condition) (demand condition e trace) := by
  cases condition with
  | true => exact .pure rfl
  | false => exact .verdict

section

variable (hc : spend.checker.Answers faults) (hlimit : maxStackSize ≤ limit)
  (hbound : limit < 2 ^ 63)

include hc hlimit hbound

theorem ends_run {stack : List Bytes} (hstack : Fits limit stack) (version : HashVersion)
    (s : Script) : Ends faults (fun left _ => Fits limit left) (run spend version s stack trace) := by
  have hends : Ends faults (fun _ m => m.Within limit)
      (Eval.run ⟨spend.flags, version, spend.checker⟩ s stack trace) :=
    Eval.ends_run hc hstack.count hstack.size hlimit hbound s trace
  rw [run]
  cases hrun : Eval.run ⟨spend.flags, version, spend.checker⟩ s stack trace with
  | ok a m =>
      have hm := hends.of_ok hrun
      exact .ok ⟨(Nat.le_add_right _ _).trans hm.count, hm.stack⟩
  | error e m =>
      cases e with
      | error e => exact .verdict
      | fault f => exact .fault (hends.of_fault hrun)

theorem ends_witnessProgram (hwitness : witness.length ≤ limit) (version : Nat) (program : Bytes) :
    Ends faults (fun _ _ => True) (witnessProgram spend witness version program trace) := by
  have hscript : ∀ {trace}, Ends faults (fun found _ => found.2.length ≤ limit)
      (witnessScript witness program trace) := by
    intro trace
    refine .ite (fun _ => ?_) fun _ => ?_
    · cases hreverse : witness.reverse with
      | nil => exact .verdict
      | cons code items =>
          refine (ends_demand _ _).bind fun _ _ _ => .pure ?_
          have hlength := congrArg List.length hreverse
          rw [List.length_reverse, List.length_cons] at hlength
          change items.length ≤ limit
          omega
    · cases Digest.ofBytes? 20 program with
      | none => exact .verdict
      | some hash =>
          refine (ends_demand _ _).bind fun _ _ _ => .pure ?_
          rwa [List.length_reverse]
  refine .ite (fun _ => ?_) fun _ => (ends_demand _ _).mono fun _ _ _ => trivial
  refine hscript.bind fun found _ hfound => ?_
  refine (ends_demand _ _).bind fun _ _ hsize => ?_
  have hfits : Fits limit found.2 :=
    ⟨hfound, fun item hitem => of_decide_eq_true (List.all_eq_true.mp hsize item hitem)⟩
  refine (ends_run hc hlimit hbound hfits _ _).bind fun _ _ _ => ?_
  exact (ends_demand _ _).bind fun _ _ _ => (ends_demand _ _).mono fun _ _ _ => trivial

theorem ends_witnessStage (hwitness : witness.length ≤ limit) (locking : Script) (bare : Bool)
    (e : ScriptError) (outcome : Outcome) :
    Ends faults (fun _ _ => True) (witnessStage spend locking witness bare e outcome trace) := by
  rw [witnessStage]
  cases locking.witnessProgram? with
  | none => exact .pure trivial
  | some program =>
      refine .ite (fun _ => ?_) fun _ => .pure trivial
      refine (ends_demand _ _).bind fun _ _ _ => ?_
      exact (ends_witnessProgram hc hlimit hbound hwitness _ _).bind fun _ _ _ => .pure trivial

theorem ends_redeemStage (hwitness : witness.length ≤ limit) {left : List Bytes}
    (hleft : Fits limit left) (scriptSig : Script) (outcome : Outcome) :
    Ends faults (fun _ _ => True) (redeemStage spend scriptSig witness left outcome trace) := by
  refine (ends_demand _ _).bind fun _ _ _ => ?_
  cases left with
  | nil => exact .verdict
  | cons redeem stack =>
      refine (ends_run hc hlimit hbound hleft.tail _ _).bind fun _ _ _ => ?_
      refine (ends_demand _ _).bind fun _ _ _ => ?_
      exact ends_witnessStage hc hlimit hbound hwitness _ _ _ _

/-- A spend has no fault but those of its checker. -/
theorem ends_spends (hwitness : witness.length ≤ limit) (scriptSig locking : Script) :
    Ends faults (fun _ _ => True) (spends spend scriptSig locking witness trace) := by
  refine (ends_demand _ _).bind fun _ _ _ => ?_
  refine (ends_run hc hlimit hbound (.nil limit) _ _).bind fun left _ hleft => ?_
  refine (ends_run hc hlimit hbound hleft _ _).bind fun stack _ _ => ?_
  refine (ends_demand _ _).bind fun _ _ _ => ?_
  refine (ends_witnessStage hc hlimit hbound hwitness _ _ _ _).bind fun outcome _ _ => ?_
  have hend : ∀ {outcome : Outcome} {trace}, Ends faults (fun _ _ => True)
      ((do
          demand (!spend.flags.cleanStack || outcome.stack.length == 1) .cleanStack
          demand (!spend.flags.witness || outcome.usedWitness || witness.isEmpty)
            .witnessUnexpected : Verification Unit) trace) :=
    (ends_demand _ _).bind fun _ _ _ => (ends_demand _ _).mono fun _ _ _ => trivial
  refine .ite (fun _ => ?_) fun _ => hend
  exact (ends_redeemStage hc hlimit hbound hwitness hleft _ _).bind fun _ _ _ => hend

end

end Verification

/-- An input that is there has a verdict. -/
theorem verifyInput_ne_fault {tx : Tx} {index : Nat} (h : index < tx.inputs.length)
    (hwitness : ∀ i ∈ tx.inputs, i.witness.length < 2 ^ 63) (spent : TxOut) (flags : Flags)
    (shared : Option TxDigests) (f : Fault) :
    verifyInput tx index spent flags shared ≠ .error (.fault f) := by
  have hbound : max maxStackSize tx.inputs[index].witness.length < 2 ^ 63 :=
    Nat.max_lt.mpr ⟨by decide, hwitness _ (List.getElem_mem h)⟩
  have hends : Ends (fun _ => False) (fun _ _ => True)
      (verifyScript ⟨flags, Checker.ofTx tx index spent.value shared⟩
        tx.inputs[index].scriptSig spent.script tx.inputs[index].witness) :=
    Verification.ends_spends (Checker.answers_ofTx h spent.value shared) (Nat.le_max_left _ _)
      hbound (Nat.le_max_right _ _) _ _
  intro hfault
  rw [verifyInput, Tx.inputAt_eq_ok.mpr (List.getElem?_eq_getElem h)] at hfault
  dsimp only at hfault
  split at hfault
  · cases hfault
  · next e left herror =>
      cases hfault
      exact hends.of_fault herror

end Eval

/-! ## Amounts that are taken -/

theorem le_of_sumInt64From {start sum : Int} {l : List Int} (h : sumInt64From start l = some sum)
    (hstart : start ≤ Int64.maxValue.toInt) : sum ≤ Int64.maxValue.toInt := by
  induction l generalizing start with
  | nil =>
      cases h
      exact hstart
  | cons n rest ih =>
      rw [sumInt64From] at h
      split at h
      · next hfits =>
          rw [fitsInt64, Bool.and_eq_true, decide_eq_true_eq, decide_eq_true_eq] at hfits
          exact ih h hfits.2
      · cases h

namespace Tx

variable {tx : Tx} {p : Params} {height : Nat} {coins : List Coin}

/-- What a transaction pays is found in range, if it is found at all. -/
theorem paid_le {out : Int} (h : tx.totalOut? = some out) : out ≤ Int64.maxValue.toInt :=
  le_of_sumInt64From h (by decide)

/-- What comes in was added up without a part that could not be kept, or was negative. -/
theorem sum_of_valueInFrom {start sum : Int} (h : valueInFrom p height start coins = .ok sum)
    (hstart : 0 ≤ start) :
    sumInt64From start (coins.map fun coin => coin.output.value.toInt) = some sum ∧ 0 ≤ sum := by
  induction coins generalizing start with
  | nil =>
      cases h
      exact ⟨rfl, hstart⟩
  | cons coin rest ih =>
      obtain ⟨_, _, h⟩ := Verdict.bind_eq_ok.mp h
      obtain ⟨_, hrange, h⟩ := Verdict.bind_eq_ok.mp h
      rw [Verdict.demand_eq_ok, Bool.and_eq_true, Bool.and_eq_true] at hrange
      rw [List.map_cons, sumInt64From, if_pos hrange.1.1]
      exact ih h (Params.inMoneyRange_iff.mp hrange.2).1

theorem faultless_valueInFrom (start : Int) : Faultless (valueInFrom p height start coins) := by
  induction coins generalizing start with
  | nil => exact .ok start
  | cons coin rest ih =>
      have hmaturity : Faultless (checkMaturity p height coin) :=
        (Faultless.demand _ _).bind fun _ _ => .demand _ _
      exact hmaturity.bind fun _ _ => (Faultless.demand _ _).bind fun _ _ => ih _

/-- A fee is no less than nothing and no more than what comes in. -/
theorem faultless_fee (hpays : tx.PaysAmounts) : Faultless (tx.fee coins height p) := by
  refine (faultless_valueInFrom 0).bind fun valueIn hin => .ite (fun _ => .ok 0) fun _ => ?_
  have hmax := (valueInFrom_eq_ok hin).2 (by decide)
  cases hout : tx.totalOut? with
  | none => exact .consensus _
  | some valueOut =>
      refine (Faultless.demand _ _).bind fun _ hle => ?_
      rw [Verdict.demand_eq_ok, decide_eq_true_eq] at hle
      have hfits : (valueIn - valueOut).natAbs < 2 ^ 63 := by
        have hpaid := hpays.paid_nonneg
        rw [← totalOut_eq_some hout] at hpaid
        have hbound : Int64.maxValue.toInt = 2 ^ 63 - 1 := by decide
        omega
      refine (Faultless.lift ⟨_, fitAmount_of_natAbs_lt hfits⟩).bind fun fee _ => ?_
      refine (Faultless.demand _ _).bind fun _ _ => (Faultless.demand _ _).bind fun _ _ => ?_
      exact .ok fee

/-- Coins that were fetched for a transaction: one for each place that it spends, with values that
can be added up. -/
structure Fetched (tx : Tx) (coins : List Coin) : Prop where
  length : tx.spentPlaces.length = coins.length
  sum : ∃ sum, sumInt64From 0 (coins.map fun coin => coin.output.value.toInt) = some sum

end Tx

/-! ## The walk over the transactions -/

namespace Spending

variable {c : Candidate} {s t : Spending} {tx : Tx} {coins : List Coin}

/-- Both what a coinstake pays and what it takes can be kept, so what lies between them can. -/
theorem faultless_mintedBy {height : Nat} {valueIn : Int} (hpays : tx.PaysAmounts)
    (hin : Tx.valueInFrom c.params height 0 coins = .ok valueIn) :
    Faultless (mintedBy tx coins) := by
  obtain ⟨htotal, hmax⟩ := Tx.valueInFrom_eq_ok hin
  have hnonneg := (Tx.sum_of_valueInFrom hin (le_refl 0)).2
  rw [mintedBy]
  cases hout : tx.totalOut? with
  | none => exact .consensus _
  | some out =>
      have hfits : (out - total coins).natAbs < 2 ^ 63 := by
        have hpaid := hpays.paid_nonneg
        rw [← Tx.totalOut_eq_some hout] at hpaid
        have hle := Tx.paid_le hout
        have hmax := hmax (by decide)
        have hbound : Int64.maxValue.toInt = 2 ^ 63 - 1 := by decide
        omega
      exact .lift ⟨_, fitAmount_of_natAbs_lt hfits⟩

theorem faultless_account (hpays : tx.PaysAmounts) : Faultless (s.account c tx coins) := by
  refine .ite (fun _ => .ok s) fun _ => (Tx.faultless_fee hpays).bind fun fee hfee => ?_
  obtain ⟨valueIn, hin, _⟩ := Verdict.bind_eq_ok.mp hfee
  refine .ite (fun _ => ?_) fun _ => ?_
  · exact (faultless_mintedBy hpays hin).bind fun _ _ => .ok _
  · exact (Faultless.demand _ _).bind fun _ _ => .ok _

theorem faultless_takeAll (s : Spending) (taken : List Coin) (places : List OutPoint) :
    Faultless (s.takeAll taken places) := by
  induction places generalizing s taken with
  | nil => exact .ok _
  | cons o rest ih =>
      have htake : Faultless (s.take o) := by
        intro f h
        cases (take_eq_error.mp h).2
      exact htake.bind fun found _ => ih found.2 _

theorem faultless_step (hpays : tx.PaysAmounts) : Faultless (s.step c tx) := by
  have htake : Faultless (s.takeInputs c tx) :=
    .ite (fun _ => .ok _) fun _ => (faultless_takeAll s [] _).bind fun _ _ =>
      (Faultless.demand _ _).bind fun _ _ => .ok _
  refine htake.bind fun found _ => (Faultless.demand _ _).bind fun _ _ => ?_
  exact (faultless_account hpays).bind fun _ _ => .ok _

theorem faultless_steps {txs : List Tx} (hpays : ∀ tx ∈ txs, tx.PaysAmounts) (s : Spending) :
    Faultless (s.steps c txs) := by
  induction txs generalizing s with
  | nil => exact .ok s
  | cons tx rest ih =>
      rw [List.forall_mem_cons] at hpays
      exact (faultless_step hpays.1).bind fun t _ => ih hpays.2 t

theorem Stepped.fetched (h : Stepped c s tx coins t) : tx.Fetched coins := by
  refine ⟨h.length_coins, ?_⟩
  obtain ⟨u, v, -, -, hacc, -, -⟩ := h.accounted
  cases hc : tx.isCoinbase with
  | true =>
      have hlength := h.length_coins
      rw [Tx.spentPlaces, if_pos hc] at hlength
      rw [List.length_eq_zero_iff.mp hlength.symm]
      exact ⟨0, rfl⟩
  | false =>
      simp only [account, hc, Bool.false_eq_true, if_false, Verdict.bind_eq_ok] at hacc
      obtain ⟨fee, hfee, -⟩ := hacc
      obtain ⟨valueIn, hin, -⟩ := Verdict.bind_eq_ok.mp hfee
      exact ⟨valueIn, (Tx.sum_of_valueInFrom hin (le_refl 0)).1⟩

/-- The walk leaves the coins of each transaction. -/
theorem fetched_of_steps {loaded : CoinSet} {txs : List Tx}
    (h : (start loaded).steps c txs = .ok t) :
    List.Forall₂ Tx.Fetched txs t.inputCoins.reverse := by
  refine steps_induction (P := fun done s => List.Forall₂ Tx.Fetched done s.inputCoins.reverse)
    h .nil ?_
  intro done rest tx coins s t _ hdone hstep
  rw [hstep.inputCoins, List.reverse_cons]
  exact List.rel_append hdone (.cons hstep.fetched .nil)

end Spending

/-! ## Rules about coins -/

namespace Validation

variable {α β : Type} {m : Validation α} {p : Progress} {s : Surroundings}

/-- From a state it may end early for a reason, but it has no fault. -/
def FaultlessFrom (p : Progress) (m : Validation α) : Prop :=
  ∀ f q, m p ≠ .error (.fault f) q

namespace FaultlessFrom

theorem pure (a : α) : FaultlessFrom p (Pure.pure a) :=
  nofun

theorem bind {g : α → Validation β} (hm : FaultlessFrom p m)
    (hg : ∀ a q, m p = .ok a q → FaultlessFrom q (g a)) : FaultlessFrom p (m >>= g) := by
  intro f q h
  rcases Stateful.bind_eq_error.mp h with h | ⟨a, u, ha, h⟩
  · exact hm f q h
  · exact hg a u ha f q h

theorem get_bind {g : Progress → Validation α} (h : FaultlessFrom p (g p)) :
    FaultlessFrom p (get >>= g) :=
  h

theorem modify (k : Progress → Progress) : FaultlessFrom p (modify k : Validation PUnit) :=
  nofun

theorem demand (condition : Bool) (e : ConsensusError) :
    FaultlessFrom p (Validation.demand condition e) := by
  cases condition with
  | true => exact pure ()
  | false => exact nofun

theorem ofExcept {x : Except Rejection α} (h : Faultless x) :
    FaultlessFrom p (Validation.ofExcept x) := by
  intro f q hf
  exact h f (ofExcept_eq_error.mp hf).1

theorem checkCancelled (s : Surroundings) : FaultlessFrom p (Validation.checkCancelled s) := by
  refine get_bind ?_
  cases s.cancelled p.lookups with
  | true => exact nofun
  | false => exact pure ()

theorem lookup (s : Surroundings) (o : OutPoint) : FaultlessFrom p (Validation.lookup s o) :=
  nofun

end FaultlessFrom

end Validation

namespace Candidate

open Validation

variable {c : Candidate} {s : Surroundings} {p : Progress}

theorem faultlessFrom_bip30 : FaultlessFrom p (CoinsRule.bip30.run c s) := by
  have hnone : ∀ (places : List OutPoint) {p : Progress},
      FaultlessFrom p (CoinSet.noneAt (Validation.lookup s) places) := by
    intro places
    induction places with
    | nil => exact .pure true
    | cons o rest ih =>
        intro p
        refine (FaultlessFrom.lookup s o).bind fun found q _ => ?_
        cases found.isSome with
        | true => exact .pure false
        | false => exact ih
  change FaultlessFrom p (if c.rules.bip30 then _ else _)
  split
  · exact (hnone _).bind fun free q _ => .demand free _
  · exact .pure ()

theorem faultless_checkReward (h : c.Regular) (fees minted : Int) :
    Faultless (c.checkReward fees minted) := by
  have hreward : ∃ reward,
      Subsidy.reward (UInt32.ofNat c.height) c.isStaked c.params = .ok reward := by
    have hheight : ∃ reward, Subsidy.atHeight (UInt32.ofNat c.height) c.params = .ok reward :=
      exists_bind (quotient_of_pos h.params.subsidyHalvingInterval) ⟨_, rfl⟩
    rw [Subsidy.reward]
    split
    · exact ⟨_, rfl⟩
    · rw [Subsidy.mined]
      cases c.params.stake with
      | none => exact hheight
      | some stake =>
          dsimp only
          split
          · exact ⟨_, rfl⟩
          · exact hheight
  refine (Faultless.lift hreward).bind fun reward _ => .ite (fun _ => .demand _ _) fun _ => ?_
  rw [Block.checkCoinbaseReward]
  cases c.block.txs.head?.bind Tx.totalOut? with
  | none => exact .consensus _
  | some paid => exact .demand _ _

theorem faultlessFrom_spendCoins (h : c.Regular) (hpays : ∀ tx ∈ c.block.txs, tx.PaysAmounts) :
    FaultlessFrom p (CoinsRule.spendCoins.run c s) := by
  intro f q herror
  rcases spendCoins_eq_error herror with hsteps | ⟨t, hreward⟩
  · exact Spending.faultless_steps hpays _ f hsteps
  · exact faultless_checkReward h t.fees t.minted f hreward

/-! ## Rules after the coins were spent -/

/-- The coins that were fetched for the transactions of the block are at hand. -/
def Supplied (c : Candidate) (p : Progress) : Prop :=
  List.Forall₂ Tx.Fetched c.block.txs p.inputCoins

theorem Supplied.fetched (h : c.Supplied p) {k : Nat} {tx : Tx} (htx : c.block.txs[k]? = some tx) :
    ∃ coins, p.inputCoins[k]? = some coins ∧ tx.Fetched coins := by
  obtain ⟨hk, rfl⟩ := List.getElem?_eq_some_iff.mp htx
  have hlength : k < p.inputCoins.length := h.length_eq ▸ hk
  exact ⟨_, List.getElem?_eq_getElem hlength, h.get hk hlength⟩

/-- The second transaction of a staked block is the coinstake, and it has an input. -/
theorem exists_coinstake {b : Block} (h : b.isProofOfStake = true) :
    ∃ stake, b.txs[1]? = some stake ∧ stake.isCoinstake = true ∧
      ∃ input, StakeRule.stakeInput? b = some input := by
  rw [Block.isProofOfStake] at h
  split at h
  · next first stake rest htxs =>
      refine ⟨stake, by rw [htxs]; rfl, h, ?_⟩
      rw [Tx.isCoinstake] at h
      split at h
      · next input others _ _ _ hinputs _ =>
          refine ⟨input, ?_⟩
          rw [StakeRule.stakeInput?, htxs]
          change stake.inputs.head? = some input
          rw [hinputs]
          rfl
      · cases h
  · cases h

theorem faultless_record (inputCoins : List (List Coin)) :
    Faultless (StakeRule.record c inputCoins) := by
  refine faultless_stakeParams.bind fun p _ => ?_
  have hstaked : ∀ previous prevout coin,
      Faultless (StakeRule.stakedRecord c p previous prevout coin) := by
    intro previous prevout coin
    refine (Faultless.demand _ _).bind fun _ _ => ?_
    have hkernel : Faultless ((Stake.checkKernel previous c.header.bits coin prevout
        c.header.time).mapError Rejection.consensus) := by
      intro f h
      obtain ⟨_, _, h⟩ := Verdict.mapError_eq_error.mp h
      cases h
    exact hkernel.bind fun proof _ => .ok _
  refine .ite (fun hs => ?_) fun _ => .ok _
  obtain ⟨_, _, _, input, hinput⟩ := exists_coinstake hs
  rw [hinput]
  cases c.previous?.bind fun b => b.tip.stake with
  | none => exact .consensus _
  | some previous =>
      cases inputCoins[1]?.bind List.head? with
      | none => exact .consensus _
      | some coin => exact (hstaked previous input.prevout coin).bind fun record _ => .ok _

theorem faultless_checkColdStaking {coins : List Coin} (script : Script) (stake : Tx)
    (hsum : ∃ sum, sumInt64From 0 (coins.map fun coin => coin.output.value.toInt) = some sum) :
    Faultless (StakeRule.checkColdStaking coins script stake) := by
  obtain ⟨sum, hsum⟩ := hsum
  refine .ite (fun _ => ?_) fun _ => .ok ()
  refine (Faultless.demand _ _).bind fun _ _ => (Faultless.demand _ _).bind fun _ _ => ?_
  rw [hsum]
  cases stake.totalOut? with
  | none => exact .consensus _
  | some out => exact .demand _ _

theorem faultlessFrom_proofOfStake : FaultlessFrom p (StakeRule.proofOfStake.run c s) :=
  .get_bind ((FaultlessFrom.ofExcept (faultless_record _)).bind fun _ _ _ => .modify _)

theorem faultlessFrom_coldStaking (hp : c.Supplied p) :
    FaultlessFrom p (StakeRule.coldStaking.run c s) := by
  change FaultlessFrom p (if c.block.isProofOfStake then _ else _)
  split
  · refine .get_bind ?_
    split
    · next first rest stake hcoins hstake =>
        obtain ⟨coins, hat, hfetched⟩ := hp.fetched hstake
        obtain rfl := Option.some.inj (hcoins.symm.trans hat)
        exact .ofExcept (faultless_checkColdStaking _ stake hfetched.sum)
    · exact .pure ()
  · exact .pure ()

/-- The inputs of a transaction from an index on have their coins. -/
theorem faultlessFrom_checkInputs {tx : Tx} {coins : List Coin} {inputs : List TxIn}
    (hwitness : ∀ i ∈ tx.inputs, i.witness.length < 2 ^ 63)
    (hlength : tx.inputs.length = coins.length) (shared : TxDigests) {index : Nat}
    (hindex : index + inputs.length = tx.inputs.length) :
    FaultlessFrom p (CoinsRule.checkInputs c s tx shared coins index inputs) := by
  induction inputs generalizing index p with
  | nil => exact .pure ()
  | cons i rest ih =>
      rw [List.length_cons] at hindex
      have hlt : index < coins.length := by omega
      refine (FaultlessFrom.checkCancelled s).bind fun _ q _ => ?_
      rw [List.getElem?_eq_getElem hlt]
      have hverdict : Faultless ((Eval.verifyInput tx index coins[index].output c.rules.script
          (some shared)).mapError Rejection.ofHalt) := by
        intro f h
        obtain ⟨halt, herror, h⟩ := Verdict.mapError_eq_error.mp h
        cases halt with
        | error e => cases h
        | fault g => exact Eval.verifyInput_ne_fault (hlength ▸ hlt) hwitness _ _ _ g herror
      exact (FaultlessFrom.ofExcept hverdict).bind fun _ _ _ => ih (by omega)

theorem faultlessFrom_checkTxs {txs : List (Tx × Option (List Coin))}
    (h : ∀ e ∈ txs, (∀ i ∈ e.1.inputs, i.witness.length < 2 ^ 63) ∧
      ∃ coins, e.2 = some coins ∧ e.1.Fetched coins) :
    FaultlessFrom p (CoinsRule.checkTxs c s txs) := by
  induction txs generalizing p with
  | nil => exact .pure ()
  | cons e rest ih =>
      rw [List.forall_mem_cons] at h
      obtain ⟨tx, fetched⟩ := e
      obtain ⟨hwitness, coins, hcoins, hfetched⟩ := h.1
      dsimp only at hwitness hcoins hfetched
      subst hcoins
      rw [CoinsRule.checkTxs]
      cases hc : tx.isCoinbase with
      | true => exact ih h.2
      | false =>
          have hlength := hfetched.length
          rw [Tx.spentPlaces, hc, if_neg Bool.false_ne_true, List.length_map] at hlength
          exact (faultlessFrom_checkInputs hwitness hlength _ (Nat.zero_add _)).bind
            fun _ _ _ => ih h.2

theorem faultlessFrom_scripts (h : c.Regular) (hp : c.Supplied p) :
    FaultlessFrom p (CoinsRule.scripts.run c s) := by
  refine .get_bind (faultlessFrom_checkTxs fun e he => ?_)
  obtain ⟨⟨tx, k⟩, hk, rfl⟩ := List.mem_map.mp he
  have hat : c.block.txs[k]? = some tx := List.mem_zipIdx_iff_getElem?.mp hk
  refine ⟨fun i hi => ?_, hp.fetched hat⟩
  have hwitness : i.witness.length ≤ tx.totalSize :=
    i.length_witness_le.trans (Tx.witnessSize_le_totalSize hi)
  have htotal := Block.totalSize_le_of_mem (List.mem_of_getElem? hat)
  have hsize := h.size
  omega

theorem faultlessFrom_lateRule (h : c.Regular) (hp : c.Supplied p) {rule : CoinRule}
    (hrule : rule ∈ lateRules c.params) : FaultlessFrom p (rule.run c s) := by
  rcases List.mem_append.mp hrule with hrule | hrule
  · have hmem := mem_of_mem_whereStaked hrule
    simp only [List.mem_cons, List.not_mem_nil, or_false] at hmem
    rcases hmem with rfl | rfl
    · exact faultlessFrom_proofOfStake
    · exact faultlessFrom_coldStaking hp
  · rw [List.mem_singleton.mp hrule]
    exact faultlessFrom_scripts h hp

/-! ## All rules -/

theorem faultlessFrom_runAll_cons {rule : CoinRule} {rules : List CoinRule}
    (hrule : FaultlessFrom p (rule.run c s))
    (hrest : ∀ q, rule.run c s p = .ok () q → FaultlessFrom q (c.runAll s rules)) :
    FaultlessFrom p (c.runAll s (rule :: rules)) := by
  refine (FaultlessFrom.checkCancelled s).bind fun _ q hq => ?_
  rw [(checkCancelled_eq_ok.mp hq).2]
  exact hrule.bind fun _ q hq => hrest q hq

/-- Rules that leave the effect of the block as it is leave the coins at hand. -/
theorem faultlessFrom_runAll {rules : List CoinRule} (hp : c.Supplied p)
    (hrules : ∀ rule ∈ rules, Quiet (rule.run c s) ∧
      ∀ {p}, c.Supplied p → FaultlessFrom p (rule.run c s)) :
    FaultlessFrom p (c.runAll s rules) := by
  induction rules generalizing p with
  | nil => exact .pure ()
  | cons rule rest ih =>
      rw [List.forall_mem_cons] at hrules
      refine faultlessFrom_runAll_cons (hrules.1.2 hp) fun q hq => ih ?_ hrules.2
      have hcoins := congrArg Progress.inputCoins (hrules.1.1.effect_eq hq)
      change q.inputCoins = p.inputCoins at hcoins
      rwa [Supplied, hcoins]

theorem faultlessFrom_coinRules (h : c.Regular) (hplain : c.checkPlain = .ok ()) :
    FaultlessFrom p (c.runAll s c.params.coinRules) := by
  have hpays := paysAmounts_of_checkPlain hplain
  change FaultlessFrom p (c.runAll s (CoinsRule.loadCoins :: CoinsRule.bip30 ::
    CoinsRule.spendCoins :: lateRules c.params))
  refine faultlessFrom_runAll_cons (fun _ _ => loadCoins_ne_error) fun _ _ => ?_
  refine faultlessFrom_runAll_cons faultlessFrom_bip30 fun _ _ => ?_
  refine faultlessFrom_runAll_cons (faultlessFrom_spendCoins h hpays) fun q hspend => ?_
  obtain ⟨t, hsteps, -, rfl⟩ := spendCoins_eq_ok hspend
  exact faultlessFrom_runAll (Spending.fetched_of_steps hsteps) fun rule hrule =>
    ⟨quiet_of_mem_lateRules hrule, fun hp => faultlessFrom_lateRule h hp hrule⟩

/-- The fourth phase has no fault after the first three went through. -/
theorem faultless_validateCoins (h : c.Regular) (hplain : c.checkPlain = .ok ()) :
    Faultless (c.validateCoins s) := by
  have hconfirm : ∀ (spent : PlacedCoins) {p : Progress},
      FaultlessFrom p (confirmSpent s spent) := by
    intro spent
    induction spent with
    | nil => exact .pure ()
    | cons e rest ih =>
        exact (FaultlessFrom.lookup s e.1).bind fun _ _ _ =>
          (FaultlessFrom.demand _ _).bind fun _ _ _ => ih
  have hrun : FaultlessFrom Progress.start (c.runCoins s) := by
    refine (FaultlessFrom.modify _).bind fun _ _ _ => ?_
    refine (faultlessFrom_coinRules h hplain).bind fun _ _ _ => ?_
    refine (FaultlessFrom.checkCancelled s).bind fun _ _ _ => ?_
    split
    · exact .get_bind ((hconfirm _).bind fun _ _ _ => .get_bind (.pure _))
    · exact .get_bind (.pure _)
  intro f herror
  rw [validateCoins] at herror
  split at herror
  · cases herror
  · next e q hq =>
      cases herror
      exact hrun f q hq

/-- A candidate that is regular is accepted, or turned down for a reason. -/
theorem faultless_validate (h : c.Regular) (s : Surroundings) : Faultless (c.validate s) :=
  (faultless_checkPlain h).bind fun _ hplain => faultless_validateCoins h hplain

end Candidate

/-! ## Blocks -/

namespace Block

variable {p : Params} {previous : Option Branch}

theorem exists_place (hheight : ∀ a, previous = some a → a.height < 2 ^ 32 - 2)
    (header : BlockHeader) :
    ∃ branch, Candidate.place previous header = .ok branch ∧ branch.parent? = previous := by
  cases previous with
  | none => exact ⟨_, rfl, rfl⟩
  | some a =>
      have hfits : a.tip.height + 1 < 2 ^ 32 := by
        have : a.tip.height < 2 ^ 32 - 2 := hheight a rfl
        omega
      exact ⟨_, Verdict.bind_eq_ok.mpr ⟨_, fitWord_of_lt hfits, rfl⟩, rfl⟩

/-- A block has its place and its rules, whatever is known of deployments. -/
theorem answered_candidate (hp : p.Regular)
    (hheight : ∀ a, previous = some a → a.height < 2 ^ 32 - 2) (b : Block)
    (adjustedTime : UInt32) :
    Deployment.Answered (b.candidate p previous adjustedTime) fun c =>
      c.params = p ∧ c.block = b ∧ c.previous? = previous := by
  refine (Deployment.answered_ofBlock hp hheight b.header).bind fun rules _ => ?_
  obtain ⟨branch, hplace, hparent⟩ := exists_place hheight b.header
  refine .lift ⟨⟨p, b, branch, adjustedTime, rules⟩, ?_, rfl, rfl, hparent⟩
  rw [Candidate.ofBlock, hplace]
  rfl

/-- A block after a branch is accepted or turned down for a reason, whatever is known of deployments
and whatever coins its lookups find, and it has no fault; and once its size was looked at, its
signature operations can be counted. This is so under regular parameters, for blocks that can be
held in memory. Where a network lets amounts be as large as `2 ^ 62`, no part of the outputs of a
transaction may pay just one more than can be kept. -/
theorem connect_without_fault (b : Block) (p : Params) (previous : Option Branch)
    (adjustedTime : UInt32) (hp : p.Regular)
    (hheight : ∀ a, previous = some a → a.height < 2 ^ 32 - 2) (hsize : b.totalSize < 2 ^ 54)
    (hsums : p.maxMoney.toInt = 2 ^ 62 → ∀ tx ∈ b.txs, tx.SumsFit) :
    (∀ known, ∃ c left, (b.candidate p previous adjustedTime).run known = .ok (c, left) ∧
      ∀ s f, c.validate s ≠ .error (.fault f)) ∧
    (∀ set known, ∃ r left,
      (b.connect p previous adjustedTime set).run known = .ok (r, left) ∧
        ∀ f, r ≠ .error (.fault f)) ∧
    ∀ c : Candidate, c.params = p → c.block = b → BodyRule.size.check c = .ok () →
      b.CountsFit := by
  have hcandidate := answered_candidate hp hheight b adjustedTime
  have hvalidate : ∀ c : Candidate, c.params = p ∧ c.block = b ∧ c.previous? = previous →
      ∀ s, Faultless (c.validate s) := by
    rintro c ⟨rfl, rfl, rfl⟩ s
    exact Candidate.faultless_validate ⟨hp, hheight, hsize, hsums⟩ s
  refine ⟨fun known => ?_, fun set => ?_, ?_⟩
  · obtain ⟨c, left, hrun, hc⟩ := hcandidate known
    exact ⟨c, left, hrun, hvalidate c hc⟩
  · have hconnect : Deployment.Answered (b.connect p previous adjustedTime set) Faultless := by
      refine hcandidate.bind fun c hc => .pure fun f hf => ?_
      cases hv : c.validate (.still set) with
      | ok v =>
          rw [hv] at hf
          cases hf
      | error e =>
          rw [hv] at hf
          cases hf
          exact hvalidate c hc (.still set) f hv
    exact hconnect
  · rintro c rfl rfl hcheck
    exact countsFit_of_le ((Candidate.sizes_of_sizeRule hcheck).2.trans hp.maxBlockSerializedSize)

end Block

namespace Sample

/-- A network where amounts may be as large as they go. -/
def generous : Params :=
  { Params.regtest with maxMoney := 4611686018427387904 }

theorem regular_generous : generous.Regular where
  medianTimeSpan := by decide
  minerConfirmationWindow := by decide
  subsidyHalvingInterval := by decide
  powTargetSpacing := by decide
  powTargetTimespan := by decide
  witnessScaleFactor := by decide
  maxBlockWeight := by decide
  maxBlockSerializedSize := by decide
  targetSpacing := nofun
  bits := by decide
  maxMoney := by decide

/-- A block with one transaction. -/
def single (tx : Tx) : Block where
  header := ⟨4, Digest.zero, tx.id, 1600000000, 0x207fffff, 0⟩
  txs := [tx]
  signature := []

/-- A coinbase whose outputs pay `2 ^ 62` each. -/
def lavish : Tx where
  version := 1
  inputs := [⟨OutPoint.null, ⟨[0x51, 0]⟩, sequenceFinal, []⟩]
  outputs := [⟨4611686018427387904, anyone⟩, ⟨4611686018427387904, anyone⟩]
  lockTime := 0

/-- Whether the answer is that an amount could not be kept. -/
def overflows (r : Except Fault (Except Rejection (Validated × CoinSet) × Deployment.Cache)) :
    Bool :=
  match r with
  | .ok (.error (.fault .overflow), _) => true
  | _ => false

theorem eq_of_overflows
    {r : Except Fault (Except Rejection (Validated × CoinSet) × Deployment.Cache)}
    (h : overflows r) : ∃ left, r = .ok (.error (.fault .overflow), left) := by
  unfold overflows at h
  split at h
  · exact ⟨_, rfl⟩
  · cases h

end Sample

/-- The first block of such a network has a fault when it pays `2 ^ 62` twice: its amounts leave the
range of what is kept before their sum is looked at. -/
theorem connect_lavish :
    Sample.generous.Regular ∧ ∃ left,
      ((Sample.single Sample.lavish).connect Sample.generous none 1600000000 ∅).run [] =
        .ok (.error (.fault .overflow), left) :=
  ⟨Sample.regular_generous, Sample.eq_of_overflows (by decide +kernel)⟩

/-- On the same network a block after that one has a verdict if its coinbase pays 50 whole coins. -/
theorem connect_without_fault_modest :
    ∃ r left,
      ((Sample.single Sample.coinbase).connect Sample.generous
        (some (Branch.root (Sample.single Sample.lavish).header)) 1600000000 Sample.coins).run [] =
          .ok (r, left) ∧ ∀ f, r ≠ .error (.fault f) := by
  have hsums : ∀ tx ∈ (Sample.single Sample.coinbase).txs, tx.SumsFit := by
    intro tx htx
    obtain rfl := List.mem_singleton.mp htx
    intro k
    cases k with
    | zero => decide
    | succ k =>
        rw [List.take_of_length_le (Nat.le_add_left 1 k)]
        decide
  have hheight : ∀ a, some (Branch.root (Sample.single Sample.lavish).header) = some a →
      a.height < 2 ^ 32 - 2 := by
    rintro a ⟨⟩
    decide
  exact (Block.connect_without_fault (Sample.single Sample.coinbase) Sample.generous _ 1600000000
    Sample.regular_generous hheight (by decide +kernel) fun _ => hsums).2.1 Sample.coins []

end StakeChain
