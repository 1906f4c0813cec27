/-
How much money a block makes.

What a block makes is the worth of the coins it leaves behind less that of
the coins it took. The accounts of its transactions bound it by what its
coinbase pays and its coinstakes gain, less the fees. The rules about rewards
say the rest: a network with staking looks at the gain of the one coinstake
it allows, and one without does not look at gains at all.
-/
import StakeChain.Proofs.Accounts
import StakeChain.Proofs.Engine

namespace StakeChain

/-! ## The whole block -/

/-- What a block makes: what it leaves behind is worth that much more than what it took. -/
def Validated.issued (v : Validated) : Int :=
  total (v.created.map Prod.snd) - total (v.undo.spent.map Prod.snd)

namespace Candidate

variable {c : Candidate} {s : Surroundings} {v : Validated} {loaded : CoinSet} {t : Spending}

/-- Every place that the block touches. -/
def touched (c : Candidate) : Finset OutPoint :=
  (c.block.spentPlaces ++ (c.block.createdCoins c.height).map Prod.fst).toFinset

theorem mem_touched {o : OutPoint} :
    o ∈ c.touched ↔
      o ∈ c.block.spentPlaces ∨ o ∈ (c.block.createdCoins c.height).map Prod.fst := by
  rw [touched, List.mem_toFinset, List.mem_append]

theorem Found.accounts (h : c.Found s v loaded t) (hp : ∀ tx ∈ c.block.txs, tx.PaysAmounts) :
    Spending.Accounts c.block.txIds loaded c.touched c.block.txs t := by
  refine Spending.steps_induction h.steps (Spending.accounts_start fun _ => h.none_loaded) ?_
  intro done rest tx coins s t hall ha hstep
  have htx : tx ∈ c.block.txs := hall ▸ List.mem_append_right _ List.mem_cons_self
  refine ha.step hstep (hp tx htx) (Block.mem_txIds.mpr (List.mem_map_of_mem htx)) ?_ ?_
  · exact fun o ho => mem_touched.mpr (.inl (Block.mem_spentPlaces htx ho))
  · exact fun o ho => mem_touched.mpr (.inr (Block.mem_createdPlaces htx ho))

theorem Found.worth_eq (h : c.Found s v loaded t) :
    t.available.worth c.touched = loaded.worth c.touched + v.issued := by
  have hsp : ∀ o ∈ t.spent.reverse.map Prod.fst, o ∈ c.touched := by
    intro o ho
    rw [← h.spent, h.spent_places] at ho
    exact mem_touched.mpr (.inl (CoinSet.mem_externalPlaces.mp ho).1)
  have hcp : ∀ o ∈ t.created.map Prod.fst, o ∈ c.touched := by
    intro o ho
    rw [← h.created] at ho
    obtain ⟨e, he, rfl⟩ := List.mem_map.mp ho
    obtain ⟨hid, hcoin⟩ := h.mem_created.mp he
    rw [mem_touched, Block.createdCoins_places]
    exact .inr (h.mem_places hid hcoin)
  have hworth := h.sound.worth_eq (fun _ => h.none_loaded) hsp hcp
  rw [Validated.issued, h.spent, h.created]
  omega

/-- A block makes no more than its transactions pay beyond what they take. -/
theorem Found.issued_le (h : c.Found s v loaded t) (hp : ∀ tx ∈ c.block.txs, tx.PaysAmounts) :
    v.issued + (t.inputCoins.map total).sum ≤ (c.block.txs.map Tx.paid).sum := by
  have hworth := (h.accounts hp).worth
  have heq := h.worth_eq
  omega

end Candidate

/-! ## What the rules ask -/

/-- What is below a sum that is kept in range is below the sum, unless it is at the lower end. -/
theorem Block.le_of_le_saturatingAdd {a b x : Int} (h : x ≤ saturatingAdd a b)
    (hx : Int64.minValue.toInt < x) : x ≤ a + b := by
  rw [saturatingAdd] at h
  omega

namespace Tx

theorem inMoneyRange_of_checkAmounts {p : Params} {sum : Int} {outputs : List TxOut}
    (h : checkAmounts p sum outputs = .ok ()) :
    ∀ o ∈ outputs, p.inMoneyRange o.value.toInt = true := by
  induction outputs generalizing sum with
  | nil => exact fun _ ho => absurd ho List.not_mem_nil
  | cons o rest ih =>
      obtain ⟨_, hnonneg, h⟩ := Verdict.bind_eq_ok.mp h
      obtain ⟨_, hmost, h⟩ := Verdict.bind_eq_ok.mp h
      obtain ⟨_, _, h⟩ := Verdict.bind_eq_ok.mp h
      obtain ⟨_, _, h⟩ := Verdict.bind_eq_ok.mp h
      rw [Verdict.demand_eq_ok, decide_eq_true_eq] at hnonneg hmost
      rw [List.forall_mem_cons]
      exact ⟨Params.inMoneyRange_iff.mpr ⟨hnonneg, hmost⟩, ih h⟩

/-- A transaction that was looked at by itself has amounts in range. -/
theorem inMoneyRange_of_check {tx : Tx} {p : Params} (h : tx.check p = .ok ()) :
    ∀ o ∈ tx.outputs, p.inMoneyRange o.value.toInt = true := by
  obtain ⟨_, _, h⟩ := Verdict.bind_eq_ok.mp h
  obtain ⟨_, _, h⟩ := Verdict.bind_eq_ok.mp h
  obtain ⟨_, _, h⟩ := Verdict.bind_eq_ok.mp h
  obtain ⟨_, _, h⟩ := Verdict.bind_eq_ok.mp h
  obtain ⟨_, ha, _⟩ := Verdict.bind_eq_ok.mp h
  exact inMoneyRange_of_checkAmounts ha

theorem paysAmounts_of_check {tx : Tx} {p : Params} (h : tx.check p = .ok ()) :
    tx.PaysAmounts := by
  intro o ho
  exact (Params.inMoneyRange_iff.mp (inMoneyRange_of_check h o ho)).1

end Tx

namespace Candidate

variable {c : Candidate} {s : Surroundings} {v : Validated} {loaded : CoinSet} {t : Spending}

theorem validate_eq_ok :
    c.validate s = .ok v ↔ c.checkPlain = .ok () ∧ c.validateCoins s = .ok v := by
  rw [validate, Verdict.bind_eq_ok]
  exact ⟨fun ⟨_, hp, hv⟩ => ⟨hp, hv⟩, fun ⟨hp, hv⟩ => ⟨(), hp, hv⟩⟩

theorem check_of_checkPlain {r : PlainRule} (h : c.checkPlain = .ok ())
    (hr : r ∈ c.params.plainRules) : r.check c = .ok () :=
  Verdict.forM_eq_ok.mp h r hr

/-- Every transaction was looked at by itself. -/
theorem checkTxs_of_checkPlain (h : c.checkPlain = .ok ()) :
    ∀ tx ∈ c.block.txs, tx.check c.params = .ok () := by
  have hrule : BodyRule.transactions ∈ c.params.plainRules := by
    simp [Params.plainRules, Params.partialRules]
  exact Verdict.forM_eq_ok.mp (check_of_checkPlain h hrule)

theorem paysAmounts_of_checkPlain (h : c.checkPlain = .ok ()) :
    ∀ tx ∈ c.block.txs, tx.PaysAmounts := by
  intro tx htx
  exact Tx.paysAmounts_of_check (checkTxs_of_checkPlain h tx htx)

/-- The first transaction is the only coinbase. -/
theorem coinbases_of_checkPlain (h : c.checkPlain = .ok ()) :
    ∃ first rest, c.block.txs = first :: rest ∧ first.isCoinbase = true ∧
      c.block.txs.filter Tx.isCoinbase = [first] := by
  have hrule : BodyRule.coinbase ∈ c.params.plainRules := by
    simp [Params.plainRules, Params.integrityRules]
  obtain ⟨_, hfirst, hrest⟩ := Verdict.bind_eq_ok.mp (check_of_checkPlain h hrule)
  rw [Verdict.demand_eq_ok] at hfirst hrest
  cases htxs : c.block.txs with
  | nil =>
      rw [htxs] at hfirst
      cases hfirst
  | cons first rest =>
      rw [htxs] at hfirst hrest
      change first.isCoinbase = true at hfirst
      rw [List.drop_succ_cons, List.drop_zero, Bool.not_eq_true', List.any_eq_false] at hrest
      refine ⟨first, rest, rfl, hfirst, ?_⟩
      rw [List.filter_cons_of_pos hfirst, List.filter_eq_nil_iff.mpr hrest]

/-- What a coinbase pays. -/
def coinbasePaid (c : Candidate) : Int :=
  (c.block.txs.head?.map Tx.paid).getD 0

theorem checkReward_eq_ok {fees minted : Int} (h : c.checkReward fees minted = .ok ())
    (hp : ∀ tx ∈ c.block.txs, tx.PaysAmounts) (hm : Int64.minValue.toInt < minted) :
    ∃ reward, Subsidy.reward (UInt32.ofNat c.height) c.isStaked c.params = .ok reward ∧
      if c.isStaked then minted ≤ fees + reward else c.coinbasePaid ≤ fees + reward := by
  obtain ⟨reward, hr, h⟩ := Verdict.bind_eq_ok.mp h
  refine ⟨reward, Verdict.mapError_eq_ok.mp hr, ?_⟩
  by_cases hs : c.isStaked = true
  · rw [if_pos hs] at h ⊢
    exact Block.le_of_le_saturatingAdd
      (of_decide_eq_true (Verdict.demand_eq_ok.mp h)) hm
  · rw [if_neg hs] at h ⊢
    rw [Block.checkCoinbaseReward] at h
    cases hhead : c.block.txs.head? with
    | none =>
        rw [hhead] at h
        cases h
    | some first =>
        rw [hhead, Option.bind_some] at h
        cases ho : first.totalOut? with
        | none =>
            rw [ho] at h
            cases h
        | some paid =>
            rw [ho] at h
            have hle := of_decide_eq_true (Verdict.demand_eq_ok.mp h)
            have hnonneg := (hp first (List.mem_of_head? hhead)).paid_nonneg
            rw [Tx.totalOut_eq_some ho] at hle
            have hmin : Int64.minValue.toInt < 0 := by decide
            rw [coinbasePaid, hhead]
            exact Block.le_of_le_saturatingAdd hle (lt_of_lt_of_le hmin hnonneg)

/-- What coinstakes gain together, when transactions spend those coins. -/
def stakeGains (c : Candidate) (inputCoins : List (List Coin)) : Int :=
  Spending.gains (Spending.stakes (c.block.txs.zip inputCoins))

/-- What transactions pay, less what they take: the coinbase, the gains of coinstakes, and no
fees. -/
theorem Found.flow (h : c.Found s v loaded t) (hc : c.checkPlain = .ok ()) :
    (c.block.txs.map Tx.paid).sum + v.fees =
      (t.inputCoins.reverse.map total).sum + c.coinbasePaid +
        c.stakeGains t.inputCoins.reverse := by
  have hflow := (h.accounts (paysAmounts_of_checkPlain hc)).flow
  obtain ⟨first, rest, htxs, _, hfilter⟩ := coinbases_of_checkPlain hc
  have hpaid : ((c.block.txs.filter Tx.isCoinbase).map Tx.paid).sum = c.coinbasePaid := by
    rw [hfilter, coinbasePaid, htxs]
    exact add_zero _
  rw [hpaid, ← h.fees] at hflow
  rw [List.map_reverse, List.sum_reverse]
  exact hflow

/-- What was paid and is not spent in the block, but is not left behind either: outputs that nobody
can spend, and coins that made room for others. -/
def lost (c : Candidate) (v : Validated) (inputCoins : List (List Coin)) : Int :=
  (c.block.txs.map Tx.paid).sum -
    ((inputCoins.map total).sum - total (v.undo.spent.map Prod.snd)) -
    total (v.created.map Prod.snd)

/-- What the coinbase might have paid in addition. -/
def unclaimed (c : Candidate) (v : Validated) (reward : Int) : Int :=
  v.fees + reward - c.coinbasePaid

/-! ## Networks without staking -/

/-- A block of a network without staking makes its reward, without what its coinbase leaves and
what is lost, and in addition whatever its coinstakes gain, which no rule bounds there. So it makes
no more than its reward exactly if these gains are made up for; and it does if it has none. -/
theorem issued_of_mined_network (c : Candidate) (s : Surroundings) (v : Validated)
    (hnet : c.params.stake = none) (h : c.validate s = .ok v) :
    ∃ p reward, c.runCoins s Progress.start = .ok v p ∧
      Subsidy.reward (UInt32.ofNat c.height) false c.params = .ok reward ∧
      0 ≤ c.unclaimed v reward ∧ 0 ≤ c.lost v p.inputCoins ∧
      v.issued =
        reward + c.stakeGains p.inputCoins - c.unclaimed v reward - c.lost v p.inputCoins ∧
      (v.issued ≤ reward ↔
        c.stakeGains p.inputCoins ≤ c.unclaimed v reward + c.lost v p.inputCoins) ∧
      ((∀ tx ∈ c.block.txs, tx.isCoinstake = false) → v.issued ≤ reward) := by
  obtain ⟨hc, hv⟩ := validate_eq_ok.mp h
  obtain ⟨p, hp⟩ := validateCoins_eq_ok.mp hv
  obtain ⟨loaded, t, hf, hinputs⟩ := found_of_runCoins hp
  have hpays := paysAmounts_of_checkPlain hc
  have hstaked : c.isStaked = false := by
    rw [isStaked, Params.isProofOfStake, hnet]
    rfl
  obtain ⟨reward, hr, hle⟩ := checkReward_eq_ok hf.reward hpays (hf.accounts hpays).minted_gt
  rw [hstaked] at hr
  rw [hstaked, if_neg Bool.false_ne_true, ← hf.fees] at hle
  have hflow := hf.flow hc
  have hissued := hf.issued_le hpays
  rw [← List.sum_reverse, ← List.map_reverse] at hissued
  rw [← hinputs] at hflow hissued
  -- the rules bound the coinbase alone, so the gains stay in the equation
  have hunclaimed : 0 ≤ c.unclaimed v reward := by
    rw [unclaimed]
    omega
  have hlost : 0 ≤ c.lost v p.inputCoins := by
    rw [Validated.issued] at hissued
    rw [lost]
    omega
  have heq : v.issued =
      reward + c.stakeGains p.inputCoins - c.unclaimed v reward - c.lost v p.inputCoins := by
    rw [Validated.issued, unclaimed, lost]
    omega
  refine ⟨p, reward, hp, hr, hunclaimed, hlost, heq, by omega, fun hnone => ?_⟩
  have hzero : c.stakeGains p.inputCoins = 0 := by
    have hnil : Spending.stakes (c.block.txs.zip p.inputCoins) = [] := by
      refine List.filter_eq_nil_iff.mpr fun e he => ?_
      rw [hnone e.1 (List.of_mem_zip he).1]
      exact Bool.false_ne_true
    rw [stakeGains, hnil]
    rfl
  omega

end Candidate

namespace Sample

/-- Shaped like a coinstake: it takes 5 and pays 1000 whole coins. -/
def shaped : Tx where
  version := 1
  inputs := [⟨place, Script.empty, sequenceFinal, []⟩]
  outputs := [⟨0, Script.empty⟩, ⟨100000000000, anyone⟩]
  lockTime := 0

/-- A block of a network without staking that has such a transaction. -/
def minting : Candidate :=
  first .regtest
    { header :=
        { version := 4
          prev := Digest.zero
          merkleRoot :=
            ⟨[0xcf, 0x6b, 0xff, 0x1f, 0x6b, 0x69, 0x22, 0x1d, 0x13, 0xb3, 0x3b, 0x8a, 0xff, 0x24,
              0xf4, 0x84, 0x1f, 0x38, 0x8c, 0xd1, 0x56, 0x07, 0x7a, 0x6a, 0x56, 0x3b, 0x5b, 0xac,
              0x96, 0x2b, 0x71, 0xab], rfl⟩
          time := 1600000000
          bits := 0x207fffff
          nonce := 1 }
      txs := [coinbase, shaped]
      signature := [] }

/-- The block is accepted, and makes far more than the reward of 50 whole coins. -/
theorem issued_minting :
    (minting.validate (.still coins)).toOption.map Validated.issued = some 104999999995 := by
  decide +kernel

theorem validate_minting : ∃ v, minting.validate (.still coins) = .ok v ∧
    v.issued = 104999999995 :=
  Verdict.exists_ok_of_map issued_minting

theorem reward_minting :
    Subsidy.reward (UInt32.ofNat minting.height) false minting.params = .ok 5000000000 := by
  decide +kernel

end Sample

/-- A block of a network without staking that makes more than its reward and is accepted. -/
theorem issued_above_reward :
    ∃ v reward, Sample.minting.params.stake = none ∧
      Sample.minting.validate (.still Sample.coins) = .ok v ∧
      Subsidy.reward (UInt32.ofNat Sample.minting.height) false Sample.minting.params =
        .ok reward ∧
      ¬v.issued ≤ reward := by
  obtain ⟨v, hv, hissued⟩ := Sample.validate_minting
  refine ⟨v, 5000000000, rfl, hv, Sample.reward_minting, ?_⟩
  rw [hissued]
  decide

/-- In that block the gain of the transaction that is shaped like a coinstake is not made up
for. -/
theorem issued_of_mined_network_minting :
    ∃ v p reward, Sample.minting.params.stake = none ∧
      Sample.minting.validate (.still Sample.coins) = .ok v ∧
      Sample.minting.runCoins (.still Sample.coins) Progress.start = .ok v p ∧
      Sample.minting.unclaimed v reward + Sample.minting.lost v p.inputCoins <
        Sample.minting.stakeGains p.inputCoins := by
  obtain ⟨v, hv, hissued⟩ := Sample.validate_minting
  obtain ⟨p, reward, hp, hr, _, _, _, hiff, _⟩ :=
    Candidate.issued_of_mined_network Sample.minting (.still Sample.coins) v rfl hv
  refine ⟨v, p, reward, rfl, hv, hp, ?_⟩
  have hreward : reward = 5000000000 := by
    rw [Sample.reward_minting] at hr
    exact (Except.ok.inj hr).symm
  have habove : ¬v.issued ≤ reward := by
    rw [hissued, hreward]
    decide
  exact Int.not_le.mp (mt hiff.mpr habove)

namespace Candidate

variable {c : Candidate} {s : Surroundings} {v : Validated} {loaded : CoinSet} {t : Spending}

/-! ## Networks with staking -/

theorem isStaked_eq {p : StakeParams} (hnet : c.params.stake = some p) :
    c.isStaked = c.block.isProofOfStake := by
  rw [isStaked, Params.isProofOfStake, hnet]
  rfl

theorem blockType_of_checkPlain {p : StakeParams} (hnet : c.params.stake = some p)
    (h : c.checkPlain = .ok ()) :
    (∀ tx ∈ c.block.txs.drop 2, tx.isCoinstake = false) ∧
    (c.block.isProofOfStake = true →
      ∀ o ∈ (c.block.txs.head?.map Tx.outputs).getD [], o.value = 0) := by
  have hrule : StakeRule.blockType ∈ c.params.plainRules := by
    simp [Params.plainRules, Params.integrityRules, Params.whereStaked, Params.isProofOfStake,
      hnet]
  obtain ⟨_, _, h⟩ := Verdict.bind_eq_ok.mp (check_of_checkPlain h hrule)
  obtain ⟨_, _, h⟩ := Verdict.bind_eq_ok.mp h
  obtain ⟨_, hmany, h⟩ := Verdict.bind_eq_ok.mp h
  rw [Verdict.demand_eq_ok, Bool.not_eq_true', List.any_eq_false] at hmany
  refine ⟨fun tx htx => Bool.eq_false_iff.mpr (hmany tx htx), fun hs o ho => ?_⟩
  rw [if_pos hs, Verdict.demand_eq_ok, List.all_eq_true] at h
  rw [← List.zipIdx_map_fst 0 ((c.block.txs.head?.map Tx.outputs).getD [])] at ho
  obtain ⟨e, he, rfl⟩ := List.mem_map.mp ho
  have hnothing := h e he
  rw [StakeRule.paysNothing, Bool.and_eq_true, beq_iff_eq] at hnothing
  exact hnothing.1

/-- Only the second transaction can be a coinstake, and the kind of the block says whether it
is. -/
theorem length_coinstakes {p : StakeParams} (hnet : c.params.stake = some p)
    (h : c.checkPlain = .ok ()) :
    (c.block.txs.filter Tx.isCoinstake).length = if c.block.isProofOfStake then 1 else 0 := by
  obtain ⟨hlate, _⟩ := blockType_of_checkPlain hnet h
  obtain ⟨first, rest, htxs, hfirst, _⟩ := coinbases_of_checkPlain h
  have hplain : ¬first.isCoinstake = true := by
    intro hs
    rw [Tx.isCoinbase_of_isCoinstake hs] at hfirst
    cases hfirst
  rw [htxs] at hlate ⊢
  rw [List.filter_cons_of_neg hplain, Block.isProofOfStake, htxs]
  cases rest with
  | nil => rfl
  | cons second more =>
      have hnil : more.filter Tx.isCoinstake = [] :=
        List.filter_eq_nil_iff.mpr fun tx htx => Bool.eq_false_iff.mp (hlate tx htx)
      rw [List.filter_cons, hnil]
      by_cases hs : second.isCoinstake = true
      · rw [if_pos hs, if_pos hs]
        rfl
      · rw [if_neg hs, if_neg hs]
        rfl

/-- The coinstakes of a block and those of its transactions with their coins are the same. -/
theorem length_stakes {txs : List Tx} {inputCoins : List (List Coin)}
    (h : txs.length = inputCoins.length) :
    (Spending.stakes (txs.zip inputCoins)).length = (txs.filter Tx.isCoinstake).length := by
  have hmap := List.filter_map (f := Prod.fst) (l := txs.zip inputCoins) (p := Tx.isCoinstake)
  rw [List.map_fst_zip (Nat.le_of_eq h)] at hmap
  rw [hmap, List.length_map]
  rfl

/-- What the one coinstake of a staked block gains is what was noted as minted. -/
theorem Found.stakeGains_eq {p : StakeParams} (h : c.Found s v loaded t)
    (hnet : c.params.stake = some p) (hc : c.checkPlain = .ok ()) :
    c.stakeGains t.inputCoins.reverse = if c.block.isProofOfStake then t.minted else 0 := by
  have haccounts := h.accounts (paysAmounts_of_checkPlain hc)
  have hlength := (length_stakes haccounts.length).trans (length_coinstakes hnet hc)
  rw [stakeGains, haccounts.minted]
  cases hs : c.block.isProofOfStake with
  | false =>
      rw [hs, if_neg Bool.false_ne_true] at hlength
      rw [List.length_eq_zero_iff.mp hlength]
      rfl
  | true =>
      rw [hs, if_pos rfl] at hlength
      obtain ⟨e, he⟩ := List.length_eq_one_iff.mp hlength
      rw [he]
      exact add_zero _

/-- The coinbase of a staked block pays nothing. -/
theorem coinbasePaid_eq_zero {p : StakeParams} (hnet : c.params.stake = some p)
    (h : c.checkPlain = .ok ()) (hs : c.block.isProofOfStake = true) : c.coinbasePaid = 0 := by
  have hzero := (blockType_of_checkPlain hnet h).2 hs
  obtain ⟨first, rest, htxs, _⟩ := coinbases_of_checkPlain h
  rw [htxs] at hzero
  rw [coinbasePaid, htxs]
  refine List.sum_eq_zero fun n hn => ?_
  obtain ⟨o, ho, rfl⟩ := List.mem_map.mp hn
  rw [hzero o ho]
  rfl

/-- A block of a network with staking makes no more than its reward, whether it was mined or
staked. -/
theorem issued_of_staking_network (c : Candidate) (s : Surroundings) (v : Validated)
    (p : StakeParams) (hnet : c.params.stake = some p) (h : c.validate s = .ok v) :
    ∃ reward,
      Subsidy.reward (UInt32.ofNat c.height) c.block.isProofOfStake c.params = .ok reward ∧
      v.issued ≤ reward := by
  obtain ⟨hc, hv⟩ := validate_eq_ok.mp h
  obtain ⟨loaded, t, hf⟩ := found_of_validateCoins hv
  have hpays := paysAmounts_of_checkPlain hc
  obtain ⟨reward, hr, hle⟩ := checkReward_eq_ok hf.reward hpays (hf.accounts hpays).minted_gt
  rw [isStaked_eq hnet] at hr hle
  have hflow := hf.flow hc
  have hissued := hf.issued_le hpays
  rw [← List.sum_reverse, ← List.map_reverse] at hissued
  rw [hf.stakeGains_eq hnet hc] at hflow
  rw [← hf.fees] at hle
  refine ⟨reward, hr, ?_⟩
  -- of the coinbase and the coinstake one is bounded, and the other pays or gains nothing
  cases hs : c.block.isProofOfStake with
  | true =>
      rw [hs, if_pos rfl] at hle hflow
      rw [coinbasePaid_eq_zero hnet hc hs] at hflow
      omega
  | false =>
      rw [hs, if_neg Bool.false_ne_true] at hle hflow
      omega

end Candidate

namespace Sample

/-- A coinstake that spends the coin for anyone and pays it, with a whole coin of reward, to the hot
key. -/
def rewarded : Tx :=
  ⟨1, [⟨place, .empty, sequenceFinal, []⟩],
    [⟨0, .empty⟩, ⟨100000005, .payToPubKey hotKey⟩], 0⟩

/-- A staked block that makes its reward. -/
def rewarding : Candidate :=
  staked rewarded
    (hotSignature 0x331a69f538347db8978c071ef8242c02871a5ad535aead7342e64b936c88b690)

theorem issued_rewarding :
    (rewarding.validate (.still soleCoin)).toOption.map Validated.issued = some 100000000 := by
  decide +kernel

end Sample

/-- The block above is accepted, and makes just its reward. -/
theorem issued_of_staking_network_rewarding :
    ∃ p v reward, Sample.rewarding.params.stake = some p ∧
      Sample.rewarding.block.isProofOfStake = true ∧
      Sample.rewarding.validate (.still Sample.soleCoin) = .ok v ∧
      Subsidy.reward (UInt32.ofNat Sample.rewarding.height) Sample.rewarding.block.isProofOfStake
        Sample.rewarding.params = .ok reward ∧
      v.issued = 100000000 ∧ v.issued ≤ reward ∧ reward = 100000000 := by
  obtain ⟨v, hv, hissued⟩ := Verdict.exists_ok_of_map Sample.issued_rewarding
  obtain ⟨reward, hr, hle⟩ := Candidate.issued_of_staking_network Sample.rewarding
    (.still Sample.soleCoin) v _ rfl hv
  have hreward : Subsidy.reward (UInt32.ofNat Sample.rewarding.height)
      Sample.rewarding.block.isProofOfStake Sample.rewarding.params = .ok 100000000 := rfl
  exact ⟨_, v, reward, rfl, rfl, hv, hr, hissued, hle, Except.ok.inj (hr.symm.trans hreward)⟩

end StakeChain
