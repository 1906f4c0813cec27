/-
The accounts of a block.

A transaction that is neither a coinbase nor shaped like a coinstake pays
less than it takes, and the difference is counted as a fee. A coinbase takes
nothing. What a coinstake pays beyond what it takes is its gain, which is
noted as minted, the last one only. `Accounts` keeps all this together while
the transactions are gone through: what may be spent has grown by no more
than was paid beyond what was taken.
-/
import StakeChain.Proofs.Worth

namespace StakeChain

/-! ## What accounting for a transaction does -/

namespace Tx

/-- The coins have a sum in range. -/
theorem valueInFrom_eq_ok {p : Params} {height : Nat} {start sum : Int} {coins : List Coin}
    (h : valueInFrom p height start coins = .ok sum) :
    sum = start + total coins ∧ (start ≤ Int64.maxValue.toInt → sum ≤ Int64.maxValue.toInt) := by
  induction coins generalizing start with
  | nil =>
      cases h
      exact ⟨(add_zero _).symm, fun h => h⟩
  | cons coin rest ih =>
      obtain ⟨_, _, h⟩ := Verdict.bind_eq_ok.mp h
      obtain ⟨_, hrange, h⟩ := Verdict.bind_eq_ok.mp h
      obtain ⟨hsum, hle⟩ := ih h
      rw [Verdict.demand_eq_ok, Bool.and_eq_true, Bool.and_eq_true, fitsInt64, Bool.and_eq_true,
        decide_eq_true_eq, decide_eq_true_eq] at hrange
      refine ⟨?_, fun _ => hle hrange.1.1.2⟩
      rw [hsum, total_cons]
      exact add_assoc _ _ _

/-- What a transaction pays less what it takes. -/
def gain (tx : Tx) (coins : List Coin) : Int :=
  tx.paid - total coins

/-- The fee of a transaction that is not shaped like a coinstake is what it pays too little. -/
theorem fee_eq_ok {tx : Tx} {coins : List Coin} {height : Nat} {p : Params} {fee : Int}
    (h : tx.fee coins height p = .ok fee) (hs : tx.isCoinstake = false) :
    fee = -tx.gain coins := by
  obtain ⟨valueIn, hv, h⟩ := Verdict.bind_eq_ok.mp h
  obtain ⟨rfl, _⟩ := valueInFrom_eq_ok hv
  rw [hs] at h
  cases ho : tx.totalOut? with
  | none =>
      rw [ho] at h
      cases h
  | some out =>
      rw [ho] at h
      obtain ⟨_, _, h⟩ := Verdict.bind_eq_ok.mp h
      obtain ⟨fee', hf, h⟩ := Verdict.bind_eq_ok.mp h
      obtain ⟨_, _, h⟩ := Verdict.bind_eq_ok.mp h
      obtain ⟨_, _, h⟩ := Verdict.bind_eq_ok.mp h
      cases h
      rw [(fitAmount_eq_ok.mp (Verdict.mapError_eq_ok.mp hf)).2, totalOut_eq_some ho, gain]
      omega

theorem isCoinbase_of_isCoinstake {tx : Tx} (h : tx.isCoinstake = true) :
    tx.isCoinbase = false := by
  rw [isCoinstake] at h
  rw [isCoinbase]
  split at h
  · rename_i i rest _ _ _ hi ho
    rw [hi]
    cases rest with
    | nil =>
        rw [Bool.and_eq_true, Bool.not_eq_true'] at h
        exact h.1
    | cons j rest => rfl
  · cases h

end Tx

namespace Spending

variable {c : Candidate} {s t : Spending} {tx : Tx} {coins : List Coin}

/-- How fees and minted coins go on with a transaction: nothing changes for a coinbase, a coinstake
replaces what was minted by its gain, and of any other the fee is added. -/
theorem account_eq_ok (h : s.account c tx coins = .ok t) (hp : tx.PaysAmounts) :
    (tx.isCoinbase = true ∧ t.fees = s.fees ∧ t.minted = s.minted) ∨
    (tx.isCoinstake = true ∧ t.fees = s.fees ∧ t.minted = tx.gain coins ∧
      Int64.minValue.toInt < t.minted) ∨
    (tx.isCoinbase = false ∧ tx.isCoinstake = false ∧ 0 ≤ t.fees ∧
      t.fees = s.fees - tx.gain coins ∧ t.minted = s.minted) := by
  rw [account] at h
  cases hc : tx.isCoinbase with
  | true =>
      simp only [hc, if_true, Except.ok.injEq] at h
      exact .inl ⟨rfl, by rw [h], by rw [h]⟩
  | false =>
      simp only [hc, Bool.false_eq_true, if_false, Verdict.bind_eq_ok] at h
      obtain ⟨fee, hfee, h⟩ := h
      refine .inr ?_
      cases hs : tx.isCoinstake with
      | true =>
          simp only [hs, if_true, Verdict.bind_eq_ok] at h
          obtain ⟨minted, hm, h⟩ := h
          cases h
          obtain ⟨valueIn, hv, _⟩ := Verdict.bind_eq_ok.mp hfee
          obtain ⟨hsum, hmax⟩ := Tx.valueInFrom_eq_ok hv
          rw [mintedBy] at hm
          cases ho : tx.totalOut? with
          | none =>
              rw [ho] at hm
              cases hm
          | some out =>
              rw [ho] at hm
              have hgain : minted = tx.gain coins := by
                rw [(fitAmount_eq_ok.mp (Verdict.mapError_eq_ok.mp hm)).2,
                  Tx.totalOut_eq_some ho]
                rfl
              refine .inl ⟨rfl, rfl, hgain, ?_⟩
              -- it pays no less than nothing, and what it takes is in range
              have hpaid := hp.paid_nonneg
              have hle := hmax (by decide)
              change Int64.minValue.toInt < minted
              rw [hgain, Tx.gain]
              rw [zero_add] at hsum
              rw [hsum] at hle
              have hmin : Int64.minValue.toInt = -Int64.maxValue.toInt - 1 := by decide
              omega
      | false =>
          simp only [hs, Bool.false_eq_true, if_false, Verdict.bind_eq_ok] at h
          obtain ⟨_, hrange, h⟩ := h
          cases h
          rw [Verdict.demand_eq_ok, Bool.and_eq_true, Params.inMoneyRange_iff] at hrange
          refine .inr ⟨rfl, rfl, hrange.2.1, ?_, rfl⟩
          change s.fees + fee = _
          rw [Tx.fee_eq_ok hfee hs]
          omega

/-! ## What one transaction moves -/

/-- What a transaction of each kind does to fees and minted coins. -/
theorem Stepped.kinds (h : Stepped c s tx coins t) (hp : tx.PaysAmounts) :
    (tx.isCoinbase = true ∧ tx.isCoinstake = false ∧ total coins = 0 ∧ t.fees = s.fees ∧
      t.minted = s.minted) ∨
    (tx.isCoinbase = false ∧ tx.isCoinstake = true ∧ t.fees = s.fees ∧
      t.minted = tx.gain coins ∧ Int64.minValue.toInt < t.minted) ∨
    (tx.isCoinbase = false ∧ tx.isCoinstake = false ∧ 0 ≤ t.fees ∧
      t.fees = s.fees - tx.gain coins ∧ t.minted = s.minted) := by
  obtain ⟨u, v, huf, hum, hacc, htf, htm⟩ := h.accounted
  have hkinds := account_eq_ok hacc hp
  rw [← htf, ← htm, huf, hum] at hkinds
  rcases hkinds with ⟨hc, hf, hm⟩ | ⟨hs, hrest⟩ | hplain
  · have hlen := h.length_coins
    rw [Tx.spentPlaces, if_pos hc] at hlen
    have hnil : coins = [] := List.length_eq_zero_iff.mp hlen.symm
    have hs : tx.isCoinstake = false := by
      cases hs : tx.isCoinstake with
      | false => rfl
      | true =>
          rw [Tx.isCoinbase_of_isCoinstake hs] at hc
          cases hc
    refine .inl ⟨hc, hs, ?_, hf, hm⟩
    rw [hnil]
    rfl
  · exact .inr (.inl ⟨Tx.isCoinbase_of_isCoinstake hs, hs, hrest⟩)
  · exact .inr (.inr hplain)

/-- No coin of the block has a negative amount. -/
theorem Stepped.amountAt_nonneg (h : Stepped c s tx coins t) (hp : tx.PaysAmounts)
    {o : OutPoint} (hs : 0 ≤ s.available.amountAt o) : 0 ≤ t.available.amountAt o := by
  by_cases ho : o ∈ tx.createdPlaces c.height c.header.time
  · obtain ⟨coin, hmem, hcoin⟩ := h.exists_find ho
    rw [CoinSet.amountAt_of_some hcoin]
    exact hp.amount_nonneg hmem
  · have hfind := h.find_of_notMem ho
    by_cases hsp : o ∈ tx.spentPlaces
    · rw [if_pos hsp] at hfind
      exact le_of_eq (CoinSet.amountAt_of_none hfind).symm
    · rw [if_neg hsp] at hfind
      rwa [CoinSet.amountAt_congr hfind]

/-- What can be spent after a transaction is worth no more than before, with its gain. -/
theorem Stepped.worth_le {places : Finset OutPoint} (h : Stepped c s tx coins t)
    (hp : tx.PaysAmounts) (hsp : ∀ o ∈ tx.spentPlaces, o ∈ places)
    (hcp : ∀ o ∈ tx.createdPlaces c.height c.header.time, o ∈ places)
    (hs : ∀ o ∈ tx.createdPlaces c.height c.header.time, 0 ≤ s.available.amountAt o) :
    t.available.worth places + total coins ≤ s.available.worth places + tx.paid := by
  have herase := CoinSet.worth_eraseAll h.found h.nodup hsp
  have hleft : ∀ o ∈ tx.createdPlaces c.height c.header.time,
      0 ≤ CoinSet.amountAt (s.available.eraseAll tx.spentPlaces) o := by
    intro o ho
    by_cases hm : o ∈ tx.spentPlaces
    · rw [CoinSet.amountAt_of_none (by rw [CoinSet.find_eraseAll, if_pos hm])]
    · rw [CoinSet.amountAt_congr (t := s.available) (by rw [CoinSet.find_eraseAll, if_neg hm])]
      exact hs o ho
  have hinsert := CoinSet.worth_insertAll_le hcp hleft fun e he => hp.amount_nonneg he
  have hcreated := hp.total_created_le c.height c.header.time
  rw [h.available, CoinSet.change]
  omega

/-! ## The accounts of a block -/

/-- The coinstakes among transactions that are given with the coins they spend. -/
def stakes (txs : List (Tx × List Coin)) : List (Tx × List Coin) :=
  txs.filter fun e => e.1.isCoinstake

/-- The gains of several transactions together. -/
def gains (txs : List (Tx × List Coin)) : Int :=
  (txs.map fun e => e.1.gain e.2).sum

/-- The gain of the last transaction. -/
def lastGain (txs : List (Tx × List Coin)) : Int :=
  txs.getLast?.elim 0 fun e => e.1.gain e.2

/-- What holds when a part of a block was gone through. What may be spent has grown by no more than
what was paid beyond what was taken, and that is what coinbases pay and coinstakes gain, less the
fees. -/
structure Accounts (ids : Std.ExtTreeSet Hash256 compare) (loaded : CoinSet)
    (places : Finset OutPoint) (done : List Tx) (s : Spending) : Prop where
  length : done.length = s.inputCoins.reverse.length
  nonneg : ∀ o : OutPoint, o.hash ∈ ids → 0 ≤ s.available.amountAt o
  worth : s.available.worth places + (s.inputCoins.map total).sum ≤
    loaded.worth places + (done.map Tx.paid).sum
  fees_nonneg : 0 ≤ s.fees
  flow : (done.map Tx.paid).sum + s.fees =
    (s.inputCoins.map total).sum + ((done.filter Tx.isCoinbase).map Tx.paid).sum +
      gains (stakes (done.zip s.inputCoins.reverse))
  minted : s.minted = lastGain (stakes (done.zip s.inputCoins.reverse))
  minted_gt : Int64.minValue.toInt < s.minted

variable {ids : Std.ExtTreeSet Hash256 compare} {loaded : CoinSet} {places : Finset OutPoint}

theorem accounts_start (h : ∀ o : OutPoint, o.hash ∈ ids → loaded[o]? = none) :
    Accounts ids loaded places [] (start loaded) where
  length := rfl
  nonneg o ho := le_of_eq (CoinSet.amountAt_of_none (h o ho)).symm
  worth := le_refl _
  fees_nonneg := le_refl _
  flow := rfl
  minted := rfl
  minted_gt := by
    change Int64.minValue.toInt < 0
    decide

theorem gains_append {l₁ l₂ : List (Tx × List Coin)} :
    gains (l₁ ++ l₂) = gains l₁ + gains l₂ := by
  rw [gains, List.map_append, List.sum_append, gains, gains]

theorem gains_ite : gains (if tx.isCoinstake then [(tx, coins)] else []) =
    if tx.isCoinstake then tx.gain coins else 0 := by
  split
  · exact add_zero _
  · rfl

theorem lastGain_append_ite {l : List (Tx × List Coin)} :
    lastGain (l ++ if tx.isCoinstake then [(tx, coins)] else []) =
      if tx.isCoinstake then tx.gain coins else lastGain l := by
  split
  · rw [lastGain, List.getLast?_append]
    rfl
  · rw [List.append_nil]

/-- The coinstakes after one more transaction. -/
theorem Accounts.stakes_step {done : List Tx} (ha : Accounts ids loaded places done s)
    (h : Stepped c s tx coins t) :
    stakes ((done ++ [tx]).zip t.inputCoins.reverse) =
      stakes (done.zip s.inputCoins.reverse) ++
        if tx.isCoinstake then [(tx, coins)] else [] := by
  rw [h.inputCoins, List.reverse_cons, List.zip_append ha.length, stakes, List.filter_append,
    stakes]
  refine congrArg _ ?_
  change [(tx, coins)].filter (fun e => e.1.isCoinstake) = _
  cases hs : tx.isCoinstake <;> simp [hs]

/-- What coinbases pay after one more transaction. -/
theorem coinbases_step {done : List Tx} :
    (((done ++ [tx]).filter Tx.isCoinbase).map Tx.paid).sum =
      ((done.filter Tx.isCoinbase).map Tx.paid).sum + if tx.isCoinbase then tx.paid else 0 := by
  rw [List.filter_append, List.map_append, List.sum_append]
  cases hc : tx.isCoinbase <;> simp [hc]

theorem Accounts.step {done : List Tx} (ha : Accounts ids loaded places done s)
    (h : Stepped c s tx coins t) (hp : tx.PaysAmounts) (hid : tx.id ∈ ids)
    (hsp : ∀ o ∈ tx.spentPlaces, o ∈ places)
    (hcp : ∀ o ∈ tx.createdPlaces c.height c.header.time, o ∈ places) :
    Accounts ids loaded places (done ++ [tx]) t := by
  have hown : ∀ o ∈ tx.createdPlaces c.height c.header.time, 0 ≤ s.available.amountAt o :=
    fun o ho => ha.nonneg o (Tx.hash_of_mem_createdPlaces ho ▸ hid)
  have hpaid : ((done ++ [tx]).map Tx.paid).sum = (done.map Tx.paid).sum + tx.paid := by
    rw [List.map_append, List.sum_append]
    exact congrArg _ (add_zero _)
  have htaken : (t.inputCoins.map total).sum = (s.inputCoins.map total).sum + total coins := by
    rw [h.inputCoins, List.map_cons, List.sum_cons, add_comm]
  have hgain : tx.gain coins = tx.paid - total coins := rfl
  have hkinds := h.kinds hp
  exact
    { length := by
        rw [List.length_append, ha.length, h.inputCoins, List.reverse_cons, List.length_append]
        rfl
      nonneg := fun o ho => h.amountAt_nonneg hp (ha.nonneg o ho)
      worth := by
        have hstep := h.worth_le hp hsp hcp hown
        have hbefore := ha.worth
        rw [hpaid, htaken]
        omega
      fees_nonneg := by
        have hfees := ha.fees_nonneg
        rcases hkinds with ⟨_, _, _, hf, _⟩ | ⟨_, _, hf, _⟩ | ⟨_, _, hf, _⟩ <;> omega
      flow := by
        have hflow := ha.flow
        rw [hpaid, htaken, coinbases_step, ha.stakes_step h, gains_append, gains_ite]
        rcases hkinds with ⟨hc, hs, hzero, hf, _⟩ | ⟨hc, hs, hf, _⟩ | ⟨hc, hs, _, hf, _⟩
        · rw [hc, hs, hf, if_pos rfl, if_neg Bool.false_ne_true]
          omega
        · rw [hc, hs, hf, if_pos rfl, if_neg Bool.false_ne_true]
          omega
        · rw [hc, hs, hf, if_neg Bool.false_ne_true, if_neg Bool.false_ne_true]
          omega
      minted := by
        rw [ha.stakes_step h, lastGain_append_ite]
        rcases hkinds with ⟨_, hs, _, _, hm⟩ | ⟨_, hs, _, hm, _⟩ | ⟨_, hs, _, _, hm⟩
        · rw [hs, hm, ha.minted, if_neg Bool.false_ne_true]
        · rw [hs, hm, if_pos rfl]
        · rw [hs, hm, ha.minted, if_neg Bool.false_ne_true]
      minted_gt := by
        have hmin := ha.minted_gt
        rcases hkinds with ⟨_, _, _, _, hm⟩ | ⟨_, _, _, _, hm⟩ | ⟨_, _, _, _, hm⟩ <;> omega }

/-- What was loaded is worth what may be spent in the end, with what was spent and without what
was created. -/
theorem Sound.worth_eq {done : List Tx} (hs : Sound ids loaded done s)
    (hl : ∀ o : OutPoint, o.hash ∈ ids → loaded[o]? = none)
    (hsp : ∀ o ∈ s.spent.reverse.map Prod.fst, o ∈ places)
    (hcp : ∀ o ∈ s.created.map Prod.fst, o ∈ places) :
    s.available.worth places + total (s.spent.reverse.map Prod.snd) =
      loaded.worth places + total (s.created.map Prod.snd) := by
  have hfound : (s.spent.reverse.map Prod.fst).map (loaded[·]?) =
      (s.spent.reverse.map Prod.snd).map some := by
    rw [List.map_map, List.map_map]
    exact List.map_congr_left fun e he => hs.found e (List.mem_reverse.mp he)
  have hnodup : (s.spent.reverse.map Prod.fst).Nodup := by
    rw [List.map_reverse, List.nodup_reverse]
    exact hs.nodup
  have hfree : ∀ o ∈ s.created.map Prod.fst,
      (CoinSet.eraseAll loaded (s.spent.reverse.map Prod.fst))[o]? = none := by
    intro o ho
    obtain ⟨e, he, rfl⟩ := List.mem_map.mp ho
    rw [CoinSet.find_eraseAll, hl e.1 (hs.mem_created.mp he).1, ite_self]
  have herase := CoinSet.worth_eraseAll hfound hnodup hsp
  have hinsert := CoinSet.worth_insertAll hcp s.nodup_created hfree
  rw [hs.available_eq hl, CoinSet.change]
  omega

end Spending

end StakeChain
