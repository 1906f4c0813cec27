/-
What is created in range may be spent, unless it is more than can exist.

Two limits are put on amounts. What a transaction creates is held to that of
its network. What is spent is held to it as well, and each coin besides to the
amount that can exist at all, whatever the network allows. A coin on its own
passes the first of these as its output did, and its sum is its amount. So the
second limit alone can refuse it, which it does on networks that allow more.
-/
import StakeChain.Proofs.Issue

namespace StakeChain

theorem inMoneyRange_iff {value : Int} :
    inMoneyRange value = true ↔ 0 ≤ value ∧ value ≤ maxMoney.toInt := by
  rw [inMoneyRange, Bool.and_eq_true, decide_eq_true_eq, decide_eq_true_eq]

namespace Tx

variable {p : Params} {tx spend : Tx} {coin : Coin} {coins : List Coin} {height : Nat}

/-- The reason that the amount of a coin is out of range. -/
abbrev amountRefused : Rejection :=
  .consensus .badTransactionInputValueOutOfRange

/-- Nothing but the coins is refused for that reason. -/
theorem fee_eq_amountRefused :
    spend.fee coins height p = .error amountRefused ↔
      valueInFrom p height 0 coins = .error amountRefused := by
  rw [fee, Verdict.bind_eq_error, or_iff_left_iff_imp]
  rintro ⟨valueIn, -, h⟩
  refine absurd h ?_
  split
  · exact Verdict.ok_ne_error
  · split
    · exact Verdict.error_ne_error (by decide)
    · refine Verdict.bind_ne_error (Verdict.demand_ne_error (by decide)) ?_
      intro _
      refine Verdict.bind_ne_error Verdict.fault_ne_error ?_
      intro fee
      refine Verdict.bind_ne_error (Verdict.demand_ne_error (by decide)) ?_
      intro _
      refine Verdict.bind_ne_error (Verdict.demand_ne_error (by decide)) ?_
      intro _
      exact Verdict.ok_ne_error

theorem fitsInt64_value (o : TxOut) : fitsInt64 o.value.toInt = true := by
  rw [fitsInt64, Bool.and_eq_true, decide_eq_true_eq, decide_eq_true_eq]
  exact ⟨Int64.minValue_le_toInt _, Int64.toInt_le _⟩

/-- A coin on its own that is deep enough is refused if it is beyond one of the two limits. -/
theorem valueInFrom_single_eq_amountRefused (hdeep : checkMaturity p height coin = .ok ()) :
    valueInFrom p height 0 [coin] = .error amountRefused ↔
      (inMoneyRange coin.output.value.toInt && p.inMoneyRange coin.output.value.toInt) = false := by
  rw [valueInFrom, hdeep]
  change (Verdict.demand _ _ >>= fun _ => valueInFrom p height _ []) = .error _ ↔ _
  rw [Verdict.bind_eq_error, Int.zero_add, fitsInt64_value, Bool.true_and,
    Verdict.demand_eq_error]
  constructor
  · rintro (⟨hrange, -⟩ | ⟨_, -, h⟩)
    · exact hrange
    · exact absurd h Verdict.ok_ne_error
  · intro hrange
    exact .inl ⟨hrange, rfl⟩

/-- A coin of an accepted transaction, spent alone when it is deep enough, is refused for its amount
exactly if that is more than can exist; so never where the network allows no more than that. -/
theorem amountRefused_iff (p : Params) (tx : Tx) (hcheck : tx.check p = .ok ()) (coin : Coin)
    (hcoin : coin.output ∈ tx.outputs) (spend : Tx) (height : Nat)
    (hdeep : checkMaturity p height coin = .ok ()) :
    (spend.fee [coin] height p = .error (.consensus .badTransactionInputValueOutOfRange) ↔
      maxMoney < coin.output.value) ∧
    (p.maxMoney ≤ maxMoney →
      spend.fee [coin] height p ≠ .error (.consensus .badTransactionInputValueOutOfRange)) := by
  have hcreated : p.inMoneyRange coin.output.value.toInt = true :=
    inMoneyRange_of_check hcheck _ hcoin
  obtain ⟨hnonneg, hmost⟩ := Params.inMoneyRange_iff.mp hcreated
  have hrefused : spend.fee [coin] height p =
      .error (.consensus .badTransactionInputValueOutOfRange) ↔ maxMoney < coin.output.value := by
    rw [fee_eq_amountRefused, valueInFrom_single_eq_amountRefused hdeep, hcreated, Bool.and_true,
      ← Bool.not_eq_true, inMoneyRange_iff, Int64.lt_iff_toInt_lt]
    omega
  refine ⟨hrefused, ?_⟩
  intro hlimit
  rw [ne_eq, hrefused, Int64.lt_iff_toInt_lt]
  rw [Int64.le_iff_toInt_le] at hlimit
  omega

end Tx

namespace Sample

/-- A network that allows one unit more than can exist. -/
def richer : Params :=
  { Params.regtest with maxMoney := 2100000000000001 }

/-- Creates one coin. -/
def creating (value : Int64) : Tx :=
  ⟨1, [⟨place, Script.empty, sequenceFinal, []⟩], [⟨value, anyone⟩], 0⟩

/-- That coin, as of the first block. -/
def created (value : Int64) : Coin :=
  (creating value).coinOf 0 1600000000 ⟨value, anyone⟩

/-- Spends that coin. -/
def drawing (value : Int64) : Tx :=
  ⟨1, [⟨⟨(creating value).id, 0⟩, Script.empty, sequenceFinal, []⟩], [⟨5, anyone⟩], 0⟩

end Sample

/-- On such a network the one unit more may be created, and then not be spent. -/
theorem amountRefused_richer :
    0 ≤ Sample.richer.maxMoney ∧
      (Sample.creating 2100000000000001).check Sample.richer = .ok () ∧
      (Sample.created 2100000000000001).output ∈ (Sample.creating 2100000000000001).outputs ∧
      Tx.checkMaturity Sample.richer 1 (Sample.created 2100000000000001) = .ok () ∧
      (Sample.drawing 2100000000000001).fee [Sample.created 2100000000000001] 1 Sample.richer =
        .error (.consensus .badTransactionInputValueOutOfRange) := by
  refine ⟨by decide, by decide +kernel, List.mem_singleton_self _, by decide, by decide⟩

/-- All that can exist may be created and spent there. -/
theorem amountRefused_iff_all :
    (Sample.creating 2100000000000000).check Sample.richer = .ok () ∧
      (Sample.drawing 2100000000000000).fee [Sample.created 2100000000000000] 1 Sample.richer ≠
        .error (.consensus .badTransactionInputValueOutOfRange) := by
  have hcheck : (Sample.creating 2100000000000000).check Sample.richer = .ok () := by
    decide +kernel
  refine ⟨hcheck, ?_⟩
  rw [ne_eq, (Tx.amountRefused_iff Sample.richer _ hcheck (Sample.created 2100000000000000)
    (List.mem_singleton_self _) _ 1 (by decide)).1]
  decide

end StakeChain
