/-
Why it is enough to look at the spent coins once more.

A block is validated on the coins that were there when it was loaded, and
others may have changed them by the time it is committed. What the rules
found does not depend on that, as long as the coins that the block spends are
still there. For the rules look at the coins only while they load them, at
the places that the block spends from earlier blocks, and, where it is asked
for, at the places where it creates some. A block that went through has found
a coin at each of the former places, spends it and has noted it. So when all
noted coins are found again, everything that was loaded is found again as well,
and from there on the rules do the same.

Where outputs of the same id may not be there, the places at which the block
creates coins are looked at too, and not once more in the end. That rule has
to be off.
-/
import StakeChain.Proofs.Engine
import StakeChain.Proofs.Execution

namespace StakeChain

open Stateful

/-! ## Looking at the same coins -/

namespace Validation

variable {set set' : CoinSet} {cancelled cancelled' : List OutPoint → Bool} {p q : Progress}

/-- What is loaded depends on the coins at the places that are looked at. -/
theorem load_congr {places : List OutPoint} (h : ∀ o ∈ places, set'[o]? = set[o]?)
    (found : CoinSet) :
    load (.holding set' cancelled') found places p = load (.holding set cancelled) found places p := by
  induction places generalizing found p with
  | nil => rfl
  | cons o rest ih =>
      have hfound : ((set'[o]?.map (found.insert o)).getD found) =
          ((set[o]?.map (found.insert o)).getD found) := by
        rw [h o List.mem_cons_self]
      rw [load_cons, load_cons]
      refine (ih (fun a ha => h a (List.mem_cons_of_mem _ ha)) _).trans ?_
      exact congrArg (fun found => load _ found rest _) hfound

end Validation

namespace Candidate

variable {c : Candidate} {set set' : CoinSet} {cancelled : List OutPoint → Bool}
  {s s' : Surroundings} {p q : Progress}

/-- A second look that went through found every coin as it was, and noted its lookups only. -/
theorem confirmSpent_ok {spent : PlacedCoins}
    (h : confirmSpent (.holding set cancelled) spent p = .ok () q) :
    (∀ e ∈ spent, set[e.1]? = some e.2) ∧
      q = { p with lookups := (spent.map Prod.fst).reverse ++ p.lookups } := by
  induction spent generalizing p with
  | nil => exact ⟨nofun, (pure_eq_ok.mp h).2⟩
  | cons e rest ih =>
      obtain ⟨found, u, hlookup, h⟩ := bind_eq_ok.mp h
      obtain ⟨rfl, rfl⟩ := Validation.lookup_eq_ok.mp hlookup
      obtain ⟨_, w, hdemand, h⟩ := bind_eq_ok.mp h
      obtain ⟨hfound, rfl⟩ := Validation.demand_eq_ok.mp hdemand
      obtain ⟨hrest, rfl⟩ := ih h
      exact ⟨List.forall_mem_cons.mpr ⟨eq_of_beq hfound, hrest⟩, by simp⟩

/-! ## Rules after loading -/

theorem laxer_self {α : Type} (m : Validation α) : Laxer Eq Eq m m where
  run_ok {_ _ a n} hm h := ⟨a, n, hm ▸ h, rfl, rfl⟩

section

variable (hnever : ∀ lookups, s'.cancelled lookups = false)

include hnever

theorem checkCancelled_laxer :
    Laxer Eq Eq (Validation.checkCancelled s') (Validation.checkCancelled s) where
  run_ok {m _ a n} hm h := by
    obtain ⟨-, rfl⟩ := Validation.checkCancelled_eq_ok.mp h
    exact ⟨(), n, Validation.checkCancelled_eq_ok.mpr ⟨hnever _, hm⟩, rfl, rfl⟩

theorem checkInputs_laxer (tx : Tx) (shared : TxDigests) (coins : List Coin) (index : Nat)
    (inputs : List TxIn) :
    Laxer Eq Eq (CoinsRule.checkInputs c s' tx shared coins index inputs)
      (CoinsRule.checkInputs c s tx shared coins index inputs) := by
  induction inputs generalizing index with
  | nil => exact laxer_self _
  | cons i rest ih =>
      refine (checkCancelled_laxer hnever).bind_eq fun _ => ?_
      cases coins[index]? with
      | none => exact laxer_self _
      | some coin => exact (laxer_self _).bind_eq fun _ => ih (index + 1)

theorem checkTxs_laxer (txs : List (Tx × Option (List Coin))) :
    Laxer Eq Eq (CoinsRule.checkTxs c s' txs) (CoinsRule.checkTxs c s txs) := by
  induction txs with
  | nil => exact laxer_self _
  | cons e rest ih =>
      obtain ⟨tx, coins⟩ := e
      rw [CoinsRule.checkTxs, CoinsRule.checkTxs]
      cases tx.isCoinbase with
      | true => exact ih
      | false => exact (checkInputs_laxer hnever ..).bind_eq fun _ => ih

/-- Of all rules but the first none looks at the coins around, if outputs of the same id are
allowed. -/
theorem rule_laxer (hbip30 : c.rules.bip30 = false) {rule : CoinRule}
    (h : rule ∈ CoinsRule.bip30 :: CoinsRule.spendCoins :: lateRules c.params) :
    Laxer Eq Eq (rule.run c s') (rule.run c s) := by
  rw [List.mem_cons, List.mem_cons, lateRules, Params.whereStaked] at h
  have hscripts : Laxer Eq Eq (CoinsRule.scripts.run c s') (CoinsRule.scripts.run c s) :=
    (laxer_self _).bind_eq fun p => checkTxs_laxer hnever _
  rcases h with rfl | rfl | h
  · change Laxer Eq Eq (if c.rules.bip30 then _ else _) (if c.rules.bip30 then _ else _)
    rw [hbip30]
    exact laxer_self _
  · exact laxer_self _
  · split at h
    · simp only [List.cons_append, List.nil_append, List.mem_cons, List.not_mem_nil, or_false] at h
      rcases h with rfl | rfl | rfl
      · exact laxer_self _
      · exact laxer_self _
      · exact hscripts
    · obtain rfl := List.mem_singleton.mp h
      exact hscripts

theorem runAll_laxer {rules : List CoinRule}
    (h : ∀ rule ∈ rules, Laxer Eq Eq (rule.run c s') (rule.run c s)) :
    Laxer Eq Eq (c.runAll s' rules) (c.runAll s rules) := by
  induction rules with
  | nil => exact laxer_self _
  | cons rule rest ih =>
      refine (checkCancelled_laxer hnever).bind_eq fun _ => ?_
      exact (h rule List.mem_cons_self).bind_eq fun _ =>
        ih fun r hr => h r (List.mem_cons_of_mem _ hr)

end

/-! ## The second look -/

/-- A block that went through has noted a coin at every place that it spends from earlier
blocks. -/
theorem exists_spent_of_runAll
    (hrules : c.runAll (.holding set cancelled) c.params.coinRules p = .ok () q) {o : OutPoint}
    (ho : o ∈ CoinSet.externalPlaces c.block) :
    ∃ coin, (o, coin) ∈ q.spent ∧ set[o]? = some coin := by
  obtain ⟨loaded, t, hfound, -⟩ := found_of_runAll hrules
  have hplaces : q.spent.map Prod.fst = CoinSet.externalPlaces c.block := hfound.spent_places
  rw [← hplaces, List.mem_map] at ho
  obtain ⟨⟨_, coin⟩, he, rfl⟩ := ho
  exact ⟨coin, he, hfound.find_spent he⟩

/-- If the rules go through on one set of coins and what the block spends is found again in
another, they go through on that one, and find the same. -/
theorem runAll_of_confirmed (hbip30 : c.rules.bip30 = false)
    (hrules : c.runAll (.holding set cancelled) c.params.coinRules Progress.start = .ok () p)
    (hconfirmed : ∀ e ∈ p.spent, set'[e.1]? = some e.2) :
    c.runAll (.still set') c.params.coinRules Progress.start = .ok () p := by
  have hsame : ∀ o ∈ CoinSet.externalPlaces c.block, set'[o]? = set[o]? := by
    intro o ho
    obtain ⟨coin, he, hcoin⟩ := exists_spent_of_runAll hrules ho
    rw [hconfirmed _ he, hcoin]
  change c.runAll _ (CoinsRule.loadCoins :: CoinsRule.bip30 :: CoinsRule.spendCoins ::
    lateRules c.params) _ = _ at hrules ⊢
  obtain ⟨-, q, hload, hrest⟩ := runAll_cons_eq_ok.mp hrules
  obtain ⟨loaded, r, hfound, rfl⟩ := loadCoins_eq_ok hload
  have hfound' : Validation.load (.still set') ∅ (CoinSet.externalPlaces c.block) Progress.start =
      .ok loaded r := (Validation.load_congr hsame ∅).trans hfound
  have hlater : ∀ rule ∈ CoinsRule.bip30 :: CoinsRule.spendCoins :: lateRules c.params,
      Laxer Eq Eq (rule.run c (.still set')) (rule.run c (.holding set cancelled)) :=
    fun _ => rule_laxer (fun _ => rfl) hbip30
  obtain ⟨_, _, hrest', rfl, rfl⟩ := (runAll_laxer (fun _ => rfl) hlater).run_ok rfl hrest
  refine runAll_cons_eq_ok.mpr ⟨rfl, _, ?_, hrest'⟩
  exact bind_eq_ok.mpr ⟨loaded, r, hfound', modify_eq_ok.mpr rfl⟩

/-- What the rules found is committed, if nothing is spent that is not there. -/
theorem commitCoins_of_runAll
    (hrules : c.runAll (.still set) c.params.coinRules Progress.start = .ok () p)
    (hconfirm : confirmSpent (.still set) p.spent p = .ok () q) :
    c.commitCoins .still set = .ok (c.outcome p) ((c.outcome p).applyTo set) := by
  have hsome : (c.params.coinRules.any fun r => !r.readsCoins) = true := by
    rw [Params.coinRules, List.any_append]
    exact Bool.or_eq_true_iff.mpr (.inr rfl)
  have houtcome : c.outcome q = c.outcome p := by
    obtain ⟨-, rfl⟩ := confirmSpent_ok hconfirm
    rfl
  refine commitCoins_of_ok (validateCoins_eq_ok.mpr ⟨q, ?_⟩)
  refine bind_eq_ok.mpr ⟨(), Progress.start, rfl, ?_⟩
  refine bind_eq_ok.mpr ⟨(), p, hrules, ?_⟩
  refine bind_eq_ok.mpr ⟨(), p, Validation.checkCancelled_eq_ok.mpr ⟨rfl, rfl⟩, ?_⟩
  rw [if_pos hsome]
  refine bind_eq_ok.mpr ⟨p, p, rfl, bind_eq_ok.mpr ⟨(), q, hconfirm, ?_⟩⟩
  exact bind_eq_ok.mpr ⟨q, q, rfl, houtcome ▸ rfl⟩

/-- Where outputs of the same id are allowed, a validation that went through on some coins, and
whose spent coins are found again among others, would have gone through on those as well and would
have found the same: to commit it changes the coins as to validate the block on them does. -/
theorem stale_validation_holds (hbip30 : c.rules.bip30 = false)
    (hrules : c.runAll (.holding set cancelled) c.params.coinRules Progress.start = .ok () p)
    (hconfirm : confirmSpent (.still set') p.spent p = .ok () q) :
    c.runAll (.still set') c.params.coinRules Progress.start = .ok () p ∧
      c.commitCoins .still set' = .ok (c.outcome p) ((c.outcome p).applyTo set') := by
  have hrules' : c.runAll (.still set') c.params.coinRules Progress.start = .ok () p :=
    runAll_of_confirmed hbip30 hrules (confirmSpent_ok hconfirm).1
  exact ⟨hrules', commitCoins_of_runAll hrules' hconfirm⟩

end Candidate

/-! ## A block that was validated before another coin came -/

namespace Sample

/-- The place of a coin that comes later. -/
def otherPlace : OutPoint :=
  ⟨Digest.ofNat 2, 0⟩

/-- The one coin and the other. -/
def laterCoins : CoinSet :=
  coins.insert otherPlace ⟨⟨7, anyone⟩, 0, false, false, 0, none⟩

/-- The one coin is spent where outputs of the same id are allowed. -/
def stale : Candidate :=
  { first .regtest
      { header := ⟨4, Digest.zero, Digest.zero, 1600000000, 0x207fffff, 1⟩
        txs := [coinbase, ⟨1, [⟨place, Script.empty, sequenceFinal, []⟩], [⟨4, anyone⟩], 0⟩]
        signature := [] } with
    rules := ⟨Flags.none, LockTimeRules.none, false, false⟩ }

theorem confirms_stale :
    ((result? (stale.runAll (.still coins) stale.params.coinRules Progress.start)).any fun r =>
      (result? (Candidate.confirmSpent (.still laterCoins) r.2.spent r.2)).isSome) = true := by
  decide +kernel

theorem exists_confirmed_stale :
    ∃ p q, stale.runAll (.still coins) stale.params.coinRules Progress.start = .ok () p ∧
      Candidate.confirmSpent (.still laterCoins) p.spent p = .ok () q := by
  obtain ⟨⟨_, p⟩, hrun, hconfirm⟩ := (Option.any_eq_true _ _).mp confirms_stale
  obtain ⟨_, q, hq⟩ := exists_ok_of_result? hconfirm
  exact ⟨p, q, result?_eq_some.mp hrun, hq⟩

end Sample

/-- The block is found valid before the other coin came, and committed after that. -/
theorem stale_validation_holds_sample :
    ∃ p, Sample.stale.runAll (.still Sample.coins) Sample.stale.params.coinRules Progress.start =
        .ok () p ∧
      Sample.stale.runAll (.still Sample.laterCoins) Sample.stale.params.coinRules Progress.start =
        .ok () p ∧
      Sample.stale.commitCoins .still Sample.laterCoins =
        .ok (Sample.stale.outcome p) ((Sample.stale.outcome p).applyTo Sample.laterCoins) := by
  obtain ⟨p, q, hrules, hconfirm⟩ := Sample.exists_confirmed_stale
  have hholding : Sample.stale.runAll (.holding Sample.coins fun _ => false)
      Sample.stale.params.coinRules Progress.start = .ok () p := hrules
  exact ⟨p, hrules, Candidate.stale_validation_holds rfl hholding hconfirm⟩

end StakeChain
