/-
Delegated coins in coinstakes.

The script of a delegated coin lets the hot key spend in any coinstake, and
leaves it to a rule to see that the coinstake gives everything back. The
rule looks at the first coin only: if that one is delegated, all coins have
to be under its script, and all outputs too. So what is promised of a
delegated coin holds exactly if the first coin of its coinstake is
delegated, wherever the coin itself stands. Behind a first coin that is
not, a hot key takes what it likes.
-/
import StakeChain.Proofs.ColdStaking
import StakeChain.Proofs.Engine
import StakeChain.Proofs.Worth

namespace StakeChain

open Stateful Eval

/-- An input of a coinstake spends a coin that is under a cold-staking script, with the hot key:
the locking script took the branch of the selecting item being true. -/
structure SpendsHot (c : Candidate) (stake : Tx) (coins : List Coin) (index : Nat)
    (script : Script) : Prop where
  delegated : script.coldStaking?.isSome
  spends : ∃ input coin events, stake.inputs[index]? = some input ∧ coins[index]? = some coin ∧
    coin.output.script = script ∧
    Verification.LockingRun
      ⟨c.rules.script, .ofTx stake index coin.output.value (some (.ofTx stake))⟩
      input.scriptSig script events ∧
    .branch true ∈ events

/-- A coinstake keeps all that it spends under a script. -/
structure KeepsUnder (script : Script) (stake : Tx) (coins : List Coin) : Prop where
  spent : ∀ coin ∈ coins, coin.output.script = script
  paid : ∀ o ∈ stake.outputs.drop 1, o.script = script
  total_le : total coins ≤ stake.paid

namespace StakeRule

variable {c : Candidate} {s : Surroundings} {p p' : Progress} {stake : Tx} {coins : List Coin}

/-- What the check finds where the script is a cold-staking script. -/
theorem keepsUnder_of_checkColdStaking {script : Script} (hscript : script.coldStaking?.isSome)
    (h : checkColdStaking coins script stake = .ok ()) : KeepsUnder script stake coins := by
  rw [checkColdStaking, if_pos hscript] at h
  obtain ⟨_, hspent, h⟩ := Verdict.bind_eq_ok.mp h
  obtain ⟨_, hpaid, h⟩ := Verdict.bind_eq_ok.mp h
  rw [Verdict.demand_eq_ok, List.all_eq_true] at hspent hpaid
  refine ⟨fun coin hcoin => eq_of_beq (hspent coin hcoin), fun o ho => eq_of_beq (hpaid o ho), ?_⟩
  split at h
  · cases h
  · cases h
  · rename_i valueIn valueOut hin hout
    have hle := of_decide_eq_true (Verdict.demand_eq_ok.mp h)
    rw [sumInt64From_eq_some hin, zero_add, Tx.totalOut_eq_some hout] at hle
    exact hle

/-- For a coinstake that spends coins the rule is the check for the script of the first. -/
theorem run_coldStaking_eq_ok {first : Coin} (hstaked : c.block.isProofOfStake)
    (hstake : c.block.txs[1]? = some stake) (hcoins : p.inputCoins[1]? = some coins)
    (hfirst : coins.head? = some first) :
    coldStaking.run c s p = .ok () p' ↔
      checkColdStaking coins first.output.script stake = .ok () ∧ p' = p := by
  obtain ⟨rest, rfl⟩ := List.head?_eq_some_iff.mp hfirst
  have hrun : coldStaking.run c s p =
      Validation.ofExcept (checkColdStaking (first :: rest) first.output.script stake) p := by
    rw [coldStaking]
    dsimp only
    rw [if_pos hstaked, bind_of_ok (get_eq_ok.mpr ⟨rfl, rfl⟩), hcoins, hstake]
  rw [hrun, Validation.ofExcept_eq_ok]

end StakeRule

/-- What is promised of a delegated coin that the hot key spends, in any place of a coinstake, is
kept exactly if the first coin is delegated. -/
theorem keepsUnder_iff_first (c : Candidate) (s : Surroundings) (p p' : Progress) (stake : Tx)
    (coins : List Coin) (index : Nat) (script : Script) (hstaked : c.block.isProofOfStake)
    (hstake : c.block.txs[1]? = some stake) (hcoins : p.inputCoins[1]? = some coins)
    (hpass : StakeRule.coldStaking.run c s p = .ok () p')
    (hhot : SpendsHot c stake coins index script) :
    KeepsUnder script stake coins ↔
      ∃ first, coins.head? = some first ∧ first.output.script.coldStaking?.isSome := by
  obtain ⟨-, coin, -, -, hcoin, hscript, -⟩ := hhot.spends
  have hmem := List.mem_of_getElem? hcoin
  constructor
  · intro hkeeps
    obtain ⟨first, rest, rfl⟩ := List.exists_cons_of_ne_nil (List.ne_nil_of_mem hmem)
    refine ⟨first, rfl, ?_⟩
    rw [hkeeps.spent first List.mem_cons_self]
    exact hhot.delegated
  · rintro ⟨first, hfirst, hdelegated⟩
    have hkeeps := StakeRule.keepsUnder_of_checkColdStaking hdelegated
      ((StakeRule.run_coldStaking_eq_ok hstaked hstake hcoins hfirst).mp hpass).1
    rw [← hscript, hkeeps.spent coin hmem]
    exact hkeeps

namespace Sample

def delegated : Script :=
  .payToColdStaking (hash160 hotKey) Digest.zero

/-- What the hot key shows to spend. -/
def shownHot (s : Nat) : Script :=
  ⟨Script.pushData (hotSignature s ++ [1]) ++ [Opcode.op1] ++ Script.pushData hotKey⟩

/-- The place of the delegated coin. -/
def delegatedPlace : OutPoint :=
  ⟨Digest.ofNat 1, 1⟩

/-- A coin for anyone, and a delegated one. -/
def mixedCoins : CoinSet :=
  ((∅ : CoinSet).insert place (oldCoin anyone)).insert delegatedPlace (oldCoin delegated)

/-- How an input of such a coinstake is verified. -/
def spendOf (stake : Tx) (index : Nat) : Spend :=
  ⟨(staked stake []).rules.script, .ofTx stake index 5 (some (.ofTx stake))⟩

/-- The coinstake of a staked block with these coins, when the rule about them comes. -/
def foundCoins (coins : List Coin) : Progress :=
  { Progress.start with inputCoins := [[], coins] }

/-- A coinstake that spends the delegated coin alone and pays it back. -/
def keep : Tx where
  version := 1
  inputs :=
    [⟨delegatedPlace,
      shownHot 0x0bad59ae9315fe962a2a0dd03bf66cd9115ea8603ee3a1bc5271789853f3af17,
      sequenceFinal, []⟩]
  outputs := [⟨0, .empty⟩, ⟨5, delegated⟩]
  lockTime := 0

def keeping : Candidate :=
  staked keep []

/-- A coinstake that spends the coin for anyone and the delegated one, and pays both to the hot
key. -/
def leak : Tx where
  version := 1
  inputs :=
    [⟨place, .empty, sequenceFinal, []⟩,
      ⟨delegatedPlace,
        shownHot 0x3218005d7cd19fd960999c9e404ed64a67ac7fbc0eb0edd9019128eca4912932,
        sequenceFinal, []⟩]
  outputs := [⟨0, .empty⟩, ⟨10, .payToPubKey hotKey⟩]
  lockTime := 0

def leaking : Candidate :=
  staked leak
    (hotSignature 0x24ca8b1f1faa61fd88337bd69d5e494d6482b473b1ef349a9446045492582fef)

/-- An input that shows this takes the hot branch, if both scripts go through. -/
theorem spendsHot_of_shownHot {stake : Tx} {signature : Bytes} {coins : List Coin}
    {index s : Nat} {input : TxIn} (hinput : stake.inputs[index]? = some input)
    (hshown : input.scriptSig = shownHot s) (hcoin : coins[index]? = some (oldCoin delegated))
    (hleft : result? (Verification.run (spendOf stake index) .legacy (shownHot s) [] []) =
      some ([hotKey, [1], hotSignature s ++ [1]], []))
    (hstack : (result? (Verification.run (spendOf stake index) .legacy delegated
      [hotKey, [1], hotSignature s ++ [1]] [])).isSome) :
    SpendsHot (staked stake signature) stake coins index delegated := by
  obtain ⟨stack, after, hstack⟩ := exists_ok_of_result? hstack
  obtain ⟨events, hrun, hbranch⟩ :=
    Verification.lockingRun_hot rfl (result?_eq_some.mp hleft) (by decide) hstack
  refine ⟨?_, input, oldCoin delegated, events, hinput, hcoin, rfl, ?_, hbranch⟩
  · rw [delegated, Script.coldStaking?_payToColdStaking]
    rfl
  · rw [hshown]
    exact hrun

theorem spendsHot_keep : SpendsHot keeping keep [oldCoin delegated] 0 delegated :=
  spendsHot_of_shownHot rfl rfl rfl (by decide +kernel) (by decide +kernel)

theorem spendsHot_leak :
    SpendsHot leaking leak [oldCoin anyone, oldCoin delegated] 1 delegated :=
  spendsHot_of_shownHot rfl rfl rfl (by decide +kernel) (by decide +kernel)

theorem accepted_leaking : ∃ v, leaking.validate (.still mixedCoins) = .ok v :=
  Verdict.exists_ok_of_isSome (by decide +kernel)

end Sample

/-- The coinstake that pays back: its first coin is the delegated one. -/
theorem keepsUnder_iff_first_keeping :
    KeepsUnder Sample.delegated Sample.keep [Sample.oldCoin Sample.delegated] := by
  have hpass : StakeRule.coldStaking.run Sample.keeping (.still Sample.mixedCoins)
      (Sample.foundCoins [Sample.oldCoin Sample.delegated]) =
        .ok () (Sample.foundCoins [Sample.oldCoin Sample.delegated]) :=
    (StakeRule.run_coldStaking_eq_ok rfl rfl rfl rfl).mpr ⟨by decide +kernel, rfl⟩
  exact (keepsUnder_iff_first Sample.keeping _ _ _ Sample.keep _ 0 Sample.delegated rfl rfl rfl
    hpass Sample.spendsHot_keep).mpr ⟨_, rfl, Sample.spendsHot_keep.delegated⟩

/-- A block with a delegated coin in second place is accepted, although the hot key takes all of
it. -/
theorem keepsUnder_leaked :
    (∃ v, Sample.leaking.validate (.still Sample.mixedCoins) = .ok v) ∧
      Sample.leaking.block.isProofOfStake ∧
      Sample.leaking.block.txs[1]? = some Sample.leak ∧
      Sample.leak.inputs.map (Sample.mixedCoins[·.prevout]?) =
        [some (Sample.oldCoin Sample.anyone), some (Sample.oldCoin Sample.delegated)] ∧
      (∃ p, p.inputCoins[1]? =
          some [Sample.oldCoin Sample.anyone, Sample.oldCoin Sample.delegated] ∧
        StakeRule.coldStaking.run Sample.leaking (.still Sample.mixedCoins) p = .ok () p) ∧
      SpendsHot Sample.leaking Sample.leak
        [Sample.oldCoin Sample.anyone, Sample.oldCoin Sample.delegated] 1 Sample.delegated ∧
      ¬ KeepsUnder Sample.delegated Sample.leak
        [Sample.oldCoin Sample.anyone, Sample.oldCoin Sample.delegated] := by
  refine ⟨Sample.accepted_leaking, rfl, rfl, by decide +kernel, ⟨Sample.foundCoins _, rfl, ?_⟩,
    Sample.spendsHot_leak, ?_⟩
  · exact (StakeRule.run_coldStaking_eq_ok rfl rfl rfl rfl).mpr ⟨by decide +kernel, rfl⟩
  · intro hkeeps
    have hfirst := hkeeps.spent (Sample.oldCoin Sample.anyone) List.mem_cons_self
    exact absurd hfirst (by decide +kernel)

end StakeChain
