/-
What the second look does not see.

Where outputs of the same id may not be there, a block is held against the coins at the
places where it creates some. That is done when it is loaded. When it is committed, the
coins that it spends are looked at once more, and the places where it creates coins are
not: what other blocks left there in between is overwritten. A place that was free is
taken again just when one of those blocks left a coin there that no later one spent, by
induction on what was committed.

Another block that was validated on the same coins, and is committed before, shares no
transaction with this one as long as it does not have its coinbase. For any other
transaction spends something, both blocks would spend it, and the second look sees that
it is gone. So it takes the coinbase, which spends nothing, for a coin to be lost.
-/
import StakeChain.Proofs.NewPlaces
import StakeChain.Proofs.Recheck

namespace StakeChain

open Stateful

theorem Block.hash_mem_txIds {b : Block} {o : OutPoint} (ho : o ∈ b.outputPlaces) :
    o.hash ∈ b.txIds := by
  obtain ⟨tx, htx, hplace⟩ := List.mem_flatMap.mp ho
  rw [Tx.hash_of_mem_outputPlaces hplace]
  exact mem_txIds.mpr (List.mem_map_of_mem htx)

/-! ## What is committed in between -/

theorem Validated.find_applyTo_eq_none {v : Validated} {set : CoinSet} {o : OutPoint} :
    (v.applyTo set)[o]? = none ↔
      o ∉ v.created.map Prod.fst ∧ (o ∈ v.undo.spent.map Prod.fst ∨ set[o]? = none) := by
  by_cases ho : o ∈ v.created.map Prod.fst
  · obtain ⟨coin, -, hcoin⟩ : ∃ coin, (o, coin) ∈ v.created ∧ (v.applyTo set)[o]? = some coin :=
      CoinSet.exists_find_insertAll ho
    rw [hcoin]
    exact iff_of_false nofun fun h => h.1 ho
  · rw [Validated.applyTo, CoinSet.find_change_of_notMem ho, ite_eq_left_iff,
      ← or_iff_not_imp_left]
    exact (and_iff_right ho).symm

namespace Candidate

/-- Blocks that are committed one after another, first to last, with what each was found to do.
What was around a block while it was validated may have been other coins. -/
inductive CommitsTo : CoinSet → List (Candidate × Validated) → CoinSet → Prop
  | nothing (set : CoinSet) : CommitsTo set [] set
  | next {c : Candidate} {around : CoinSet → Surroundings} {v : Validated}
      {set middle set' : CoinSet} {later : List (Candidate × Validated)} :
      c.commitCoins around set = .ok v middle → CommitsTo middle later set' →
        CommitsTo set ((c, v) :: later) set'

/-- One of the blocks left a coin at the place, and no later one spent it. -/
def LeavesAt (o : OutPoint) : List (Candidate × Validated) → Prop
  | [] => False
  | e :: later => LeavesAt o later ∨
      o ∈ e.2.created.map Prod.fst ∧ ∀ l ∈ later, o ∉ l.2.undo.spent.map Prod.fst

variable {set set' : CoinSet} {commits : List (Candidate × Validated)} {o : OutPoint}

/-- What is at a place after the blocks: nothing, if none left a coin there, and what was there
before was spent, if there was any. -/
theorem CommitsTo.find_eq_none_iff (h : CommitsTo set commits set') :
    set'[o]? = none ↔ ¬ LeavesAt o commits ∧
      (set[o]? = none ∨ ∃ e ∈ commits, o ∈ e.2.undo.spent.map Prod.fst) := by
  induction h with
  | nothing set => simp [LeavesAt]
  | @next c around v set middle set' later hcommit hlater ih =>
      obtain ⟨-, rfl⟩ := commitCoins_eq_ok.mp hcommit
      rw [ih, Validated.find_applyTo_eq_none, LeavesAt, List.exists_mem_cons_iff]
      by_cases hspent : ∃ e ∈ later, o ∈ e.2.undo.spent.map Prod.fst
      · have hlast : ¬ ∀ l ∈ later, o ∉ l.2.undo.spent.map Prod.fst := by
          push Not
          exact hspent
        simp only [hspent, hlast, and_false, or_false, or_true, and_true]
      · have hlast : ∀ l ∈ later, o ∉ l.2.undo.spent.map Prod.fst := fun l hl hmem =>
          hspent ⟨l, hl, hmem⟩
        rw [or_iff_left hspent, or_iff_left hspent, and_iff_left hlast, not_or, and_assoc,
          or_comm (a := set[o]? = _)]

/-- A coin is left under an id of the block that left it. -/
theorem CommitsTo.mem_txIds_of_leavesAt (h : CommitsTo set commits set')
    (hleaves : LeavesAt o commits) : ∃ e ∈ commits, o.hash ∈ e.1.block.txIds := by
  induction h with
  | nothing set => cases hleaves
  | @next c around v set middle set' later hcommit hlater ih =>
      rcases hleaves with hleaves | ⟨hcreated, -⟩
      · obtain ⟨e, he, hid⟩ := ih hleaves
        exact ⟨e, List.mem_cons_of_mem _ he, hid⟩
      · obtain ⟨loaded, t, hfound⟩ := found_of_validateCoins (commitCoins_eq_ok.mp hcommit).1
        obtain ⟨e, he, rfl⟩ := List.mem_map.mp hcreated
        exact ⟨(c, v), List.mem_cons_self, (hfound.mem_created.mp he).1⟩

/-! ## Places that a block creates -/

variable {c c' : Candidate} {s : Surroundings} {v v' : Validated} {loaded loaded' : CoinSet}
  {t t' : Spending} {cancelled cancelled' : List OutPoint → Bool} {p q : Progress}

/-- The places were free that were looked at. -/
theorem Found.none_outputPlaces (h : c.Found (.holding set cancelled) v loaded t)
    (hbip30 : c.rules.bip30 = true) : ∀ o ∈ c.block.outputPlaces, set[o]? = none := by
  obtain ⟨_, _, hfree⟩ := h.free hbip30
  exact CoinSet.find_of_noneAt hfree

theorem Found.mem_outputPlaces_of_created (h : c.Found s v loaded t)
    (ho : o ∈ v.created.map Prod.fst) : o ∈ c.block.outputPlaces := by
  obtain ⟨e, he, rfl⟩ := List.mem_map.mp ho
  obtain ⟨hid, hcoin⟩ := h.mem_created.mp he
  obtain ⟨tx, htx, hplace⟩ := List.mem_flatMap.mp (h.mem_places hid hcoin)
  exact List.mem_flatMap_of_mem htx (Tx.mem_outputPlaces hplace)

end Candidate

/-! ## Where spent coins come from -/

namespace Spending

variable {c : Candidate} {loaded : CoinSet} {done : List Tx} {s t : Spending} {tx : Tx}
  {coins : List Coin}

/-- Every coin that may be spent was loaded or is at a place of a transaction gone through. -/
def Sourced (loaded : CoinSet) (done : List Tx) (s : Spending) : Prop :=
  ∀ (o : OutPoint) coin, s.available[o]? = some coin →
    loaded[o]? = some coin ∨ ∃ a ∈ done, o ∈ a.outputPlaces

theorem sourced_start (loaded : CoinSet) : Sourced loaded [] (start loaded) :=
  fun _ _ h => .inl h

theorem Sourced.step (h : Sourced loaded done s) (hstep : Stepped c s tx coins t) :
    Sourced loaded (done ++ [tx]) t := by
  intro o coin hcoin
  by_cases ho : o ∈ tx.createdPlaces c.height c.header.time
  · exact .inr ⟨tx, by simp, Tx.mem_outputPlaces ho⟩
  · rw [hstep.find_of_notMem ho] at hcoin
    split at hcoin
    · cases hcoin
    · refine (h o coin hcoin).imp_right ?_
      rintro ⟨a, ha, hplace⟩
      exact ⟨a, List.mem_append_left _ ha, hplace⟩

theorem Sourced.of_mem_spentPlaces (h : Sourced loaded done s) (hstep : Stepped c s tx coins t)
    {o : OutPoint} (ho : o ∈ tx.spentPlaces) :
    (∃ coin, loaded[o]? = some coin) ∨ ∃ a ∈ done, o ∈ a.outputPlaces := by
  obtain ⟨coin, -, hcoin⟩ := List.mem_map.mp (hstep.found ▸ List.mem_map_of_mem ho)
  exact (h o coin hcoin.symm).imp_left fun hloaded => ⟨coin, hloaded⟩

end Spending

namespace Candidate

variable {set set' : CoinSet} {o : OutPoint} {c c' : Candidate} {s : Surroundings}
  {v v' : Validated} {loaded loaded' : CoinSet} {t t' : Spending}
  {cancelled cancelled' : List OutPoint → Bool} {p q : Progress}

/-- What a block spends under an id of its own is at a place where it creates an output. -/
theorem Found.mem_outputPlaces_of_spent (h : c.Found s v loaded t)
    (ho : o ∈ c.block.spentPlaces) (hid : o.hash ∈ c.block.txIds) :
    o ∈ c.block.outputPlaces := by
  have hall : Spending.Sourced loaded c.block.txs t ∧ ∀ tx ∈ c.block.txs, ∀ o ∈ tx.spentPlaces,
      (∃ coin, loaded[o]? = some coin) ∨ o ∈ c.block.outputPlaces := by
    refine Spending.steps_induction (P := fun done s => Spending.Sourced loaded done s ∧
      ∀ tx ∈ done, ∀ o ∈ tx.spentPlaces,
        (∃ coin, loaded[o]? = some coin) ∨ o ∈ c.block.outputPlaces) h.steps
      ⟨Spending.sourced_start loaded, List.forall_mem_nil _⟩ ?_
    intro done rest tx coins s t htxs hdone hstep
    refine ⟨hdone.1.step hstep, fun a ha o ho => ?_⟩
    rw [List.mem_append, List.mem_singleton] at ha
    rcases ha with ha | rfl
    · exact hdone.2 a ha o ho
    · refine (hdone.1.of_mem_spentPlaces hstep ho).imp_right ?_
      rintro ⟨b, hb, hplace⟩
      exact List.mem_flatMap_of_mem (htxs ▸ List.mem_append_left _ hb) hplace
  rw [Block.spentPlaces_eq_flatMap] at ho
  obtain ⟨tx, htx, ho⟩ := List.mem_flatMap.mp ho
  refine (hall.2 tx htx o ho).resolve_left ?_
  rintro ⟨coin, hcoin⟩
  rw [h.none_loaded hid] at hcoin
  cases hcoin

/-- What a block spends where no coin was, it created. -/
theorem Found.own_of_none (h : c.Found (.holding set cancelled) v loaded t)
    (ho : o ∈ c.block.spentPlaces) (hnone : set[o]? = none) : o.hash ∈ c.block.txIds := by
  by_contra hid
  have hplace : o ∈ v.undo.spent.map Prod.fst := by
    rw [h.spent_places]
    exact CoinSet.mem_externalPlaces.mpr ⟨ho, hid⟩
  obtain ⟨e, he, rfl⟩ := List.mem_map.mp hplace
  rw [h.find_spent he] at hnone
  cases hnone

/-- What a block spends where a coin was is gone, if the block does not create coins where there
are some. -/
theorem Found.gone_of_spent (h : c.Found (.holding set cancelled) v loaded t)
    (hbip30 : c.rules.bip30 = true) (ho : o ∈ c.block.spentPlaces) {coin : Coin}
    (hcoin : set[o]? = some coin) : (v.applyTo set)[o]? = none := by
  have hid : o.hash ∉ c.block.txIds := by
    intro hid
    rw [h.none_outputPlaces hbip30 o (h.mem_outputPlaces_of_spent ho hid)] at hcoin
    cases hcoin
  refine Validated.find_applyTo_eq_none.mpr ⟨fun hcreated => ?_, .inl ?_⟩
  · exact hid (Block.hash_mem_txIds (h.mem_outputPlaces_of_created hcreated))
  · rw [h.spent_places]
    exact CoinSet.mem_externalPlaces.mpr ⟨ho, hid⟩

/-- Every coin that was loaded was noted as spent. -/
theorem Found.mem_spent_of_loaded (h : c.Found (.holding set cancelled) v loaded t) {coin : Coin}
    (hcoin : loaded[o]? = some coin) : (o, coin) ∈ v.undo.spent := by
  obtain ⟨_, _, hl⟩ := h.loads
  have hexternal : o ∈ CoinSet.externalPlaces c.block := by
    by_contra hne
    rw [(loads_of_load hl).outside o hne] at hcoin
    cases hcoin
  obtain ⟨⟨_, noted⟩, he, rfl⟩ := List.mem_map.mp (h.spent_places ▸ hexternal)
  cases (h.find_of_loaded hcoin).symm.trans (h.find_spent he)
  exact he

section Overtaken

/-! Two blocks are validated on the same coins, and one is committed. The other one still finds
what it spends. -/

variable (h : c.Found (.holding set cancelled) v loaded t)
  (h' : c'.Found (.holding set cancelled') v' loaded' t') (hbip30 : c.rules.bip30 = true)
  (hbip30' : c'.rules.bip30 = true)
  (hconfirmed : ∀ e ∈ v.undo.spent, (v'.applyTo set)[e.1]? = some e.2)

include h h' hbip30 hbip30' hconfirmed

/-- What one block spends, and did not create in a transaction that both have, the other one does
not spend. -/
theorem Found.notMem_spentPlaces {done : List Tx}
    (hdone : ∀ a ∈ done, a ∈ c.block.txs ∧ a.id ∉ c'.block.txIds)
    (hsource : (∃ coin, loaded[o]? = some coin) ∨ ∃ a ∈ done, o ∈ a.outputPlaces) :
    o ∉ c'.block.spentPlaces := by
  intro ho
  rcases hsource with ⟨coin, hloaded⟩ | ⟨a, ha, hplace⟩
  · have hnoted := h.mem_spent_of_loaded hloaded
    have hgone := h'.gone_of_spent hbip30' ho (h.find_spent hnoted)
    rw [hconfirmed _ hnoted] at hgone
    cases hgone
  · obtain ⟨htx, hid⟩ := hdone a ha
    have hfree := h.none_outputPlaces hbip30 o (List.mem_flatMap_of_mem htx hplace)
    have hown := h'.own_of_none ho hfree
    rw [Tx.hash_of_mem_outputPlaces hplace] at hown
    exact hid hown

/-- They share no transaction, unless they share the coinbase of the one that is late. -/
theorem Found.txs_apart (hc : c.checkPlain = .ok ())
    (hids : IdsTell (c.block.txs ++ c'.block.txs))
    (hcoinbase : ∀ first, c.block.txs.head? = some first → first.id ∉ c'.block.txIds) :
    ∀ tx ∈ c.block.txs, tx.id ∉ c'.block.txIds := by
  have hcheck := checkTxs_of_checkPlain hc
  refine (Spending.steps_induction (P := fun done s => Spending.Sourced loaded done s ∧
    ∀ tx ∈ done, tx.id ∉ c'.block.txIds) h.steps
    ⟨Spending.sourced_start loaded, List.forall_mem_nil _⟩ ?_).2
  intro done rest tx coins s t htxs hdone hstep
  obtain ⟨hsourced, hapart⟩ := hdone
  have htx : tx ∈ c.block.txs := by
    rw [htxs]
    exact List.mem_append_right _ List.mem_cons_self
  have hnew : tx.id ∉ c'.block.txIds := by
    cases hplain : tx.isCoinbase with
    | true =>
        cases eq_nil_of_isCoinbase hc htxs hplain
        exact hcoinbase tx (by rw [htxs]; rfl)
    | false =>
        -- the other block would have the transaction too, and spend what it spends
        intro hid
        obtain ⟨a, ha, haid⟩ := List.mem_map.mp (Block.mem_txIds.mp hid)
        obtain ⟨o, ho⟩ := Tx.exists_mem_spentPlaces hplain
          (Tx.inputs_ne_nil_of_check (hcheck tx htx))
        have hsame : a.spentPlaces = tx.spentPlaces := Tx.spentPlaces_of_stripped
          (hids a (List.mem_append_right _ ha) tx (List.mem_append_left _ htx) haid)
        refine h.notMem_spentPlaces h' hbip30 hbip30' hconfirmed (fun b hb => ⟨?_, hapart b hb⟩)
          (hsourced.of_mem_spentPlaces hstep ho) (Block.mem_spentPlaces ha (hsame ▸ ho))
        exact htxs ▸ List.mem_append_left _ hb
  refine ⟨hsourced.step hstep, fun a ha => ?_⟩
  rw [List.mem_append, List.mem_singleton] at ha
  rcases ha with ha | rfl
  · exact hapart a ha
  · exact hnew

end Overtaken

/-! ## The commit -/

/-- The places where a block that was validated creates coins are free when it is committed, if
they are as they were. Then the commit takes away what the block spends and no other coin. Where
blocks were committed in between, the places are free if none of these blocks left a coin at one;
and if it was a single block, validated on the same coins under the same rule, then already if it
does not have the coinbase. -/
theorem places_free_at_commit (hbip30 : c.rules.bip30 = true)
    (hrules : c.runAll (.holding set cancelled) c.params.coinRules Progress.start = .ok () p)
    (hconfirm : confirmSpent (.still set') p.spent p = .ok () q) :
    ((∀ o ∈ c.block.outputPlaces, set'[o]? = none) ↔
      ∀ o ∈ c.block.outputPlaces, set'[o]? = set[o]?) ∧
    ((∀ o ∈ c.block.outputPlaces, set'[o]? = none) → ∀ (o : OutPoint) coin,
      set'[o]? = some coin →
        (o, coin) ∈ p.spent ∨ ((c.outcome p).applyTo set')[o]? = some coin) ∧
    (∀ commits, CommitsTo set commits set' →
      ((∀ o ∈ c.block.outputPlaces, set'[o]? = none) ↔
        ∀ o ∈ c.block.outputPlaces, ¬ LeavesAt o commits) ∧
      ((∀ e ∈ commits, ∀ tx ∈ c.block.txs, tx.id ∉ e.1.block.txIds) →
        ∀ o ∈ c.block.outputPlaces, ¬ LeavesAt o commits)) ∧
    ∀ (c' : Candidate) cancelled' v',
      c'.commitCoins (Surroundings.holding · cancelled') set = .ok v' set' →
      c.checkPlain = .ok () → c'.rules.bip30 = true → IdsTell (c.block.txs ++ c'.block.txs) →
      (∀ first, c.block.txs.head? = some first → first.id ∉ c'.block.txIds) →
        ∀ o ∈ c.block.outputPlaces, set'[o]? = none := by
  obtain ⟨loaded, t, hfound, -⟩ := found_of_runAll hrules
  have hconfirmed : ∀ e ∈ p.spent, set'[e.1]? = some e.2 := (confirmSpent_ok hconfirm).1
  have hfree := hfound.none_outputPlaces hbip30
  refine ⟨?_, fun hnone o coin hcoin => ?_, fun commits hcommits => ?_,
    fun c' cancelled' v' hcommit hc hbip30' hids hcoinbase o ho => ?_⟩
  · exact forall₂_congr fun o ho => by rw [hfree o ho]
  · have hcreated : o ∉ (c.outcome p).created.map Prod.fst := by
      intro ho
      rw [hnone o (hfound.mem_outputPlaces_of_created ho)] at hcoin
      cases hcoin
    rw [Validated.applyTo, CoinSet.find_change_of_notMem hcreated]
    split
    · next hspent =>
        obtain ⟨e, he, rfl⟩ := List.mem_map.mp hspent
        rw [hconfirmed e he] at hcoin
        cases hcoin
        exact .inl he
    · exact .inr hcoin
  · refine ⟨forall₂_congr fun o ho => ?_, fun hapart o ho hleaves => ?_⟩
    · rw [hcommits.find_eq_none_iff]
      exact and_iff_left (.inl (hfree o ho))
    · obtain ⟨e, he, hid⟩ := hcommits.mem_txIds_of_leavesAt hleaves
      obtain ⟨tx, htx, hplace⟩ := List.mem_flatMap.mp ho
      rw [Tx.hash_of_mem_outputPlaces hplace] at hid
      exact hapart e he tx htx hid
  · obtain ⟨hvalid, rfl⟩ := commitCoins_eq_ok.mp hcommit
    obtain ⟨loaded', t', hfound'⟩ := found_of_validateCoins hvalid
    have hapart := hfound.txs_apart hfound' hbip30 hbip30' hconfirmed hc hids hcoinbase
    obtain ⟨tx, htx, hplace⟩ := List.mem_flatMap.mp ho
    refine Validated.find_applyTo_eq_none.mpr ⟨fun hcreated => hapart tx htx ?_, .inr (hfree o ho)⟩
    rw [← Tx.hash_of_mem_outputPlaces hplace]
    exact Block.hash_mem_txIds (hfound'.mem_outputPlaces_of_created hcreated)

end Candidate

/-! ## A block that gets ahead -/

namespace Sample

/-- A transaction that spends the one coin. -/
def spendsOne : Tx :=
  ⟨1, [⟨place, Script.empty, sequenceFinal, []⟩], [⟨4, anyone⟩], 0⟩

/-- The block that is committed late: it has a coinbase and spends the one coin. -/
def late : Candidate :=
  first .regtest
    { header := ⟨4, Digest.zero, (Merkle.root [coinbase.id, spendsOne.id]).hash, 1600000000,
        0x207fffff, 0⟩
      txs := [coinbase, spendsOne]
      signature := [] }

/-- A block of a coinbase, at another time, that is committed before. -/
def ahead (tx : Tx) : Candidate :=
  first .regtest
    { header := ⟨4, Digest.zero, tx.id, 1600000016, 0x207fffff, 0⟩
      txs := [tx]
      signature := [] }

/-- The coins after the block that was committed before, and what was found for the late one. -/
def overtaken? (tx : Tx) : Option (CoinSet × Progress) := do
  let (_, set') ← result? ((ahead tx).commitCoins .still coins)
  let (_, p) ← result? (late.runAll (.still coins) late.params.coinRules Progress.start)
  let _ ← result? (Candidate.confirmSpent (.still set') p.spent p)
  some (set', p)

theorem exists_of_overtaken? {tx : Tx} {set' : CoinSet} {p : Progress}
    (h : overtaken? tx = some (set', p)) :
    ∃ v q, (ahead tx).commitCoins .still coins = .ok v set' ∧
      late.runAll (.holding coins fun _ => false) late.params.coinRules Progress.start =
        .ok () p ∧
      Candidate.confirmSpent (.still set') p.spent p = .ok () q := by
  obtain ⟨⟨v, _⟩, hcommit, h⟩ := Option.bind_eq_some_iff.mp h
  obtain ⟨⟨_, _⟩, hrules, h⟩ := Option.bind_eq_some_iff.mp h
  obtain ⟨⟨_, q⟩, hconfirm, h⟩ := Option.bind_eq_some_iff.mp h
  cases h
  exact ⟨v, q, result?_eq_some.mp hcommit, result?_eq_some.mp hrules,
    result?_eq_some.mp hconfirm⟩

theorem overtakes_opening : (overtaken? (opening 0)).isSome = true := by
  decide +kernel

theorem checkPlain_late : late.checkPlain = .ok () := by
  decide +kernel

theorem idsTell_late : IdsTell (late.block.txs ++ (ahead (opening 0)).block.txs) := by
  change ∀ a ∈ [coinbase, spendsOne, opening 0], ∀ b ∈ [coinbase, spendsOne, opening 0],
    a.id = b.id → a.stripped = b.stripped
  decide +kernel

theorem coinbase_notMem_ahead : coinbase.id ∉ (ahead (opening 0)).block.txIds := by
  decide +kernel

/-- The place of the coin of the coinbase. -/
def reward : OutPoint :=
  ⟨coinbase.id, 0⟩

theorem overtakes_coinbase : ((overtaken? coinbase).any fun r =>
    r.1[reward]?.map Coin.time == some 1600000016 &&
      (((late.outcome r.2).applyTo r.1)[reward]?.map Coin.time == some 1600000000) &&
      !(r.2.spent.map Prod.fst).contains reward) = true := by
  decide +kernel

end Sample

/-- A block with another coinbase gets ahead. -/
theorem places_free_at_commit_opening :
    ∃ v set' p q, (Sample.ahead (Sample.opening 0)).commitCoins .still Sample.coins = .ok v set' ∧
      Sample.late.runAll (.holding Sample.coins fun _ => false) Sample.late.params.coinRules
        Progress.start = .ok () p ∧
      Candidate.confirmSpent (.still set') p.spent p = .ok () q ∧
      (∀ o ∈ Sample.late.block.outputPlaces, set'[o]? = none) ∧
      ∀ o ∈ Sample.late.block.outputPlaces,
        ¬ Candidate.LeavesAt o [(Sample.ahead (Sample.opening 0), v)] := by
  obtain ⟨⟨set', p⟩, hovertaken⟩ := Option.isSome_iff_exists.mp Sample.overtakes_opening
  obtain ⟨v, q, hcommit, hrules, hconfirm⟩ := Sample.exists_of_overtaken? hovertaken
  obtain ⟨-, -, hbetween, hsingle⟩ := Candidate.places_free_at_commit rfl hrules hconfirm
  have hfree : ∀ o ∈ Sample.late.block.outputPlaces, set'[o]? = none := by
    refine hsingle (Sample.ahead (Sample.opening 0)) (fun _ => false) v hcommit
      Sample.checkPlain_late rfl Sample.idsTell_late fun first hfirst => ?_
    cases hfirst
    exact Sample.coinbase_notMem_ahead
  have hleaves := (hbetween _ (.next hcommit (.nothing _))).1.mp hfree
  exact ⟨v, set', p, q, hcommit, hrules, hconfirm, hfree, hleaves⟩

/-- A block with the same coinbase gets ahead: everything is found right, and the commit puts
another coin in the place of one that is not spent. -/
theorem coin_overwritten_unseen :
    ∃ v set' p q, (Sample.ahead Sample.coinbase).commitCoins .still Sample.coins = .ok v set' ∧
      Sample.late.rules.bip30 = true ∧
      Sample.late.runAll (.holding Sample.coins fun _ => false) Sample.late.params.coinRules
        Progress.start = .ok () p ∧
      Candidate.confirmSpent (.still set') p.spent p = .ok () q ∧
      ∃ o ∈ Sample.late.block.outputPlaces, ∃ coin coin', set'[o]? = some coin ∧
        (o, coin) ∉ p.spent ∧ ((Sample.late.outcome p).applyTo set')[o]? = some coin' ∧
        coin' ≠ coin := by
  obtain ⟨⟨set', p⟩, hovertaken, hcoins⟩ := (Option.any_eq_true _ _).mp Sample.overtakes_coinbase
  obtain ⟨v, q, hcommit, hrules, hconfirm⟩ := Sample.exists_of_overtaken? hovertaken
  simp only [Bool.and_eq_true, beq_iff_eq, Option.map_eq_some_iff] at hcoins
  obtain ⟨⟨⟨coin, hcoin, htime⟩, coin', hcoin', htime'⟩, hspent⟩ := hcoins
  refine ⟨v, set', p, q, hcommit, rfl, hrules, hconfirm, Sample.reward, List.mem_cons_self, coin,
    coin', hcoin, fun hmem => ?_, hcoin', ?_⟩
  · have hplace : Sample.reward ∈ p.spent.map Prod.fst := List.mem_map_of_mem hmem
    rw [List.contains_iff_mem.mpr hplace] at hspent
    cases hspent
  · rintro rfl
    rw [htime'] at htime
    cases htime

end StakeChain
