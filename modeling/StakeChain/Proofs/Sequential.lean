/-
A block as a walk over one map.

Validation loads the coins of a block first, goes through its transactions
on the loaded coins alone, and changes the set of coins in the end. Here it
is compared with the plain account of a block: one map, from which every
transaction removes the coins it spends and to which it adds those it
creates. The two maps agree on every place that the block touches, and that
is kept by each transaction.
-/
import StakeChain.Proofs.Engine

namespace StakeChain

/-- An input of a block: the index of its transaction, and its own there. -/
structure InputIndex where
  tx : Nat
  input : Nat
deriving DecidableEq

/-- A map of coins, and the coins that were removed from it, latest first. -/
structure Ledger where
  coins : CoinSet
  removed : PlacedCoins

namespace Ledger

/-- The ledger before a block. -/
def ofCoins (set : CoinSet) : Ledger :=
  ⟨set, []⟩

/-- Removes the coins of some places in order. Where there is none, the index of the place. -/
def removeAll (l : Ledger) (index : Nat) : List OutPoint → Except Nat Ledger
  | [] => .ok l
  | o :: rest =>
      match l.coins[o]? with
      | none => .error index
      | some coin => removeAll ⟨l.coins.erase o, (o, coin) :: l.removed⟩ (index + 1) rest

/-- Enters one transaction: its coins are removed, unless it is a coinbase, and those that it
creates are added. -/
def enter (c : Candidate) (l : Ledger) (tx : Tx) : Except Nat Ledger := do
  let l ← l.removeAll 0 tx.spentPlaces
  pure { l with coins := l.coins.insertAll (tx.createdCoins c.height c.header.time) }

/-- Enters transactions in order, the first of which has that index. -/
def walk (c : Candidate) (l : Ledger) (index : Nat) : List Tx → Except InputIndex Ledger
  | [] => .ok l
  | tx :: rest =>
      match l.enter c tx with
      | .error input => .error ⟨index, input⟩
      | .ok l => walk c l (index + 1) rest

/-! ## Removing coins -/

variable {l : Ledger} {c : Candidate}

/-- Places that all have a coin, and are all different, are all removed. -/
theorem removeAll_eq_ok {places : List OutPoint} {coins : List Coin} {index : Nat}
    (hf : places.map (l.coins[·]?) = coins.map some) (hn : places.Nodup) :
    l.removeAll index places =
      .ok ⟨l.coins.eraseAll places, (places.zip coins).reverse ++ l.removed⟩ := by
  induction places generalizing l coins index with
  | nil => rfl
  | cons o rest ih =>
      cases coins with
      | nil => cases hf
      | cons coin coins =>
          obtain ⟨ho, hr⟩ := List.cons.inj hf
          change l.coins[o]? = some coin at ho
          rw [List.nodup_cons] at hn
          have hmap : rest.map ((l.coins.erase o)[·]?) = coins.map some :=
            (CoinSet.map_find_erase hn.1).trans hr
          rw [removeAll, ho]
          dsimp only
          rw [ih (l := ⟨l.coins.erase o, (o, coin) :: l.removed⟩) hmap hn.2]
          simp only [List.zip_cons_cons, List.reverse_cons, List.append_assoc,
            List.singleton_append]
          rfl

/-- The first place that has no coin, when those before were removed, is the one that is
reported. -/
theorem removeAll_eq_error {before : List OutPoint} {o : OutPoint} {coins : List Coin}
    (index : Nat) (rest : List OutPoint)
    (hf : before.map (l.coins[·]?) = coins.map some) (hn : before.Nodup)
    (ho : (l.coins.eraseAll before)[o]? = none) :
    l.removeAll index (before ++ o :: rest) = .error (index + before.length) := by
  induction before generalizing l coins index with
  | nil =>
      change l.coins[o]? = none at ho
      rw [List.nil_append, removeAll, ho]
      rfl
  | cons a before ih =>
      cases coins with
      | nil => cases hf
      | cons coin coins =>
          obtain ⟨ha, hr⟩ := List.cons.inj hf
          change l.coins[a]? = some coin at ha
          rw [List.nodup_cons] at hn
          have hmap : before.map ((l.coins.erase a)[·]?) = coins.map some :=
            (CoinSet.map_find_erase hn.1).trans hr
          rw [List.cons_append, removeAll, ha]
          dsimp only
          rw [ih (l := ⟨l.coins.erase a, (a, coin) :: l.removed⟩) (index + 1) hmap hn.2 ho,
            List.length_cons]
          congr 1
          omega

theorem walk_append {txs : List Tx} {index : Nat} {l' : Ledger} (more : List Tx)
    (h : l.walk c index txs = .ok l') :
    l.walk c index (txs ++ more) = l'.walk c (index + txs.length) more := by
  induction txs generalizing l index with
  | nil =>
      cases h
      rfl
  | cons tx rest ih =>
      rw [walk] at h
      rw [List.cons_append, walk]
      cases he : l.enter c tx with
      | error input =>
          rw [he] at h
          cases h
      | ok l₁ =>
          rw [he] at h
          dsimp only at h ⊢
          rw [ih h, List.length_cons, Nat.add_assoc, Nat.add_comm 1]

/-- A transaction whose places all have a coin is entered. -/
theorem enter_eq_ok {tx : Tx} {coins : List Coin}
    (hf : tx.spentPlaces.map (l.coins[·]?) = coins.map some) (hn : tx.spentPlaces.Nodup) :
    l.enter c tx =
      .ok ⟨l.coins.change tx.spentPlaces (tx.createdCoins c.height c.header.time),
        (tx.spentPlaces.zip coins).reverse ++ l.removed⟩ := by
  rw [enter, removeAll_eq_ok hf hn]
  rfl

end Ledger

/-! ## Both agree after each transaction -/

namespace Candidate

variable {c : Candidate} {set loaded : CoinSet}

/-- How the walk of a validation and a ledger correspond. They have the same coins at every place
of the block, elsewhere the ledger has those of the set, and the coins noted as spent are those
removed that the block did not create. -/
structure Agrees (c : Candidate) (set loaded : CoinSet) (done : List Tx) (s : Spending)
    (l : Ledger) : Prop where
  sound : Spending.Sound c.block.txIds loaded done s
  touched : ∀ o : OutPoint, o.hash ∈ c.block.txIds ∨ o ∈ c.block.spentPlaces →
    s.available[o]? = l.coins[o]?
  untouched : ∀ o : OutPoint, o.hash ∉ c.block.txIds → o ∉ c.block.spentPlaces →
    l.coins[o]? = set[o]?
  removed : l.removed.reverse.filter (fun e => !c.block.txIds.contains e.1.hash) =
    s.spent.reverse

theorem agrees_start (hl : c.Loads set loaded)
    (hnew : ∀ o : OutPoint, o.hash ∈ c.block.txIds → set[o]? = none) :
    c.Agrees set loaded [] (Spending.start loaded) (Ledger.ofCoins set) where
  sound := Spending.sound_start fun _ => hl.find_own
  touched o ho := by
    change loaded[o]? = set[o]?
    by_cases hid : o.hash ∈ c.block.txIds
    · rw [hl.find_own hid, hnew o hid]
    · exact hl.inside o (CoinSet.mem_externalPlaces.mpr ⟨ho.resolve_left hid, hid⟩)
  untouched _ _ _ := rfl
  removed := rfl

/-- Places of the block look the same to both. -/
theorem Agrees.map_find {done : List Tx} {s : Spending} {l : Ledger} {places : List OutPoint}
    (ha : c.Agrees set loaded done s l) (hp : ∀ o ∈ places, o ∈ c.block.spentPlaces) :
    places.map (l.coins[·]?) = places.map (s.available[·]?) :=
  List.map_congr_left fun o ho => (ha.touched o (.inr (hp o ho))).symm

/-- A transaction of the block keeps them in agreement. -/
theorem Agrees.step {done : List Tx} {s t : Spending} {l : Ledger} {tx : Tx}
    {coins : List Coin} (ha : c.Agrees set loaded done s l) (h : Spending.Stepped c s tx coins t)
    (htx : tx ∈ c.block.txs) :
    ∃ l', l.enter c tx = .ok l' ∧ c.Agrees set loaded (done ++ [tx]) t l' := by
  have hid : tx.id ∈ c.block.txIds := Block.mem_txIds.mpr (List.mem_map_of_mem htx)
  have hmap := ha.map_find fun o ho => Block.mem_spentPlaces htx ho
  refine ⟨_, Ledger.enter_eq_ok (hmap.trans h.found) h.nodup, ?_⟩
  exact
    { sound := ha.sound.step h hid
      touched := by
        intro o ho
        rw [h.available]
        exact CoinSet.find_change_congr (ha.touched o ho)
      untouched := by
        intro o hout hsp
        have hc : o ∉ tx.createdPlaces c.height c.header.time :=
          fun hm => hout (Tx.hash_of_mem_createdPlaces hm ▸ hid)
        change (l.coins.change _ _)[o]? = _
        rw [CoinSet.find_change_of_notMem hc, if_neg (mt (Block.mem_spentPlaces htx) hsp),
          ha.untouched o hout hsp]
      removed := by
        rw [h.spent_eq ha.sound, List.reverse_append, List.reverse_reverse, List.filter_append,
          ha.removed] }

/-- Where the validation goes through some transactions, so does the ledger, in agreement. -/
theorem agrees_of_steps {txs : List Tx} {s : Spending} (hl : c.Loads set loaded)
    (hnew : ∀ o : OutPoint, o.hash ∈ c.block.txIds → set[o]? = none)
    (hsub : txs ⊆ c.block.txs) (h : (Spending.start loaded).steps c txs = .ok s) :
    ∃ l, (Ledger.ofCoins set).walk c 0 txs = .ok l ∧ c.Agrees set loaded txs s l := by
  refine Spending.steps_induction (P := fun done s =>
    ∃ l, (Ledger.ofCoins set).walk c 0 done = .ok l ∧ c.Agrees set loaded done s l) h
    ⟨_, rfl, agrees_start hl hnew⟩ ?_
  rintro done rest tx coins s t rfl ⟨l, hw, ha⟩ hstep
  have htx : tx ∈ c.block.txs := hsub (List.mem_append_right _ List.mem_cons_self)
  obtain ⟨l', he, ha'⟩ := ha.step hstep htx
  refine ⟨l', ?_, ha'⟩
  rw [Ledger.walk_append [tx] hw, Ledger.walk, he]
  rfl

end Candidate

/-! ## Coins that are missing

Only taking a coin that is not there ends a walk over a missing coin, so the
walk did not get further than the input that names it. -/

namespace Spending

variable {c : Candidate}

/-- The rejection of a block that spends a coin which is not there. -/
def missing : Rejection :=
  .consensus .badTransactionMissingInput

/-- The input at which a walk over transactions ends for want of a coin: it got through all before
it, and the coin is not there. -/
def LacksAt (c : Candidate) (s : Spending) (txs : List Tx) (i : InputIndex) : Prop :=
  ∃ tx o before coins after, txs[i.tx]? = some tx ∧ tx.spentPlaces[i.input]? = some o ∧
    s.steps c (txs.take i.tx) = .ok before ∧
    before.takeAll [] (tx.spentPlaces.take i.input) = .ok (coins, after) ∧
    after.take o = .error missing

theorem takeAll_eq_error {s : Spending} {acc : List Coin} {places : List OutPoint}
    {e : Rejection} (h : s.takeAll acc places = .error e) :
    ∃ k o coins after, places[k]? = some o ∧
      s.takeAll acc (places.take k) = .ok (coins, after) ∧ after.take o = .error e := by
  induction places generalizing s acc with
  | nil => cases h
  | cons o rest ih =>
      rw [takeAll, Verdict.bind_eq_error] at h
      rcases h with h | ⟨⟨coin, t⟩, ht, h⟩
      · exact ⟨0, o, _, s, rfl, rfl, h⟩
      · obtain ⟨k, o', coins, after, hk, ha, he⟩ := ih h
        refine ⟨k + 1, o', coins, after, hk, ?_, he⟩
        rw [List.take_succ_cons, takeAll, ht]
        exact ha

theorem valueInFrom_ne_missing {p : Params} {height : Nat} {total : Int} {coins : List Coin} :
    Tx.valueInFrom p height total coins ≠ .error missing := by
  induction coins generalizing total with
  | nil => exact Verdict.ok_ne_error
  | cons coin rest ih =>
      refine Verdict.bind_ne_error ?_ fun _ =>
        Verdict.bind_ne_error (Verdict.demand_ne_error (by decide)) fun _ => ih
      exact Verdict.bind_ne_error (Verdict.demand_ne_error (by decide)) fun _ =>
        Verdict.demand_ne_error (by decide)

theorem fee_ne_missing {tx : Tx} {coins : List Coin} {height : Nat} {p : Params} :
    tx.fee coins height p ≠ .error missing := by
  refine Verdict.bind_ne_error valueInFrom_ne_missing fun valueIn => ?_
  split
  · exact Verdict.ok_ne_error
  · split
    · exact Verdict.error_ne_error (by decide)
    · exact Verdict.bind_ne_error (Verdict.demand_ne_error (by decide)) fun _ =>
        Verdict.bind_ne_error Verdict.fault_ne_error fun _ =>
          Verdict.bind_ne_error (Verdict.demand_ne_error (by decide)) fun _ =>
            Verdict.bind_ne_error (Verdict.demand_ne_error (by decide)) fun _ =>
              Verdict.ok_ne_error

theorem account_ne_missing {s : Spending} {tx : Tx} {coins : List Coin} :
    s.account c tx coins ≠ .error missing := by
  rw [account]
  split
  · exact Verdict.ok_ne_error
  · refine Verdict.bind_ne_error fee_ne_missing fun fee => ?_
    split
    · refine Verdict.bind_ne_error ?_ fun _ => Verdict.ok_ne_error
      rw [mintedBy]
      split
      · exact Verdict.error_ne_error (by decide)
      · exact Verdict.fault_ne_error
    · exact Verdict.bind_ne_error (Verdict.demand_ne_error (by decide)) fun _ =>
        Verdict.ok_ne_error

theorem takeInputs_eq_missing {s : Spending} {tx : Tx}
    (h : s.takeInputs c tx = .error missing) : s.takeAll [] tx.spentPlaces = .error missing := by
  rw [takeInputs] at h
  rw [Tx.spentPlaces]
  split at h
  · cases h
  · rename_i hc
    rw [if_neg hc]
    refine (Verdict.bind_eq_error.mp h).resolve_right ?_
    rintro ⟨⟨coins, t⟩, _, h⟩
    refine Verdict.bind_ne_error ?_ (fun _ => ?_) h
    · exact Verdict.demand_ne_error (by decide)
    · exact Verdict.ok_ne_error

/-- A transaction that misses a coin misses it at one of its inputs. -/
theorem step_eq_missing {s : Spending} {tx : Tx} (h : s.step c tx = .error missing) :
    s.takeAll [] tx.spentPlaces = .error missing := by
  refine (Verdict.bind_eq_error.mp h).elim takeInputs_eq_missing ?_
  rintro ⟨⟨coins, t⟩, _, h⟩
  exact absurd h <| Verdict.bind_ne_error (Verdict.demand_ne_error (by decide)) fun _ =>
    Verdict.bind_ne_error account_ne_missing fun _ => Verdict.ok_ne_error

theorem lacksAt_of_steps {s : Spending} {txs : List Tx} (h : s.steps c txs = .error missing) :
    ∃ i, LacksAt c s txs i := by
  induction txs generalizing s with
  | nil => cases h
  | cons tx rest ih =>
      rw [steps, Verdict.bind_eq_error] at h
      rcases h with h | ⟨t, ht, h⟩
      · obtain ⟨k, o, coins, after, hk, ha, he⟩ := takeAll_eq_error (step_eq_missing h)
        exact ⟨⟨0, k⟩, tx, o, s, coins, after, rfl, hk, rfl, ha, he⟩
      · obtain ⟨i, tx', o, before, coins, after, htx, ho, hb, ha, he⟩ := ih h
        refine ⟨⟨i.tx + 1, i.input⟩, tx', o, before, coins, after, htx, ho, ?_, ha, he⟩
        rw [List.take_succ_cons, steps, ht]
        exact hb

end Spending

namespace Candidate

variable {c : Candidate} {set loaded : CoinSet}

theorem checkReward_ne_missing {fees minted : Int} :
    c.checkReward fees minted ≠ .error Spending.missing := by
  refine Verdict.bind_ne_error Verdict.fault_ne_error fun reward => ?_
  split
  · exact Verdict.demand_ne_error (by decide)
  · rw [Block.checkCoinbaseReward]
    split
    · exact Verdict.error_ne_error (by decide)
    · exact Verdict.demand_ne_error (by decide)

/-- Where the validation lacks a coin, the ledger lacks it too, and none before. -/
theorem walk_of_lacksAt {i : InputIndex} (hl : c.Loads set loaded)
    (hnew : ∀ o : OutPoint, o.hash ∈ c.block.txIds → set[o]? = none)
    (h : Spending.LacksAt c (Spending.start loaded) c.block.txs i) :
    (Ledger.ofCoins set).walk c 0 c.block.txs = .error i := by
  obtain ⟨tx, o, before, coins, after, htx, ho, hb, ha, he⟩ := h
  obtain ⟨l, hw, hagree⟩ := agrees_of_steps hl hnew (List.take_subset _ _) hb
  obtain ⟨hlt, rfl⟩ := List.getElem?_eq_some_iff.mp htx
  obtain ⟨hlo, rfl⟩ := List.getElem?_eq_some_iff.mp ho
  have hmem : c.block.txs[i.tx] ∈ c.block.txs := List.getElem_mem hlt
  obtain ⟨new, _, htook⟩ := Spending.took_of_takeAll ha
  have hplaces : ∀ o ∈ c.block.txs[i.tx].spentPlaces, o ∈ c.block.spentPlaces :=
    fun o ho => Block.mem_spentPlaces hmem ho
  have hbefore : ∀ o ∈ c.block.txs[i.tx].spentPlaces.take i.input, o ∈ c.block.spentPlaces :=
    fun o ho => hplaces o (List.mem_of_mem_take ho)
  have hnone := (Spending.take_eq_error.mp he).1
  rw [htook.available, CoinSet.find_eraseAll,
    hagree.touched _ (.inr (hplaces _ (List.getElem_mem hlo))), ← CoinSet.find_eraseAll] at hnone
  have henter := Ledger.removeAll_eq_error 0 (c.block.txs[i.tx].spentPlaces.drop (i.input + 1))
    ((hagree.map_find hbefore).trans htook.found) htook.nodup hnone
  rw [← List.drop_eq_getElem_cons hlo, List.take_append_drop,
    List.length_take_of_le (Nat.le_of_lt hlo), Nat.zero_add] at henter
  have hentry : l.enter c c.block.txs[i.tx] = .error i.input := by
    rw [Ledger.enter, henter]
    rfl
  have hsplit := Ledger.walk_append (c.block.txs[i.tx] :: c.block.txs.drop (i.tx + 1)) hw
  rw [← List.drop_eq_getElem_cons hlt, List.take_append_drop] at hsplit
  rw [hsplit, List.drop_eq_getElem_cons hlt, Ledger.walk, hentry,
    List.length_take_of_le (Nat.le_of_lt hlt), Nat.zero_add]

/-! ## Loading and spending -/

/-- The two rules that load and spend coins, one after the other. -/
def loadAndSpend (c : Candidate) (s : Surroundings) : Validation Unit := do
  CoinsRule.loadCoins.run c s
  CoinsRule.spendCoins.run c s

theorem loads_of_loadCoins {cancelled : List OutPoint → Bool} {p q : Progress}
    (h : CoinsRule.loadCoins.run c (.holding set cancelled) p = .ok () q) :
    c.Loads set q.loaded := by
  obtain ⟨loaded, r, hl, rfl⟩ := loadCoins_eq_ok h
  exact loads_of_load hl

theorem loadCoins_ne_error {s : Surroundings} {p q : Progress} {e : Rejection} :
    CoinsRule.loadCoins.run c s p ≠ .error e q := by
  have hload : ∀ {places : List OutPoint} {found : CoinSet} {p : Progress},
      Validation.load s found places p ≠ .error e q := by
    intro places
    induction places with
    | nil => exact nofun
    | cons o rest ih =>
        intro found p
        rw [Validation.load_cons]
        exact ih
  intro h
  rcases Stateful.bind_eq_error.mp h with h | ⟨_, _, _, h⟩
  · exact hload h
  · cases h

/-- The rules report a missing coin at an input where the ledger misses it as well. -/
theorem walk_of_loadAndSpend_missing {cancelled : List OutPoint → Bool} {p q : Progress}
    (hnew : ∀ o : OutPoint, o.hash ∈ c.block.txIds → set[o]? = none)
    (h : c.loadAndSpend (.holding set cancelled) p = .error Spending.missing q) :
    ∃ q₀ i, CoinsRule.loadCoins.run c (.holding set cancelled) p = .ok () q₀ ∧
      Spending.LacksAt c (Spending.start q₀.loaded) c.block.txs i ∧
      (Ledger.ofCoins set).walk c 0 c.block.txs = .error i := by
  rcases Stateful.bind_eq_error.mp h with h | ⟨_, q₀, hload, h⟩
  · exact absurd h loadCoins_ne_error
  have hl := loads_of_loadCoins hload
  rcases spendCoins_eq_error h with hsteps | ⟨t, hr⟩
  · obtain ⟨i, hi⟩ := Spending.lacksAt_of_steps hsteps
    exact ⟨q₀, i, hload, hi, walk_of_lacksAt hl hnew hi⟩
  · exact absurd hr checkReward_ne_missing

/-- Where the rules go through, the ledger goes through. -/
theorem walk_of_loadAndSpend {cancelled : List OutPoint → Bool} {p q : Progress}
    (hnew : ∀ o : OutPoint, o.hash ∈ c.block.txIds → set[o]? = none)
    (h : c.loadAndSpend (.holding set cancelled) p = .ok () q) :
    ∃ l, (Ledger.ofCoins set).walk c 0 c.block.txs = .ok l := by
  obtain ⟨_, q₀, hload, h⟩ := Stateful.bind_eq_ok.mp h
  obtain ⟨t, hsteps, _⟩ := spendCoins_eq_ok h
  obtain ⟨l, hw, _⟩ :=
    agrees_of_steps (loads_of_loadCoins hload) hnew (List.Subset.refl _) hsteps
  exact ⟨l, hw⟩

/-! ## The effect of a block -/

/-- What a ledger says about a block that was accepted: the coins after it, those it took from the
set, and those it left behind. -/
structure Matches (c : Candidate) (set : CoinSet) (v : Validated) (set' : CoinSet) (l : Ledger) :
    Prop where
  coins : set' = l.coins
  spent : v.undo.spent = l.removed.reverse.filter fun e => set.contains e.1
  spent_nodup : (v.undo.spent.map Prod.fst).Nodup
  spent_found : ∀ e ∈ v.undo.spent, set[e.1]? = some e.2
  created : ∀ e, e ∈ v.created ↔
    e.1 ∈ (c.block.createdCoins c.height).map Prod.fst ∧ l.coins[e.1]? = some e.2
  created_nodup : (v.created.map Prod.fst).Nodup

variable {s : Surroundings} {v : Validated} {t : Spending} {l : Ledger}

theorem Agrees.mem_created (ha : c.Agrees set loaded c.block.txs t l) (hf : c.Found s v loaded t)
    {e : OutPoint × Coin} :
    e ∈ v.created ↔ e.1.hash ∈ c.block.txIds ∧ l.coins[e.1]? = some e.2 := by
  rw [hf.mem_created]
  exact and_congr_right fun hid => by rw [ha.touched e.1 (.inl hid)]

/-- The set changed at once is the set changed step by step. -/
theorem Agrees.applyTo_eq (ha : c.Agrees set loaded c.block.txs t l) (hl : c.Loads set loaded)
    (hf : c.Found s v loaded t)
    (hnew : ∀ o : OutPoint, o.hash ∈ c.block.txIds → set[o]? = none) :
    v.applyTo set = l.coins := by
  have hchange := ha.sound.available_eq fun _ => hl.find_own
  rw [← hf.spent, ← hf.created] at hchange
  apply CoinSet.ext_find
  intro o
  by_cases ho : o.hash ∈ c.block.txIds ∨ o ∈ c.block.spentPlaces
  · -- at places of the block both changed what was there before
    have hbefore : set[o]? = loaded[o]? := by
      by_cases hid : o.hash ∈ c.block.txIds
      · rw [hnew o hid, hl.find_own hid]
      · exact (hl.inside o (CoinSet.mem_externalPlaces.mpr ⟨ho.resolve_left hid, hid⟩)).symm
    rw [← ha.touched o ho, hchange]
    exact CoinSet.find_change_congr hbefore
  · -- elsewhere neither changed anything
    rw [not_or] at ho
    have hc : o ∉ v.created.map Prod.fst := by
      intro hm
      obtain ⟨e, he, rfl⟩ := List.mem_map.mp hm
      exact ho.1 ((ha.mem_created hf).mp he).1
    rw [Validated.applyTo, CoinSet.find_change_of_notMem hc, hf.spent_places,
      if_neg fun h => ho.2 (CoinSet.mem_externalPlaces.mp h).1, ha.untouched o ho.1 ho.2]

/-- The coins that are noted as spent are the removed ones that came from the set. -/
theorem Agrees.spent_eq (ha : c.Agrees set loaded c.block.txs t l) (hf : c.Found s v loaded t)
    (hnew : ∀ o : OutPoint, o.hash ∈ c.block.txIds → set[o]? = none)
    (hfound : ∀ e ∈ v.undo.spent, set[e.1]? = some e.2) :
    v.undo.spent = l.removed.reverse.filter fun e => set.contains e.1 := by
  rw [hf.spent, ← ha.removed]
  refine List.filter_congr fun e he => ?_
  rw [Bool.eq_iff_iff, Bool.not_eq_true', Bool.eq_false_iff, ne_eq,
    Std.ExtTreeSet.contains_iff_mem, CoinSet.contains_iff_find]
  constructor
  · intro hid
    refine ⟨e.2, hfound e ?_⟩
    rw [hf.spent, ← ha.removed, List.mem_filter, Bool.not_eq_true', Bool.eq_false_iff, ne_eq,
      Std.ExtTreeSet.contains_iff_mem]
    exact ⟨he, hid⟩
  · rintro ⟨coin, hcoin⟩ hid
    rw [hnew e.1 hid] at hcoin
    cases hcoin

/-- A block is accepted with the effect that the ledger has. -/
theorem matches_of_commitCoins {cancelled : List OutPoint → Bool} {set' : CoinSet}
    (hnew : ∀ o : OutPoint, o.hash ∈ c.block.txIds → set[o]? = none)
    (h : c.commitCoins (Surroundings.holding · cancelled) set = .ok v set') :
    ∃ l, (Ledger.ofCoins set).walk c 0 c.block.txs = .ok l ∧ c.Matches set v set' l := by
  obtain ⟨hv, rfl⟩ := commitCoins_eq_ok.mp h
  obtain ⟨loaded, t, hf⟩ := found_of_validateCoins hv
  obtain ⟨_, _, hload⟩ := hf.loads
  have hl := loads_of_load hload
  obtain ⟨l, hw, ha⟩ := agrees_of_steps hl hnew (List.Subset.refl _) hf.steps
  have hfound : ∀ e ∈ v.undo.spent, set[e.1]? = some e.2 := fun e he => hf.find_spent he
  refine ⟨l, hw, ?_⟩
  exact
    { coins := ha.applyTo_eq hl hf hnew
      spent := ha.spent_eq hf hnew hfound
      spent_nodup := hf.nodup_spent
      spent_found := hfound
      created := by
        intro e
        rw [ha.mem_created hf]
        refine and_congr_left fun hfind => ⟨fun hid => ?_, fun hmem => ?_⟩
        · rw [Block.createdCoins_places]
          exact hf.mem_places hid (by rw [ha.touched e.1 (.inl hid), hfind])
        · rw [Block.createdCoins_places] at hmem
          obtain ⟨tx, htx, ho⟩ := List.mem_flatMap.mp hmem
          rw [Tx.hash_of_mem_createdPlaces ho, Block.mem_txIds]
          exact List.mem_map_of_mem htx
      created_nodup := hf.nodup_created }

/-- A block has one effect, however it is gone through. A ledger enters its transactions one after
another; a validation loads the coins of the block first, goes through it with these, and changes
the set in the end. A coin that the rules miss is missed by the ledger at the same input, the
rules do not go through where the ledger does not, an accepted block changes the set as the ledger
does, and a rejected one leaves it as it was. -/
theorem validation_matches_ledger (c : Candidate) (set : CoinSet)
    (cancelled : List OutPoint → Bool) (hnew : ∀ o ∈ set, o.hash ∉ c.block.txs.map Tx.id) :
    (∀ p q, c.loadAndSpend (.holding set cancelled) p = .error Spending.missing q →
      ∃ q₀ i, CoinsRule.loadCoins.run c (.holding set cancelled) p = .ok () q₀ ∧
        Spending.LacksAt c (Spending.start q₀.loaded) c.block.txs i ∧
        (Ledger.ofCoins set).walk c 0 c.block.txs = .error i) ∧
    (∀ p q, c.loadAndSpend (.holding set cancelled) p = .ok () q →
      ∃ l, (Ledger.ofCoins set).walk c 0 c.block.txs = .ok l) ∧
    (∀ v set', c.commitCoins (Surroundings.holding · cancelled) set = .ok v set' →
      ∃ l, (Ledger.ofCoins set).walk c 0 c.block.txs = .ok l ∧ c.Matches set v set' l) ∧
    (∀ around e set', c.commitCoins around set = .error e set' → set' = set) := by
  have hnone : ∀ o : OutPoint, o.hash ∈ c.block.txIds → set[o]? = none := by
    intro o ho
    refine Std.ExtTreeMap.getElem?_eq_none fun hm => hnew o hm ?_
    exact Block.mem_txIds.mp ho
  refine ⟨fun p q h => ?_, fun p q h => ?_, fun v set' h => ?_, fun around e set' h => ?_⟩
  · exact walk_of_loadAndSpend_missing hnone h
  · exact walk_of_loadAndSpend hnone h
  · exact matches_of_commitCoins hnone h
  · exact set_eq_of_commitCoins_eq_error h

end Candidate

/-! ## A block that spends its own coin -/

namespace Sample

/-- One coin is spent, and then the coin that it was spent for. -/
def spending : Candidate :=
  first .regtest
    { header := ⟨4, Digest.zero, Digest.zero, 1600000000, 0x207fffff, 1⟩
      txs := [coinbase, spend place 5, spend ⟨(spend place 5).id, 0⟩ 4]
      signature := [] }

/-- Whether a validation went through. -/
def accepts (r : EStateM.Result Rejection CoinSet Validated) : Bool :=
  match r with
  | .ok _ _ => true
  | .error _ _ => false

theorem exists_ok {r : EStateM.Result Rejection CoinSet Validated} (h : accepts r = true) :
    ∃ v set', r = .ok v set' := by
  cases r with
  | ok v set' => exact ⟨v, set', rfl⟩
  | error e set' => cases h

theorem hash_of_mem_coins : ∀ o ∈ coins, o.hash ∉ spending.block.txs.map Tx.id := by
  intro o ho
  rw [coins, Std.ExtTreeMap.mem_insert, Std.compare_eq_iff_eq] at ho
  rcases ho with rfl | ho
  · decide +kernel
  · exact absurd ho Std.ExtTreeMap.not_mem_empty

theorem accepts_spending :
    accepts (spending.commitCoins (Surroundings.holding · fun _ => false) coins) = true := by
  decide +kernel

end Sample

/-- The block above is accepted, with the effect that its ledger has. -/
theorem validation_matches_ledger_sample :
    (∀ o ∈ Sample.coins, o.hash ∉ Sample.spending.block.txs.map Tx.id) ∧
    ∃ v set' l,
      Sample.spending.commitCoins (Surroundings.holding · fun _ => false) Sample.coins =
        .ok v set' ∧
      (Ledger.ofCoins Sample.coins).walk Sample.spending 0 Sample.spending.block.txs = .ok l ∧
      Sample.spending.Matches Sample.coins v set' l := by
  obtain ⟨_, _, hmatches, _⟩ := Candidate.validation_matches_ledger Sample.spending
    Sample.coins (fun _ => false) Sample.hash_of_mem_coins
  obtain ⟨v, set', h⟩ := Sample.exists_ok Sample.accepts_spending
  obtain ⟨l, hw, hl⟩ := hmatches v set' h
  exact ⟨Sample.hash_of_mem_coins, v, set', l, h, hw, hl⟩

end StakeChain
