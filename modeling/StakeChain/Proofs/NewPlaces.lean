/-
Places that a block creates are new.

No block may put a coin where there is one. Below some height every block is
held against the coins themselves. From there on only its coinbase is looked
at, which has to start with the height of the block, and the rest follows: a
transaction spends, so it cannot occur again while what it spent is gone, and
what it spent stays gone as long as nothing that created it occurs again. So
along a chain every transaction has a new id, if every coinbase does. Two
coinbases that start with their heights differ. Below that height, however, a
coinbase may start with any height, and it may occur again at just that one.
-/
import StakeChain.Proofs.Issue
import StakeChain.Proofs.Reorganization
import StakeChain.Proofs.ToldHeights

namespace StakeChain

/-! ## Transactions that differ in witnesses alone -/

namespace Tx

variable {a b tx : Tx}

theorem map_prevout_stripped : tx.stripped.inputs.map TxIn.prevout = tx.inputs.map TxIn.prevout := by
  rw [stripped, List.map_map]
  rfl

theorem isCoinbase_stripped : tx.stripped.isCoinbase = tx.isCoinbase := by
  rw [isCoinbase, isCoinbase, stripped]
  cases tx.inputs with
  | nil => rfl
  | cons i rest =>
      cases rest with
      | nil => rfl
      | cons j rest => rfl

theorem spentPlaces_stripped : tx.stripped.spentPlaces = tx.spentPlaces := by
  rw [spentPlaces, spentPlaces, isCoinbase_stripped, map_prevout_stripped]

theorem spentPlaces_of_stripped (h : a.stripped = b.stripped) : a.spentPlaces = b.spentPlaces := by
  rw [← spentPlaces_stripped, h, spentPlaces_stripped]

/-- What was checked by itself has an input. -/
theorem inputs_ne_nil_of_check {p : Params} (h : tx.check p = .ok ()) : tx.inputs ≠ [] := by
  obtain ⟨_, hinputs, _⟩ := Verdict.bind_eq_ok.mp h
  rw [Verdict.demand_eq_ok, Bool.not_eq_true', List.isEmpty_eq_false_iff] at hinputs
  exact hinputs

theorem exists_mem_spentPlaces (hplain : tx.isCoinbase = false) (hinputs : tx.inputs ≠ []) :
    ∃ o, o ∈ tx.spentPlaces := by
  obtain ⟨i, hi⟩ := List.exists_mem_of_ne_nil _ hinputs
  refine ⟨i.prevout, ?_⟩
  rw [spentPlaces, hplain]
  exact List.mem_map_of_mem hi

theorem hash_of_mem_outputPlaces {o : OutPoint} (h : o ∈ tx.outputPlaces) : o.hash = tx.id := by
  obtain ⟨k, -, rfl⟩ := List.mem_map.mp h
  rfl

end Tx

/-! ## Coins and the transactions before -/

/-- Coins after some transactions, each of which had a new id: every coin is under the id of one
of them and was not spent, and what was spent was under such an id too. -/
structure Traced (txs : List Tx) (coins : CoinSet) : Prop where
  made : ∀ (o : OutPoint) coin, coins[o]? = some coin → ∃ tx ∈ txs, tx.id = o.hash
  unspent : ∀ (o : OutPoint) coin, coins[o]? = some coin → ∀ tx ∈ txs, o ∉ tx.spentPlaces
  spent : ∀ tx ∈ txs, ∀ o ∈ tx.spentPlaces, ∃ a ∈ txs, a.id = o.hash

namespace Traced

variable {txs : List Tx} {set coins : CoinSet} {c : Candidate} {s t : Spending} {tx : Tx}
  {taken : List Coin}

theorem empty : Traced [] ∅ where
  made o coin h := by
    rw [CoinSet.find_empty] at h
    cases h
  unspent _ _ _ _ h := absurd h List.not_mem_nil
  spent _ h := absurd h List.not_mem_nil

/-- Less coins are traced too. -/
theorem mono (h : Traced txs set)
    (hsub : ∀ (o : OutPoint) coin, coins[o]? = some coin → set[o]? = some coin) :
    Traced txs coins where
  made o coin hc := h.made o coin (hsub o coin hc)
  unspent o coin hc := h.unspent o coin (hsub o coin hc)
  spent := h.spent

/-- What a transaction takes was created before, and not spent before. -/
theorem of_mem_spentPlaces (h : Traced txs s.available) (hstep : Spending.Stepped c s tx taken t)
    {o : OutPoint} (ho : o ∈ tx.spentPlaces) :
    (∃ a ∈ txs, a.id = o.hash) ∧ ∀ a ∈ txs, o ∉ a.spentPlaces := by
  obtain ⟨coin, -, hcoin⟩ := List.mem_map.mp (hstep.found ▸ List.mem_map_of_mem ho)
  exact ⟨h.made o coin hcoin.symm, h.unspent o coin hcoin.symm⟩

/-- A transaction that spends is a new one: what it spends would be gone. -/
theorem ne_id_of_spends (h : Traced txs s.available) (hstep : Spending.Stepped c s tx taken t)
    (hplain : tx.isCoinbase = false) (hinputs : tx.inputs ≠ [])
    (hids : ∀ a ∈ txs, a.id = tx.id → a.stripped = tx.stripped) : ∀ a ∈ txs, a.id ≠ tx.id := by
  intro a ha hid
  obtain ⟨o, ho⟩ := Tx.exists_mem_spentPlaces hplain hinputs
  have hsame : a.spentPlaces = tx.spentPlaces := Tx.spentPlaces_of_stripped (hids a ha hid)
  refine (h.of_mem_spentPlaces hstep ho).2 a ha ?_
  rw [hsame]
  exact ho

/-- One transaction with a new id. -/
theorem step (h : Traced txs s.available) (hstep : Spending.Stepped c s tx taken t)
    (hnew : ∀ a ∈ txs, a.id ≠ tx.id) : Traced (txs ++ [tx]) t.available where
  made o coin hcoin := by
    by_cases ho : o ∈ tx.createdPlaces c.height c.header.time
    · exact ⟨tx, by simp, (Tx.hash_of_mem_createdPlaces ho).symm⟩
    · rw [hstep.find_of_notMem ho] at hcoin
      split at hcoin
      · cases hcoin
      · obtain ⟨a, ha, hid⟩ := h.made o coin hcoin
        exact ⟨a, List.mem_append_left _ ha, hid⟩
  unspent o coin hcoin a ha hspent := by
    rw [List.mem_append, List.mem_singleton] at ha
    by_cases ho : o ∈ tx.createdPlaces c.height c.header.time
    · -- a new place: neither this transaction nor an earlier one can have spent it
      have hmade : ∃ b ∈ txs, b.id = o.hash := by
        rcases ha with ha | rfl
        · exact h.spent a ha o hspent
        · exact (h.of_mem_spentPlaces hstep hspent).1
      obtain ⟨b, hb, hid⟩ := hmade
      exact hnew b hb (hid.trans (Tx.hash_of_mem_createdPlaces ho))
    · rw [hstep.find_of_notMem ho] at hcoin
      split at hcoin
      · cases hcoin
      · next hfree =>
          rcases ha with ha | rfl
          · exact h.unspent o coin hcoin a ha hspent
          · exact hfree hspent
  spent a ha o ho := by
    have hmade : ∃ b ∈ txs, b.id = o.hash := by
      rw [List.mem_append, List.mem_singleton] at ha
      rcases ha with ha | rfl
      · exact h.spent a ha o ho
      · exact (h.of_mem_spentPlaces hstep ho).1
    obtain ⟨b, hb, hid⟩ := hmade
    exact ⟨b, List.mem_append_left _ hb, hid⟩

end Traced

/-! ## One block -/

namespace Candidate

variable {c : Candidate} {txs : List Tx} {set : CoinSet} {cancelled : List OutPoint → Bool}
  {v : Validated} {loaded : CoinSet} {t : Spending}

/-- No more than the coins that are there is loaded. -/
theorem Found.find_of_loaded (h : c.Found (.holding set cancelled) v loaded t) {o : OutPoint}
    {coin : Coin} (ho : loaded[o]? = some coin) : set[o]? = some coin := by
  obtain ⟨_, _, hl⟩ := h.loads
  have hloads := loads_of_load hl
  by_cases hm : o ∈ CoinSet.externalPlaces c.block
  · rw [← hloads.inside o hm]
    exact ho
  · rw [hloads.outside o hm] at ho
    cases ho

/-- The one coinbase is the first transaction. -/
theorem eq_nil_of_isCoinbase (hc : c.checkPlain = .ok ()) {done rest : List Tx} {tx : Tx}
    (htxs : c.block.txs = done ++ tx :: rest) (htx : tx.isCoinbase = true) : done = [] := by
  obtain ⟨first, others, hfirst, hcoinbase, hfilter⟩ := coinbases_of_checkPlain hc
  cases done with
  | nil => rfl
  | cons a done =>
      rw [htxs] at hfirst hfilter
      cases hfirst
      have hlength := congrArg List.length hfilter
      rw [List.cons_append, List.filter_cons_of_pos hcoinbase, List.filter_append,
        List.filter_cons_of_pos htx] at hlength
      simp at hlength

/-- Where the coinbase of a block is new, all of its transactions are. -/
theorem Found.traced (h : c.Found (.holding set cancelled) v loaded t)
    (hc : c.checkPlain = .ok ()) (htraced : Traced txs set)
    (hids : ∀ a ∈ txs ++ c.block.txs, ∀ b ∈ txs ++ c.block.txs,
      a.id = b.id → a.stripped = b.stripped)
    (hcoinbase : ∀ first, c.block.txs.head? = some first → ∀ a ∈ txs, a.id ≠ first.id) :
    Traced (txs ++ c.block.txs) t.available ∧
      ∀ tx ∈ c.block.txs, ∀ a ∈ txs, a.id ≠ tx.id := by
  have hcheck := checkTxs_of_checkPlain hc
  refine Spending.steps_induction (P := fun done s => Traced (txs ++ done) s.available ∧
    ∀ tx ∈ done, ∀ a ∈ txs, a.id ≠ tx.id) h.steps ?_ ?_
  · rw [List.append_nil]
    exact ⟨htraced.mono fun o coin => h.find_of_loaded, fun _ h => absurd h List.not_mem_nil⟩
  · intro done rest tx coins s u htxs hdone hstep
    obtain ⟨hs, hearlier⟩ := hdone
    have htx : tx ∈ c.block.txs := by
      rw [htxs]
      exact List.mem_append_right _ List.mem_cons_self
    have hsub : ∀ a ∈ txs ++ done, a ∈ txs ++ c.block.txs := by
      intro a ha
      rw [htxs, ← List.append_assoc]
      exact List.mem_append_left _ ha
    have hnew : ∀ a ∈ txs ++ done, a.id ≠ tx.id := by
      cases hplain : tx.isCoinbase with
      | true =>
          cases eq_nil_of_isCoinbase hc htxs hplain
          rw [List.append_nil]
          exact hcoinbase tx (by rw [htxs]; rfl)
      | false =>
          refine hs.ne_id_of_spends hstep hplain (Tx.inputs_ne_nil_of_check (hcheck tx htx)) ?_
          intro a ha
          exact hids a (hsub a ha) tx (List.mem_append_right _ htx)
    rw [← List.append_assoc]
    refine ⟨hs.step hstep hnew, ?_⟩
    intro b hb
    rw [List.mem_append, List.mem_singleton] at hb
    rcases hb with hb | rfl
    · exact hearlier b hb
    · exact fun a ha => hnew a (List.mem_append_left _ ha)

/-- The coins after the block: those that it left alone, and its own ones. -/
theorem Found.traced_applyTo (h : c.Found (.holding set cancelled) v loaded t)
    (htraced : Traced txs set) (hafter : Traced (txs ++ c.block.txs) t.available)
    (hnew : ∀ tx ∈ c.block.txs, ∀ a ∈ txs, a.id ≠ tx.id) :
    Traced (txs ++ c.block.txs) (v.applyTo set) := by
  -- a coin is one that the block created, or one of those before that the block did not spend
  have hcases : ∀ (o : OutPoint) coin, (v.applyTo set)[o]? = some coin →
      t.available[o]? = some coin ∨
        set[o]? = some coin ∧ ∀ tx ∈ c.block.txs, o ∉ tx.spentPlaces := by
    intro o coin hcoin
    by_cases ho : o ∈ v.created.map Prod.fst
    · obtain ⟨e, he, rfl⟩ := List.mem_map.mp ho
      have hfind : (v.applyTo set)[e.1]? = some e.2 :=
        CoinSet.find_insertAll_of_mem h.nodup_created he
      cases hfind.symm.trans hcoin
      exact .inl (h.mem_created.mp he).2
    · rw [Validated.applyTo, CoinSet.find_change_of_notMem ho, h.spent_places] at hcoin
      split at hcoin
      · cases hcoin
      · next hkept =>
          refine .inr ⟨hcoin, ?_⟩
          intro tx htx hspent
          refine hkept (CoinSet.mem_externalPlaces.mpr ⟨Block.mem_spentPlaces htx hspent, ?_⟩)
          intro hid
          obtain ⟨b, hb, hbid⟩ := List.mem_map.mp (Block.mem_txIds.mp hid)
          obtain ⟨a, ha, haid⟩ := htraced.made o coin hcoin
          exact hnew b hb a ha (haid.trans hbid.symm)
  exact
    { made := by
        intro o coin hcoin
        rcases hcases o coin hcoin with hown | ⟨hold, -⟩
        · exact hafter.made o coin hown
        · obtain ⟨a, ha, hid⟩ := htraced.made o coin hold
          exact ⟨a, List.mem_append_left _ ha, hid⟩
      unspent := by
        intro o coin hcoin tx htx
        rcases hcases o coin hcoin with hown | ⟨hold, hkept⟩
        · exact hafter.unspent o coin hown tx htx
        · rcases List.mem_append.mp htx with htx | htx
          · exact htraced.unspent o coin hold tx htx
          · exact hkept tx htx
      spent := hafter.spent }

/-- The block that was judged has the height of its place. -/
theorem height_of_runCoins {s : Surroundings} {p q : Progress} (h : c.runCoins s p = .ok v q) :
    v.branch.height = c.height := by
  obtain ⟨_, _, _, h⟩ := Stateful.bind_eq_ok.mp h
  obtain ⟨_, _, _, h⟩ := Stateful.bind_eq_ok.mp h
  obtain ⟨_, _, _, h⟩ := Stateful.bind_eq_ok.mp h
  have houtcome : ∀ {r}, (get >>= fun p => pure (c.outcome p) : Validation Validated) r =
      .ok v q → v.branch.height = c.height := by
    intro r h
    obtain ⟨_, _, _, hpure⟩ := Stateful.bind_eq_ok.mp h
    rw [(Stateful.pure_eq_ok.mp hpure).1]
    rfl
  split at h
  · obtain ⟨_, _, _, h⟩ := Stateful.bind_eq_ok.mp h
    obtain ⟨_, _, _, h⟩ := Stateful.bind_eq_ok.mp h
    exact houtcome h
  · exact houtcome h

end Candidate

/-! ## The rules that follow from the place -/

/-- A block in its place: the rules about outputs that are there, and about the start of the
coinbase, go by its height. -/
structure Candidate.Placed (p : Params) (previous : Option Branch) (b : Block) (c : Candidate) :
    Prop where
  params : c.params = p
  block : c.block = b
  height : BlockRules.heightAfter previous = .ok c.height
  bip34 : c.rules.bip34 = decide (p.bip34Height.toNat ≤ c.height)
  bip30 : c.rules.bip30 = !c.rules.bip34

section Connect

variable {p : Params} {previous : Option Branch} {b : Block} {c : Candidate} {time : UInt32}
  {known left : Deployment.Cache} {set coins : CoinSet} {v : Validated}

theorem BlockRules.of_run {header : BlockHeader} {rules : BlockRules}
    (h : (ofBlock p previous header).run known = .ok (rules, left)) :
    ∃ height, heightAfter previous = .ok height ∧
      rules.bip34 = decide (p.bip34Height.toNat ≤ height) ∧ rules.bip30 = !rules.bip34 := by
  obtain ⟨⟨height, _⟩, hheight, h⟩ := Verdict.bind_eq_ok.mp h
  obtain ⟨_, _, h⟩ := Verdict.bind_eq_ok.mp h
  obtain ⟨_, _, h⟩ := Verdict.bind_eq_ok.mp h
  obtain ⟨_, _, h⟩ := Verdict.bind_eq_ok.mp h
  cases h
  refine ⟨height, ?_, rfl, rfl⟩
  cases hafter : heightAfter previous with
  | error e =>
      rw [hafter] at hheight
      cases hheight
  | ok n =>
      rw [hafter] at hheight
      cases hheight
      rfl

theorem BlockRules.of_heightAfter {height : Nat} (h : heightAfter previous = .ok height) :
    height < 2 ^ 32 ∧ ∀ tip, previous = some tip → tip.height < height := by
  cases previous with
  | none =>
      cases h
      exact ⟨by decide, nofun⟩
  | some tip =>
      rw [heightAfter, fitWord] at h
      split at h
      · next hlt =>
          cases h
          refine ⟨hlt, ?_⟩
          intro tip' htip
          cases htip
          exact Nat.lt_succ_self _
      · cases h

theorem Candidate.height_of_place {header : BlockHeader} {branch : Branch} {height : Nat}
    (h : place previous header = .ok branch) (hheight : BlockRules.heightAfter previous = .ok height) :
    branch.height = height := by
  cases previous with
  | none =>
      cases h
      cases hheight
      rfl
  | some parent =>
      obtain ⟨n, hn, h⟩ := Verdict.bind_eq_ok.mp h
      cases hn.symm.trans hheight
      cases h
      rfl

theorem Block.placed_of_run (h : (b.candidate p previous time).run known = .ok (c, left)) :
    c.Placed p previous b := by
  obtain ⟨⟨rules, middle⟩, hrules, h⟩ := Verdict.bind_eq_ok.mp h
  obtain ⟨height, hheight, hbip34, hbip30⟩ := BlockRules.of_run hrules
  change ((Candidate.ofBlock p b previous time rules : Except Fault Candidate) >>= fun c =>
    pure (c, middle)) = .ok (c, left) at h
  obtain ⟨c', hc, h⟩ := Verdict.bind_eq_ok.mp h
  cases h
  obtain ⟨branch, hbranch, hc⟩ := Verdict.bind_eq_ok.mp hc
  cases hc
  have hplace : branch.height = height := Candidate.height_of_place hbranch hheight
  exact
    { params := rfl
      block := rfl
      height := by
        rw [hheight, ← hplace]
        rfl
      bip34 := by
        rw [hbip34, ← hplace]
        rfl
      bip30 := hbip30 }

/-- A block that was connected is one that was judged in its place. -/
theorem Block.connect_eq_ok
    (h : (b.connect p previous time set).run known = .ok (.ok (v, coins), left)) :
    ∃ c : Candidate, c.Placed p previous b ∧ c.validate (.still set) = .ok v ∧
      coins = v.applyTo set := by
  obtain ⟨⟨c, middle⟩, hc, h⟩ := Verdict.bind_eq_ok.mp h
  refine ⟨c, placed_of_run hc, ?_⟩
  change Except.ok ((c.validate (.still set)).map fun v => (v, v.applyTo set), middle) =
    .ok (.ok (v, coins), left) at h
  cases hv : c.validate (.still set) with
  | error e =>
      rw [hv] at h
      cases h
  | ok w =>
      rw [hv] at h
      cases h
      exact ⟨rfl, rfl⟩

end Connect

/-! ## The height at the start of a coinbase -/

theorem Candidate.Placed.checkHeight {p : Params} {previous : Option Branch} {b : Block}
    {c : Candidate} (hc : c.Placed p previous b) (hplain : c.checkPlain = .ok ())
    (hle : p.bip34Height.toNat ≤ c.height) : b.checkHeight c.height = .ok () := by
  have hrule : BodyRule.coinbaseHeight ∈ c.params.plainRules := by
    simp [Params.plainRules, Params.partialRules]
  have hcheck := check_of_checkPlain hplain hrule
  change (if c.rules.bip34 then c.block.checkHeight c.height else .ok ()) = .ok () at hcheck
  rwa [hc.bip34, if_pos (decide_eq_true hle), hc.block] at hcheck

/-! ## A chain as it grows -/

/-- A chain that grows: its last header, the coins, the known states of deployments, and the
blocks that were accepted, each with its height, latest first. -/
structure Growth where
  tip : Option Branch
  coins : CoinSet
  known : Deployment.Cache
  blocks : List (Nat × Block)

namespace Growth

/-- No block was accepted after a branch, and there are no coins. -/
def start (tip : Option Branch) (known : Deployment.Cache) : Growth :=
  ⟨tip, ∅, known, []⟩

/-- Connects a block at some time. A block that is refused leaves the chain as it is. -/
def connect (p : Params) (g : Growth) (call : Block × UInt32) : Growth :=
  match (call.1.connect p g.tip call.2 g.coins).run g.known with
  | .ok (.ok (v, coins), known) =>
      ⟨some v.branch, coins, known, (v.branch.height, call.1) :: g.blocks⟩
  | .ok (.error _, known) => { g with known := known }
  | .error _ => g

/-- Connects blocks in order. -/
def run (p : Params) (g : Growth) (calls : List (Block × UInt32)) : Growth :=
  calls.foldl (connect p) g

/-- What a block does, if it is accepted as the next one. -/
def next? (p : Params) (g : Growth) (b : Block) (time : UInt32) : Option Validated :=
  match (b.connect p g.tip time g.coins).run g.known with
  | .ok (.ok (v, _), _) => some v
  | _ => none

theorem exists_run_of_next? {p : Params} {g : Growth} {b : Block} {time : UInt32} {v : Validated}
    (h : g.next? p b time = some v) :
    ∃ coins left, (b.connect p g.tip time g.coins).run g.known = .ok (.ok (v, coins), left) := by
  rw [next?] at h
  split at h
  · next v' coins left hrun =>
      cases h
      exact ⟨coins, left, hrun⟩
  · cases h

end Growth

/-- The transactions of blocks that are given latest first. -/
def txsOf (blocks : List (Nat × Block)) : List Tx :=
  blocks.reverse.flatMap fun e => e.2.txs

/-- Ids tell transactions apart that differ in more than witnesses. -/
def IdsTell (txs : List Tx) : Prop :=
  ∀ a ∈ txs, ∀ b ∈ txs, a.id = b.id → a.stripped = b.stripped

/-- Among blocks that are given latest first, no coinbase of one below the height from which
coinbases tell their heights is the coinbase of a later one. -/
def CoinbasesOnce (p : Params) (blocks : List (Nat × Block)) : Prop :=
  blocks.Pairwise fun later earlier => earlier.1 < p.bip34Height.toNat →
    later.2.txs.head?.map Tx.id ≠ earlier.2.txs.head?.map Tx.id

theorem txsOf_cons {e : Nat × Block} {blocks : List (Nat × Block)} :
    txsOf (e :: blocks) = txsOf blocks ++ e.2.txs := by
  rw [txsOf, List.reverse_cons, List.flatMap_append, List.flatMap_singleton]
  rfl

theorem IdsTell.of_cons {e : Nat × Block} {blocks : List (Nat × Block)}
    (h : IdsTell (txsOf (e :: blocks))) : IdsTell (txsOf blocks) := by
  rw [txsOf_cons] at h
  intro a ha b hb
  exact h a (List.mem_append_left _ ha) b (List.mem_append_left _ hb)

theorem CoinbasesOnce.of_cons {p : Params} {e : Nat × Block} {blocks : List (Nat × Block)}
    (h : CoinbasesOnce p (e :: blocks)) : CoinbasesOnce p blocks :=
  (List.pairwise_cons.mp h).2

theorem mem_txsOf {blocks : List (Nat × Block)} {tx : Tx} :
    tx ∈ txsOf blocks ↔ ∃ e ∈ blocks, tx ∈ e.2.txs := by
  rw [txsOf, List.mem_flatMap]
  simp only [List.mem_reverse]

/-- What holds along a chain that started without coins: heights rise, coinbases are where they
belong and tell their heights from some height on, and the coins are traced if no coinbase from
below that height occurs again. -/
structure Grown (p : Params) (g : Growth) : Prop where
  below : ∀ e ∈ g.blocks, ∃ tip, g.tip = some tip ∧ e.1 ≤ tip.height
  fits : ∀ e ∈ g.blocks, e.1 < 2 ^ 32
  coinbase : ∀ e ∈ g.blocks, ∀ tx ∈ e.2.txs, tx.isCoinbase = true → e.2.txs.head? = some tx
  tells : ∀ e ∈ g.blocks, p.bip34Height.toNat ≤ e.1 → e.2.checkHeight e.1 = .ok ()
  traced : IdsTell (txsOf g.blocks) → CoinbasesOnce p g.blocks → Traced (txsOf g.blocks) g.coins

namespace Grown

variable {p : Params} {g : Growth} {b : Block} {c : Candidate} {v : Validated}
  {left : Deployment.Cache}

theorem start (tip : Option Branch) (known : Deployment.Cache) :
    Grown p (Growth.start tip known) where
  below _ h := absurd h List.not_mem_nil
  fits _ h := absurd h List.not_mem_nil
  coinbase _ h := absurd h List.not_mem_nil
  tells _ h := absurd h List.not_mem_nil
  traced _ _ := Traced.empty

/-- The next block is above those before. -/
theorem height_lt (h : Grown p g) (hc : c.Placed p g.tip b) : ∀ e ∈ g.blocks, e.1 < c.height := by
  intro e he
  obtain ⟨tip, htip, hle⟩ := h.below e he
  have hlt := (BlockRules.of_heightAfter hc.height).2 tip htip
  omega

/-- The coinbase of the next block is a new transaction, unless it is one from below the height
from which coinbases tell their heights. -/
theorem coinbase_new (h : Grown p g) (hc : c.Placed p g.tip b) (hplain : c.checkPlain = .ok ())
    (hids : IdsTell (txsOf ((c.height, b) :: g.blocks)))
    (honce : CoinbasesOnce p ((c.height, b) :: g.blocks)) {first : Tx}
    (hfirst : b.txs.head? = some first) : ∀ a ∈ txsOf g.blocks, a.id ≠ first.id := by
  intro a ha hid
  obtain ⟨e, he, hae⟩ := mem_txsOf.mp ha
  have hmem : first ∈ b.txs := List.mem_of_head? hfirst
  have hsame : a.stripped = first.stripped := by
    rw [txsOf_cons] at hids
    exact hids a (List.mem_append_left _ ha) first (List.mem_append_right _ hmem) hid
  obtain ⟨other, rest, htxs, hcoinbase, -⟩ := Candidate.coinbases_of_checkPlain hplain
  rw [hc.block] at htxs
  rw [htxs] at hfirst
  cases hfirst
  have hacoinbase : a.isCoinbase = true := by
    rw [← Tx.isCoinbase_stripped, hsame, Tx.isCoinbase_stripped]
    exact hcoinbase
  have hafirst := h.coinbase e he a hae hacoinbase
  have hlt := h.height_lt hc e he
  by_cases hearly : e.1 < p.bip34Height.toNat
  · refine (List.pairwise_cons.mp honce).1 e he hearly ?_
    rw [hafirst, htxs]
    exact congrArg some hid.symm
  · have hheight := hc.checkHeight hplain (by omega)
    have htells : first.TellsHeight c.height :=
      Tx.tellsHeight_of_checkHeight hheight (by rw [htxs]; rfl)
    have hatells := Tx.tellsHeight_of_checkHeight (h.tells e he (by omega)) hafirst
    have heq := hatells.eq htells (h.fits e he) (BlockRules.of_heightAfter hc.height).1 hsame
    omega

/-- Every transaction of the next block is new, and the coins after it are traced. -/
theorem traced_next (h : Grown p g) (hc : c.Placed p g.tip b)
    (hv : c.validate (.still g.coins) = .ok v)
    (hids : IdsTell (txsOf ((c.height, b) :: g.blocks)))
    (honce : CoinbasesOnce p ((c.height, b) :: g.blocks)) :
    Traced (txsOf ((c.height, b) :: g.blocks)) (v.applyTo g.coins) ∧
      ∀ tx ∈ b.txs, ∀ a ∈ txsOf g.blocks, a.id ≠ tx.id := by
  obtain ⟨hplain, hcoins⟩ := Candidate.validate_eq_ok.mp hv
  have hcoinbase : ∀ first, b.txs.head? = some first → ∀ a ∈ txsOf g.blocks, a.id ≠ first.id :=
    fun first hfirst => h.coinbase_new hc hplain hids honce hfirst
  have htraced := h.traced hids.of_cons honce.of_cons
  obtain ⟨loaded, t, hf⟩ := Candidate.found_of_validateCoins hcoins
  have hf : c.Found (.holding g.coins fun _ => false) v loaded t := hf
  rw [txsOf_cons] at hids ⊢
  obtain rfl := hc.block
  obtain ⟨hafter, hnew⟩ := hf.traced hplain htraced hids hcoinbase
  exact ⟨hf.traced_applyTo htraced hafter hnew, hnew⟩

theorem accept (h : Grown p g) (hc : c.Placed p g.tip b)
    (hv : c.validate (.still g.coins) = .ok v) :
    Grown p ⟨some v.branch, v.applyTo g.coins, left, (v.branch.height, b) :: g.blocks⟩ := by
  obtain ⟨hplain, hcoins⟩ := Candidate.validate_eq_ok.mp hv
  obtain ⟨q, hq⟩ := Candidate.validateCoins_eq_ok.mp hcoins
  have hheight : v.branch.height = c.height := Candidate.height_of_runCoins hq
  rw [hheight]
  exact
    { below := by
        intro e he
        refine ⟨v.branch, rfl, ?_⟩
        rw [hheight]
        rcases List.mem_cons.mp he with rfl | he
        · exact Nat.le_refl _
        · exact Nat.le_of_lt (h.height_lt hc e he)
      fits := by
        intro e he
        rcases List.mem_cons.mp he with rfl | he
        · exact (BlockRules.of_heightAfter hc.height).1
        · exact h.fits e he
      coinbase := by
        intro e he tx htx hcoinbase
        rcases List.mem_cons.mp he with rfl | he
        · obtain ⟨first, rest, htxs, -, hfilter⟩ := Candidate.coinbases_of_checkPlain hplain
          rw [hc.block] at htxs hfilter
          have hmem : tx ∈ b.txs.filter Tx.isCoinbase := List.mem_filter.mpr ⟨htx, hcoinbase⟩
          rw [hfilter, List.mem_singleton] at hmem
          rw [hmem]
          change b.txs.head? = some first
          rw [htxs]
          rfl
        · exact h.coinbase e he tx htx hcoinbase
      tells := by
        intro e he hle
        rcases List.mem_cons.mp he with rfl | he
        · exact hc.checkHeight hplain hle
        · exact h.tells e he hle
      traced := fun hids honce => (h.traced_next hc hv hids honce).1 }

theorem connect (h : Grown p g) (call : Block × UInt32) : Grown p (g.connect p call) := by
  rw [Growth.connect]
  split
  · next v coins known hrun =>
      obtain ⟨c, hc, hv, rfl⟩ := Block.connect_eq_ok hrun
      exact h.accept hc hv
  · exact { h with }
  · exact h

theorem run (h : Grown p g) (calls : List (Block × UInt32)) : Grown p (g.run p calls) := by
  induction calls generalizing g with
  | nil => exact h
  | cons call rest ih => exact ih (h.connect call)

end Grown

/-- No block that is accepted puts a coin where there is one, along any chain that starts without
coins: not below the height from which coinbases tell their heights, and not above it as long as
no coinbase from below occurs again. -/
theorem places_free_of_run (p : Params) (tip : Option Branch) (known : Deployment.Cache)
    (calls : List (Block × UInt32)) (b : Block) (time : UInt32) (v : Validated)
    (h : ((Growth.start tip known).run p calls).next? p b time = some v)
    (hids : IdsTell (txsOf
      ((v.branch.height, b) :: ((Growth.start tip known).run p calls).blocks)))
    (honce : v.branch.height < p.bip34Height.toNat ∨ CoinbasesOnce p
      ((v.branch.height, b) :: ((Growth.start tip known).run p calls).blocks)) :
    ∀ o ∈ b.outputPlaces, ((Growth.start tip known).run p calls).coins[o]? = none := by
  have hgrown : Grown p ((Growth.start tip known).run p calls) :=
    (Grown.start tip known).run calls
  generalize (Growth.start tip known).run p calls = g at h hids honce hgrown ⊢
  obtain ⟨coins, left, hrun⟩ := Growth.exists_run_of_next? h
  obtain ⟨c, hc, hv, -⟩ := Block.connect_eq_ok hrun
  obtain ⟨hplain, hcoins⟩ := Candidate.validate_eq_ok.mp hv
  obtain ⟨q, hq⟩ := Candidate.validateCoins_eq_ok.mp hcoins
  rw [Candidate.height_of_runCoins hq] at hids honce
  intro o ho
  rcases honce with hbelow | honce
  · -- the rule looks at the very places
    obtain ⟨loaded, t, hf⟩ := Candidate.found_of_validateCoins hcoins
    have hbip30 : c.rules.bip30 = true := by
      rw [hc.bip30, hc.bip34, decide_eq_false (by omega)]
      rfl
    obtain ⟨_, _, hnone⟩ := hf.free hbip30
    rw [hc.block] at hnone
    change CoinSet.noneAt (Validation.lookup (.holding g.coins fun _ => false)) b.outputPlaces _ =
      _ at hnone
    exact CoinSet.find_of_noneAt hnone o ho
  · have htraced := hgrown.traced hids.of_cons honce.of_cons
    have hnew := (hgrown.traced_next hc hv hids honce).2
    obtain ⟨tx, htx, ho⟩ := List.mem_flatMap.mp ho
    cases hcoin : g.coins[o]? with
    | none => rfl
    | some coin =>
        obtain ⟨a, ha, hid⟩ := htraced.made o coin hcoin
        exact absurd (hid.trans (Tx.hash_of_mem_outputPlaces ho)) (hnew tx htx a ha)

namespace Sample

/-- From height one on coinbases start with their heights. -/
def earlyHeights : Params :=
  { Params.regtest with bip34Height := 1 }

/-- A coinbase that starts with height one. -/
def opening (extra : UInt8) : Tx :=
  ⟨1, [⟨OutPoint.null, ⟨[0x51, extra]⟩, sequenceFinal, []⟩], [⟨5000000000, anyone⟩], 0⟩

/-- The first block of all, whose coinbase may start with anything. -/
def lowest : Block :=
  ⟨⟨4, Digest.zero, (opening 0).id, 1600000000, 0x207fffff, 0⟩, [opening 0], []⟩

/-- A block after it. -/
def upper (extra : UInt8) (nonce : UInt32) : Block :=
  ⟨⟨4, lowest.id, (opening extra).id, 1600000001, 0x207fffff, nonce⟩, [opening extra], []⟩

/-- The chain of the first block. -/
def grown : Growth :=
  (Growth.start none []).run earlyHeights [(lowest, 1600000000)]

theorem blocks_grown : grown.blocks = [(0, lowest)] := by
  decide +kernel

theorem height_upper :
    (grown.next? earlyHeights (upper 1 3) 1600000001).map (·.branch.height) = some 1 := by
  decide +kernel

/-- Two coinbases are told apart, if their ids are. -/
theorem idsTell_upper (extra : UInt8) (nonce : UInt32)
    (h : (opening extra).id = (opening 0).id → extra = 0) :
    IdsTell (txsOf [(1, upper extra nonce), (0, lowest)]) := by
  intro a ha b hb hid
  obtain rfl | rfl : a = opening 0 ∨ a = opening extra := by simpa [txsOf, lowest, upper] using ha
  all_goals
    obtain rfl | rfl : b = opening 0 ∨ b = opening extra := by
      simpa [txsOf, lowest, upper] using hb
  · rfl
  · rw [h hid.symm]
  · rw [h hid]
  · rfl

theorem next_upper_again :
    (grown.next? earlyHeights (upper 0 0) 1600000001).isSome = true := by
  decide +kernel

theorem coin_opening :
    grown.coins[(⟨(opening 0).id, 0⟩ : OutPoint)]?.isSome = true := by
  decide +kernel

theorem id_opening : (opening 1).id ≠ (opening 0).id := by
  decide +kernel

theorem coinbasesOnce_upper : CoinbasesOnce earlyHeights [(1, upper 1 3), (0, lowest)] := by
  refine List.pairwise_pair.mpr ?_
  intro _ hsame
  exact id_opening (Option.some.inj hsame)

end Sample

theorem places_free_of_run_upper :
    ∃ v, Sample.grown.next? Sample.earlyHeights (Sample.upper 1 3) 1600000001 = some v ∧
      ∀ o ∈ (Sample.upper 1 3).outputPlaces, Sample.grown.coins[o]? = none := by
  obtain ⟨v, hv, hheight⟩ := Option.map_eq_some_iff.mp Sample.height_upper
  have hblocks : (v.branch.height, Sample.upper 1 3) :: Sample.grown.blocks =
      [(1, Sample.upper 1 3), (0, Sample.lowest)] := by
    rw [Sample.blocks_grown, hheight]
  refine ⟨v, hv, places_free_of_run Sample.earlyHeights none [] [(Sample.lowest, 1600000000)] _
    1600000001 v hv ?_ (.inr ?_)⟩
  · change IdsTell (txsOf ((v.branch.height, Sample.upper 1 3) :: Sample.grown.blocks))
    rw [hblocks]
    exact Sample.idsTell_upper 1 3 fun h => absurd h Sample.id_opening
  · change CoinbasesOnce _ ((v.branch.height, Sample.upper 1 3) :: Sample.grown.blocks)
    rw [hblocks]
    exact Sample.coinbasesOnce_upper

/-- The coinbase of the first block starts with height one, and the block of height one has it
too: that block is accepted, although it creates a coin where one is. -/
theorem place_taken_at_told_height :
    (Sample.grown.next? Sample.earlyHeights (Sample.upper 0 0) 1600000001).isSome = true ∧
      IdsTell (txsOf ((1, Sample.upper 0 0) :: Sample.grown.blocks)) ∧
      ∃ o ∈ (Sample.upper 0 0).outputPlaces, Sample.grown.coins[o]?.isSome = true := by
  refine ⟨Sample.next_upper_again, ?_, ⟨(Sample.opening 0).id, 0⟩, ?_, Sample.coin_opening⟩
  · rw [Sample.blocks_grown]
    exact Sample.idsTell_upper 0 0 fun _ => rfl
  · exact List.mem_singleton_self _

end StakeChain
