/-
What the fourth phase of a validation that went through has done.

Of all rules about coins only two touch the effect of the block: the one
that loads coins and the one that spends them. The others are `Quiet`. So a
validation that went through is one walk over the transactions, and what it
found is what that walk found.
-/
import StakeChain.Proofs.Spending
import StakeChain.Validation.Engine

namespace StakeChain

open Stateful

/-- Surroundings in which the coins stay as they are, while the validation may be told to
stop. -/
def Surroundings.holding (set : CoinSet) (cancelled : List OutPoint → Bool) : Surroundings where
  find _ o := set[o]?
  cancelled := cancelled

namespace Validation

/-! ## Loading -/

variable {p q : Progress} {s : Surroundings}

/-- One look-up: the coin is added if it is there. -/
theorem load_cons {found : CoinSet} {o : OutPoint} {rest : List OutPoint} :
    load s found (o :: rest) p =
      load s (((s.find p.lookups o).map (found.insert o)).getD found) rest
        { p with lookups := o :: p.lookups } := by
  rw [load, bind_of_ok (lookup_eq_ok.mpr ⟨rfl, rfl⟩)]
  cases s.find p.lookups o with
  | none => rfl
  | some coin => rfl

/-- Only places that were asked for are loaded. -/
theorem find_load_of_notMem {places : List OutPoint} {found loaded : CoinSet}
    (h : load s found places p = .ok loaded q) {o : OutPoint} (ho : o ∉ places) :
    loaded[o]? = found[o]? := by
  induction places generalizing found p with
  | nil => rw [(pure_eq_ok.mp h).1]
  | cons a rest ih =>
      rw [List.mem_cons, not_or] at ho
      rw [load_cons] at h
      rw [ih h ho.2]
      cases s.find p.lookups a with
      | none => rfl
      | some coin =>
          change (found.insert a coin)[o]? = _
          rw [CoinSet.find_insert, if_neg (Ne.symm ho.1)]

/-- After one look-up the place that was looked at has the coin of the set. -/
theorem find_added {set found : CoinSet} {a o : OutPoint}
    (hf : ∀ (o : OutPoint) (coin : Coin), found[o]? = some coin → set[o]? = some coin) :
    ((set[a]?.map (found.insert a)).getD found)[o]? = if a = o then set[a]? else found[o]? := by
  cases ha : set[a]? with
  | some coin => exact CoinSet.find_insert
  | none =>
      by_cases hao : a = o
      · subst hao
        rw [if_pos rfl]
        cases hfa : found[a]? with
        | none => exact hfa
        | some coin =>
            rw [hf a coin hfa] at ha
            cases ha
      · rw [if_neg hao]
        rfl

/-- Where the coins stay as they are, what is loaded for a place is what is there. -/
theorem find_load_of_mem {set : CoinSet} {cancelled : List OutPoint → Bool}
    {places : List OutPoint} {found loaded : CoinSet}
    (h : load (.holding set cancelled) found places p = .ok loaded q)
    (hf : ∀ (o : OutPoint) (coin : Coin), found[o]? = some coin → set[o]? = some coin)
    {o : OutPoint} (ho : o ∈ places) : loaded[o]? = set[o]? := by
  induction places generalizing found p with
  | nil => cases ho
  | cons a rest ih =>
      rw [load_cons] at h
      change load _ ((set[a]?.map (found.insert a)).getD found) rest _ = _ at h
      by_cases hr : o ∈ rest
      · refine ih h (fun b coin hb => ?_) hr
        rw [find_added hf] at hb
        split at hb
        · rename_i hab
          rw [← hab, hb]
        · exact hf b coin hb
      · rw [find_load_of_notMem h hr, find_added hf, (List.mem_cons.mp ho).resolve_right hr,
          if_pos rfl]

/-! ## Rules without effect -/

end Validation

/-- What is known of the effect of a block, without the lookups made for it and the stake. -/
def Progress.effect (p : Progress) : Progress :=
  { p with lookups := [], stake := none }

/-- A part of a validation that does not touch the effect of the block. -/
structure Validation.Quiet {α : Type} (m : Validation α) : Prop where
  effect_eq : ∀ {p a q}, m p = .ok a q → q.effect = p.effect

namespace Validation.Quiet

variable {α β : Type}

theorem pure (a : α) : Quiet (Pure.pure a : Validation α) where
  effect_eq h := by rw [(pure_eq_ok.mp h).2]

theorem bind {m : Validation α} {f : α → Validation β} (hm : Quiet m) (hf : ∀ a, Quiet (f a)) :
    Quiet (m >>= f) where
  effect_eq h := by
    obtain ⟨a, q, ha, hb⟩ := bind_eq_ok.mp h
    rw [(hf a).effect_eq hb, hm.effect_eq ha]

theorem get : Quiet (MonadState.get : Validation Progress) where
  effect_eq h := by rw [(get_eq_ok.mp h).2]

theorem throw (e : Rejection) : Quiet (MonadExcept.throw e : Validation α) where
  effect_eq h := absurd h throw_ne_ok

theorem ofExcept (x : Except Rejection α) : Quiet (Validation.ofExcept x) where
  effect_eq h := by rw [(ofExcept_eq_ok.mp h).2]

theorem demand (condition : Bool) (e : ConsensusError) :
    Quiet (Validation.demand condition e) where
  effect_eq h := by rw [(demand_eq_ok.mp h).2]

theorem checkCancelled (s : Surroundings) : Quiet (Validation.checkCancelled s) where
  effect_eq h := by rw [(checkCancelled_eq_ok.mp h).2]

theorem lookup (s : Surroundings) (o : OutPoint) : Quiet (Validation.lookup s o) where
  effect_eq h := by
    rw [(lookup_eq_ok.mp h).2]
    rfl

theorem noneAt (s : Surroundings) (places : List OutPoint) :
    Quiet (CoinSet.noneAt (Validation.lookup s) places) := by
  induction places with
  | nil => exact pure true
  | cons o rest ih =>
      refine bind (lookup s o) fun found => ?_
      cases found.isSome with
      | true => exact pure false
      | false => exact ih

theorem checkInputs (c : Candidate) (s : Surroundings) (tx : Tx) (shared : TxDigests)
    (coins : List Coin) (index : Nat) (inputs : List TxIn) :
    Quiet (CoinsRule.checkInputs c s tx shared coins index inputs) := by
  induction inputs generalizing index with
  | nil => exact pure ()
  | cons i rest ih =>
      refine bind (checkCancelled s) fun _ => ?_
      cases coins[index]? with
      | none => exact throw _
      | some coin => exact bind (ofExcept _) fun _ => ih (index + 1)

theorem checkTxs (c : Candidate) (s : Surroundings) (txs : List (Tx × Option (List Coin))) :
    Quiet (CoinsRule.checkTxs c s txs) := by
  induction txs with
  | nil => exact pure ()
  | cons e rest ih =>
      obtain ⟨tx, coins⟩ := e
      rw [CoinsRule.checkTxs]
      cases tx.isCoinbase with
      | true => exact ih
      | false => exact bind (checkInputs ..) fun _ => ih

theorem confirmSpent (s : Surroundings) (spent : PlacedCoins) :
    Quiet (Candidate.confirmSpent s spent) := by
  induction spent with
  | nil => exact pure ()
  | cons e rest ih =>
      exact bind (lookup s e.1) fun _ => bind (demand _ _) fun _ => ih

end Validation.Quiet

/-- Of all rules about coins, only those that load and spend coins touch the effect. -/
theorem CoinRule.quiet {c : Candidate} {s : Surroundings} {r : CoinRule}
    (hr : r ∈ [CoinsRule.bip30, StakeRule.proofOfStake, StakeRule.coldStaking,
      CoinsRule.scripts]) : Validation.Quiet (r.run c s) := by
  simp only [List.mem_cons, List.not_mem_nil, or_false] at hr
  rcases hr with rfl | rfl | rfl | rfl
  · change Validation.Quiet (if c.rules.bip30 then _ else _)
    split
    · exact .bind (.noneAt s _) fun _ => .demand _ _
    · exact .pure _
  · refine .bind .get fun p => .bind (.ofExcept _) fun r => ⟨fun h => ?_⟩
    rw [modify_eq_ok.mp h]
    rfl
  · change Validation.Quiet (if c.block.isProofOfStake then _ else _)
    split
    · refine .bind .get fun p => ?_
      split
      · exact .ofExcept _
      · exact .pure _
    · exact .pure _
  · exact .bind .get fun p => .checkTxs c s _

namespace Candidate

/-! ## The fourth phase -/

variable {c : Candidate} {s : Surroundings} {p q r : Progress}

theorem runAll_cons_eq_ok {rule : CoinRule} {rules : List CoinRule} :
    c.runAll s (rule :: rules) p = .ok () r ↔
      s.cancelled p.lookups = false ∧
        ∃ q, rule.run c s p = .ok () q ∧ c.runAll s rules q = .ok () r := by
  rw [runAll, bind_eq_ok]
  constructor
  · rintro ⟨_, p', hc, h⟩
    obtain ⟨hc, rfl⟩ := Validation.checkCancelled_eq_ok.mp hc
    obtain ⟨_, q, hq, hr⟩ := bind_eq_ok.mp h
    exact ⟨hc, q, hq, hr⟩
  · rintro ⟨hc, q, hq, hr⟩
    exact ⟨(), p, Validation.checkCancelled_eq_ok.mpr ⟨hc, rfl⟩,
      bind_eq_ok.mpr ⟨(), q, hq, hr⟩⟩

theorem runAll_quiet {rules : List CoinRule} (hq : ∀ r ∈ rules, Validation.Quiet (r.run c s)) :
    Validation.Quiet (c.runAll s rules) := by
  induction rules with
  | nil => exact .pure ()
  | cons r rest ih =>
      exact .bind (.checkCancelled s) fun _ =>
        .bind (hq r List.mem_cons_self) fun _ =>
          ih fun r hr => hq r (List.mem_cons_of_mem _ hr)

/-- The rules that come after the coins were spent. -/
def lateRules (p : Params) : List CoinRule :=
  p.whereStaked [StakeRule.proofOfStake, StakeRule.coldStaking] ++ [CoinsRule.scripts]

theorem quiet_of_mem_lateRules {p : Params} {rule : CoinRule} (h : rule ∈ lateRules p) :
    Validation.Quiet (rule.run c s) := by
  refine CoinRule.quiet ?_
  rw [lateRules, Params.whereStaked] at h
  split at h
  · exact List.mem_cons_of_mem _ h
  · simp only [List.nil_append, List.mem_singleton] at h
    simp [h]

theorem loadCoins_eq_ok (h : CoinsRule.loadCoins.run c s p = .ok () q) :
    ∃ loaded r, Validation.load s ∅ (CoinSet.externalPlaces c.block) p = .ok loaded r ∧
      q = { r with loaded := loaded } := by
  obtain ⟨loaded, r, hl, hm⟩ := bind_eq_ok.mp h
  exact ⟨loaded, r, hl, modify_eq_ok.mp hm⟩

theorem bip30_eq_ok (h : CoinsRule.bip30.run c s p = .ok () q) (hb : c.rules.bip30 = true) :
    ∃ r, CoinSet.noneAt (Validation.lookup s) c.block.outputPlaces p = .ok true r := by
  change (if c.rules.bip30 then _ else _ : Validation Unit) p = _ at h
  rw [if_pos hb] at h
  obtain ⟨free, r, hn, hd⟩ := bind_eq_ok.mp h
  obtain ⟨rfl, _⟩ := Validation.demand_eq_ok.mp hd
  exact ⟨r, hn⟩

theorem spendCoins_eq_ok (h : CoinsRule.spendCoins.run c s p = .ok () q) :
    ∃ t, (Spending.start p.loaded).steps c c.block.txs = .ok t ∧
      c.checkReward t.fees t.minted = .ok () ∧
      q =
        { p with
          loaded := ∅
          inputCoins := t.inputCoins.reverse
          spent := t.spent.reverse
          created := t.created
          fees := t.fees
          minted := t.minted } := by
  obtain ⟨_, _, hget, h₁⟩ := bind_eq_ok.mp h
  obtain ⟨rfl, rfl⟩ := get_eq_ok.mp hget
  obtain ⟨_, _, hclear, h₂⟩ := bind_eq_ok.mp h₁
  obtain ⟨t, _, hsteps, h₃⟩ := bind_eq_ok.mp h₂
  obtain ⟨ht, rfl⟩ := Validation.ofExcept_eq_ok.mp hsteps
  obtain ⟨_, _, hkeep, h₄⟩ := bind_eq_ok.mp h₃
  obtain ⟨hr, rfl⟩ := Validation.ofExcept_eq_ok.mp h₄
  refine ⟨t, ht, hr, ?_⟩
  rw [modify_eq_ok.mp hkeep, modify_eq_ok.mp hclear]

/-- The rule ends early where the walk over the transactions does, or else over the reward. -/
theorem spendCoins_eq_error {e : Rejection} (h : CoinsRule.spendCoins.run c s p = .error e q) :
    (Spending.start p.loaded).steps c c.block.txs = .error e ∨
      ∃ t : Spending, c.checkReward t.fees t.minted = .error e := by
  rcases bind_eq_error.mp h with hget | ⟨_, _, hget, h₁⟩
  · cases hget
  obtain ⟨rfl, rfl⟩ := get_eq_ok.mp hget
  rcases bind_eq_error.mp h₁ with hclear | ⟨_, _, _, h₂⟩
  · cases hclear
  rcases bind_eq_error.mp h₂ with hsteps | ⟨t, _, _, h₃⟩
  · exact .inl (Validation.ofExcept_eq_error.mp hsteps).1
  rcases bind_eq_error.mp h₃ with hkeep | ⟨_, _, _, h₄⟩
  · cases hkeep
  · exact .inr ⟨t, (Validation.ofExcept_eq_error.mp h₄).1⟩

/-- What a validation that went through has found: coins were loaded, none of the block's own
places was taken if that was asked for, and one walk over the transactions gives the effect. -/
structure Found (c : Candidate) (s : Surroundings) (v : Validated) (loaded : CoinSet)
    (t : Spending) : Prop where
  loads : ∃ p q, Validation.load s ∅ (CoinSet.externalPlaces c.block) p = .ok loaded q
  free : c.rules.bip30 = true →
    ∃ p q, CoinSet.noneAt (Validation.lookup s) c.block.outputPlaces p = .ok true q
  steps : (Spending.start loaded).steps c c.block.txs = .ok t
  reward : c.checkReward t.fees t.minted = .ok ()
  spent : v.undo.spent = t.spent.reverse
  created : v.created = t.created
  fees : v.fees = t.fees

theorem found_of_runAll (h : c.runAll s c.params.coinRules p = .ok () q) :
    ∃ loaded t, c.Found s (c.outcome q) loaded t ∧ q.inputCoins = t.inputCoins.reverse := by
  -- the rules that load and spend coins come first, with one quiet rule between them
  change c.runAll s (CoinsRule.loadCoins :: CoinsRule.bip30 :: CoinsRule.spendCoins ::
    lateRules c.params) p = _ at h
  obtain ⟨_, p₃, hload, h⟩ := runAll_cons_eq_ok.mp h
  obtain ⟨_, p₄, hbip, h⟩ := runAll_cons_eq_ok.mp h
  obtain ⟨_, p₅, hspend, hlate⟩ := runAll_cons_eq_ok.mp h
  obtain ⟨loaded, r, hl, rfl⟩ := loadCoins_eq_ok hload
  have hquiet := (CoinRule.quiet (c := c) (s := s) List.mem_cons_self).effect_eq hbip
  have hloaded : p₄.loaded = loaded := congrArg Progress.loaded hquiet
  obtain ⟨t, ht, hr, rfl⟩ := spendCoins_eq_ok hspend
  have heff := (runAll_quiet fun _ => quiet_of_mem_lateRules).effect_eq hlate
  refine ⟨loaded, t, ?_, congrArg Progress.inputCoins heff⟩
  exact
    { loads := ⟨p, r, hl⟩
      free := fun hb => ⟨_, bip30_eq_ok hbip hb⟩
      steps := hloaded ▸ ht
      reward := hr
      spent := congrArg Progress.spent heff
      created := congrArg Progress.created heff
      fees := congrArg Progress.fees heff }

theorem found_of_runCoins {v : Validated} (h : c.runCoins s p = .ok v q) :
    ∃ loaded t, c.Found s v loaded t ∧ q.inputCoins = t.inputCoins.reverse := by
  obtain ⟨_, p₀, hset, h₁⟩ := bind_eq_ok.mp h
  obtain ⟨_, p₁, hall, h₂⟩ := bind_eq_ok.mp h₁
  obtain ⟨_, p₂, hcan, h₃⟩ := bind_eq_ok.mp h₂
  obtain ⟨_, rfl⟩ := Validation.checkCancelled_eq_ok.mp hcan
  obtain ⟨loaded, t, hfound, hcoins⟩ := found_of_runAll hall
  -- what comes after the rules looks at the coins once more, which is quiet
  have houtcome : ∀ {p₆}, (get >>= fun p => pure (c.outcome p) : Validation Validated) p₆ =
      .ok v q → v = c.outcome p₆ ∧ q = p₆ := by
    intro p₆ h
    obtain ⟨_, _, hget, hpure⟩ := bind_eq_ok.mp h
    obtain ⟨rfl, rfl⟩ := get_eq_ok.mp hget
    exact pure_eq_ok.mp hpure
  have hend : ∃ p₆, p₆.effect = p₂.effect ∧ v = c.outcome p₆ ∧ q = p₆ := by
    split at h₃
    · obtain ⟨_, _, hget, h₄⟩ := bind_eq_ok.mp h₃
      obtain ⟨rfl, rfl⟩ := get_eq_ok.mp hget
      obtain ⟨_, p₆, hconf, h₅⟩ := bind_eq_ok.mp h₄
      exact ⟨p₆, (Validation.Quiet.confirmSpent s _).effect_eq hconf, houtcome h₅⟩
    · exact ⟨p₂, rfl, houtcome h₃⟩
  obtain ⟨p₆, h₆, rfl, rfl⟩ := hend
  refine ⟨loaded, t, ?_, (congrArg Progress.inputCoins h₆).trans hcoins⟩
  exact
    { hfound with
      spent := (congrArg Progress.spent h₆).trans hfound.spent
      created := (congrArg Progress.created h₆).trans hfound.created
      fees := (congrArg Progress.fees h₆).trans hfound.fees }

theorem validateCoins_eq_ok {v : Validated} :
    c.validateCoins s = .ok v ↔ ∃ q, c.runCoins s Progress.start = .ok v q := by
  rw [validateCoins]
  cases c.runCoins s Progress.start with
  | ok v' q' => simp
  | error e q' => simp

theorem found_of_validateCoins {v : Validated} (h : c.validateCoins s = .ok v) :
    ∃ loaded t, c.Found s v loaded t := by
  obtain ⟨q, hq⟩ := validateCoins_eq_ok.mp h
  obtain ⟨loaded, t, hf, _⟩ := found_of_runCoins hq
  exact ⟨loaded, t, hf⟩

/-! ## The change of the set -/

theorem commitCoins_of_ok {around : CoinSet → Surroundings} {v : Validated} {set : CoinSet}
    (h : c.validateCoins (around set) = .ok v) :
    c.commitCoins around set = .ok v (v.applyTo set) := by
  have hget : (get : EStateM Rejection CoinSet CoinSet) set = .ok set set := rfl
  simp only [commitCoins, bind, EStateM.bind, hget, h]
  rfl

theorem commitCoins_of_error {around : CoinSet → Surroundings} {e : Rejection} {set : CoinSet}
    (h : c.validateCoins (around set) = .error e) :
    c.commitCoins around set = .error e set := by
  have hget : (get : EStateM Rejection CoinSet CoinSet) set = .ok set set := rfl
  simp only [commitCoins, bind, EStateM.bind, hget, h]
  rfl

theorem commitCoins_eq_ok {around : CoinSet → Surroundings} {v : Validated} {set set' : CoinSet} :
    c.commitCoins around set = .ok v set' ↔
      c.validateCoins (around set) = .ok v ∧ set' = v.applyTo set := by
  cases hv : c.validateCoins (around set) with
  | error e =>
      rw [commitCoins_of_error hv]
      simp
  | ok v' =>
      rw [commitCoins_of_ok hv, EStateM.Result.ok.injEq, Except.ok.injEq]
      exact and_congr_right fun h => h ▸ eq_comm

/-- The set is not changed by a validation that fails, for whatever reason and whatever changed
around it. -/
theorem set_eq_of_commitCoins_eq_error {around : CoinSet → Surroundings} {e : Rejection}
    {set set' : CoinSet} (h : c.commitCoins around set = .error e set') : set' = set := by
  cases hv : c.validateCoins (around set) with
  | error e' =>
      rw [commitCoins_of_error hv] at h
      cases h
      rfl
  | ok v =>
      rw [commitCoins_of_ok hv] at h
      cases h

/-! ## The coins that were loaded -/

/-- The coins loaded for a block: those of the set at the places that it spends from earlier
blocks. -/
structure Loads (c : Candidate) (set loaded : CoinSet) : Prop where
  inside : ∀ o ∈ CoinSet.externalPlaces c.block, loaded[o]? = set[o]?
  outside : ∀ o ∉ CoinSet.externalPlaces c.block, loaded[o]? = none

theorem loads_of_load {set loaded : CoinSet} {cancelled : List OutPoint → Bool}
    (h : Validation.load (.holding set cancelled) ∅ (CoinSet.externalPlaces c.block) p =
      .ok loaded q) : c.Loads set loaded where
  inside o ho := by
    refine Validation.find_load_of_mem h (fun o coin hf => ?_) ho
    rw [CoinSet.find_empty] at hf
    cases hf
  outside o ho := by
    rw [Validation.find_load_of_notMem h ho, CoinSet.find_empty]

theorem Loads.find_own {set loaded : CoinSet} (h : c.Loads set loaded) {o : OutPoint}
    (ho : o.hash ∈ c.block.txIds) : loaded[o]? = none :=
  h.outside o fun hm => (CoinSet.mem_externalPlaces.mp hm).2 ho

variable {v : Validated} {loaded : CoinSet} {t : Spending}

/-- No coin under an id of the block is loaded. -/
theorem Found.none_loaded (h : c.Found s v loaded t) {o : OutPoint}
    (ho : o.hash ∈ c.block.txIds) : loaded[o]? = none := by
  obtain ⟨_, _, hl⟩ := h.loads
  rw [Validation.find_load_of_notMem hl fun hm => (CoinSet.mem_externalPlaces.mp hm).2 ho]
  exact CoinSet.find_empty

theorem Found.sound (h : c.Found s v loaded t) :
    Spending.Sound c.block.txIds loaded c.block.txs t :=
  Spending.sound_of_steps (fun _ => h.none_loaded) h.steps

/-- Each place outside of the block that it spends is noted once, in order. -/
theorem Found.spent_places (h : c.Found s v loaded t) :
    v.undo.spent.map Prod.fst = CoinSet.externalPlaces c.block := by
  rw [h.spent, h.sound.places, CoinSet.externalPlaces, Block.spentPlaces_eq_flatMap]

theorem Found.nodup_spent (h : c.Found s v loaded t) :
    (v.undo.spent.map Prod.fst).Nodup := by
  rw [h.spent, List.map_reverse, List.nodup_reverse]
  exact h.sound.nodup

theorem Found.mem_created (h : c.Found s v loaded t) {e : OutPoint × Coin} :
    e ∈ v.created ↔ e.1.hash ∈ c.block.txIds ∧ t.available[e.1]? = some e.2 := by
  rw [h.created, h.sound.mem_created]

/-- A coin under an id of the block is at one of the places where the block creates coins. -/
theorem Found.mem_places (h : c.Found s v loaded t) {o : OutPoint} {coin : Coin}
    (ho : o.hash ∈ c.block.txIds) (hc : t.available[o]? = some coin) :
    o ∈ c.block.txs.flatMap fun tx => tx.createdPlaces c.height c.block.header.time := by
  change o ∈ c.block.txs.flatMap fun tx => tx.createdPlaces c.height c.header.time
  rw [← Spending.ownOrder_of_steps h.steps, List.mem_reverse]
  exact h.sound.order o ((h.sound.own o).mpr ⟨ho, coin, hc⟩)

theorem Found.nodup_created (h : c.Found s v loaded t) :
    (v.created.map Prod.fst).Nodup :=
  h.created ▸ t.nodup_created

/-- Where the coins stay as they are, every coin that was noted is the one that is there. -/
theorem Found.find_spent {set : CoinSet} {cancelled : List OutPoint → Bool}
    (h : c.Found (.holding set cancelled) v loaded t) {e : OutPoint × Coin}
    (he : e ∈ v.undo.spent) : set[e.1]? = some e.2 := by
  obtain ⟨_, _, hl⟩ := h.loads
  have hm : e.1 ∈ CoinSet.externalPlaces c.block := by
    rw [← h.spent_places]
    exact List.mem_map_of_mem he
  rw [h.spent, List.mem_reverse] at he
  rw [← (loads_of_load hl).inside e.1 hm]
  exact h.sound.found e he

end Candidate

/-! ## Small blocks

What is shown of single blocks is shown of these: one coin is there, and the
block is the first of its chain, or one that stakes the coin. -/

namespace Sample

/-- The script that anyone satisfies. -/
def anyone : Script :=
  ⟨[0x51]⟩

/-- The place of the one coin before the block. -/
def place : OutPoint :=
  ⟨Digest.ofNat 1, 0⟩

def coins : CoinSet :=
  (∅ : CoinSet).insert place ⟨⟨5, anyone⟩, 0, false, false, 0, none⟩

def coinbase : Tx :=
  ⟨1, [⟨OutPoint.null, ⟨[0, 0]⟩, sequenceFinal, []⟩], [⟨5000000000, anyone⟩], 0⟩

/-- Pays an amount to anyone from one place. -/
def spend (o : OutPoint) (value : Int64) : Tx :=
  ⟨1, [⟨o, Script.empty, sequenceFinal, []⟩], [⟨value, anyone⟩], 0⟩

/-- A block as the first of its chain. -/
def first (p : Params) (b : Block) : Candidate where
  params := p
  block := b
  branch := Branch.root b.header
  adjustedTime := 1600000000
  rules := ⟨Flags.none, LockTimeRules.none, true, false⟩

/-! ### Staked blocks -/

/-- The key of the secret number one. -/
def hotKey : Bytes :=
  2 :: Bytes.ofNatBE 32 0x79be667ef9dcbbac55a06295ce870b07029bfcdb2dce28d959f2815b16f81798

/-- A signature of the hot key, by its second number. The first is that of the key itself, as
for the secret nonce one. -/
def hotSignature (s : Nat) : Bytes :=
  [0x30, 68, 2, 32] ++ hotKey.drop 1 ++ [2, 32] ++ Bytes.ofNatBE 32 s

def oldCoin (script : Script) : Coin :=
  ⟨⟨5, script⟩, 1, false, false, 1600000000, none⟩

/-- The coin for anyone, old enough to stake. -/
def soleCoin : CoinSet :=
  (∅ : CoinSet).insert place (oldCoin anyone)

/-- The coinbase of a staked block. -/
def emptyCoinbase : Tx :=
  ⟨1, [⟨OutPoint.null, ⟨[1, 20, 0]⟩, sequenceFinal, []⟩], [⟨0, .empty⟩], 0⟩

/-- The header before a staked block. -/
def stakedParent : Link where
  header := ⟨4, Digest.zero, Digest.zero, 1600000304, 0x207fffff, 0⟩
  hash := BlockHeader.id ⟨4, Digest.zero, Digest.zero, 1600000304, 0x207fffff, 0⟩
  height := 19
  work := Work.ofBits 0x207fffff
  stake := some .empty

/-- A block with a coinstake at height 20. -/
def staked (stake : Tx) (signature : Bytes) : Candidate where
  params := .stakeRegtest
  block := ⟨header, [emptyCoinbase, stake], signature⟩
  branch := ⟨⟨header, header.id, 20, Work.ofBits 0x207fffff + Work.ofBits 0x207fffff, none⟩,
    [stakedParent]⟩
  adjustedTime := 1600000320
  rules :=
    { script :=
        { Flags.none with
          p2sh := true
          nullDummy := true
          checkSequenceVerify := true
          witness := true
          checkColdStakeVerify := true }
      lockTime := ⟨true, true⟩
      bip30 := true
      bip34 := false }
where
  header : BlockHeader :=
    ⟨4, stakedParent.hash, (Merkle.root [emptyCoinbase.id, stake.id]).hash, 1600000320,
      0x207fffff, 0⟩

end Sample

end StakeChain
