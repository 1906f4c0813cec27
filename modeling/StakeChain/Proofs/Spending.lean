/-
Going through the transactions of a block.

`Took` says all that taking the coins of a transaction does, `Stepped` all
that one transaction does; nothing else about `Spending.step` is used
later. `Sound` is what then holds after any part of the block: the coins
that may be spent are those loaded, less those spent, and the block's own
ones, told apart by the ids of the block.
-/
import Mathlib.Data.List.Nodup
import StakeChain.Proofs.CoinSet
import StakeChain.Proofs.Outcome
import StakeChain.Validation.Coins

namespace StakeChain

/-! ## Places and ids of transactions -/

namespace Tx

/-- The places that a transaction spends, in order. A coinbase spends none. -/
def spentPlaces (tx : Tx) : List OutPoint :=
  if tx.isCoinbase then [] else tx.inputs.map TxIn.prevout

/-- The places of the coins that a transaction creates. -/
def createdPlaces (tx : Tx) (height : Nat) (time : UInt32) : List OutPoint :=
  (tx.createdCoins height time).map Prod.fst

theorem mem_createdCoins {tx : Tx} {height : Nat} {time : UInt32} {e : OutPoint × Coin} :
    e ∈ tx.createdCoins height time ↔
      ∃ o k, (o, k) ∈ tx.outputs.zipIdx ∧ o.script.isUnspendable = false ∧
        e = (⟨tx.id, UInt32.ofNat k⟩, tx.coinOf height time o) := by
  simp only [createdCoins, List.mem_map, List.mem_filter, Bool.not_eq_true', Prod.exists]
  constructor
  · rintro ⟨o, k, ⟨hm, hu⟩, rfl⟩
    exact ⟨o, k, hm, hu, rfl⟩
  · rintro ⟨o, k, hm, hu, rfl⟩
    exact ⟨o, k, ⟨hm, hu⟩, rfl⟩

/-- A transaction creates coins under its own id only. -/
theorem hash_of_mem_createdPlaces {tx : Tx} {height : Nat} {time : UInt32} {o : OutPoint}
    (h : o ∈ tx.createdPlaces height time) : o.hash = tx.id := by
  obtain ⟨e, he, rfl⟩ := List.mem_map.mp h
  obtain ⟨_, _, _, _, rfl⟩ := mem_createdCoins.mp he
  rfl

end Tx

namespace Block

theorem mem_txIds {b : Block} {h : Hash256} : h ∈ b.txIds ↔ h ∈ b.txs.map Tx.id := by
  rw [txIds, Std.ExtTreeSet.mem_ofList, List.contains_iff_mem]

theorem spentPlaces_eq_flatMap (b : Block) : b.spentPlaces = b.txs.flatMap Tx.spentPlaces := by
  rw [spentPlaces]
  induction b.txs with
  | nil => rfl
  | cons tx rest ih =>
      cases h : tx.isCoinbase <;> simp [Tx.spentPlaces, h, ih]

theorem mem_spentPlaces {b : Block} {tx : Tx} {o : OutPoint} (htx : tx ∈ b.txs)
    (ho : o ∈ tx.spentPlaces) : o ∈ b.spentPlaces := by
  rw [spentPlaces_eq_flatMap]
  exact List.mem_flatMap_of_mem htx ho

theorem createdCoins_places (b : Block) (height : Nat) :
    (b.createdCoins height).map Prod.fst =
      b.txs.flatMap fun tx => tx.createdPlaces height b.header.time := by
  rw [createdCoins, List.map_flatMap]
  rfl

theorem mem_createdPlaces {b : Block} {tx : Tx} {height : Nat} {o : OutPoint} (htx : tx ∈ b.txs)
    (ho : o ∈ tx.createdPlaces height b.header.time) :
    o ∈ (b.createdCoins height).map Prod.fst := by
  rw [createdCoins_places]
  exact List.mem_flatMap_of_mem htx ho

end Block

namespace CoinSet

theorem mem_externalPlaces {b : Block} {o : OutPoint} :
    o ∈ externalPlaces b ↔ o ∈ b.spentPlaces ∧ o.hash ∉ b.txIds := by
  rw [externalPlaces, List.mem_filter, Bool.not_eq_true', Bool.eq_false_iff, ne_eq,
    Std.ExtTreeSet.contains_iff_mem]

end CoinSet

namespace Spending

/-! ## Taking coins -/

/-- Taking the coins of some places, all there and each taken once: those that the block did not
create are noted as spent. -/
structure Took (s : Spending) (places : List OutPoint) (coins : List Coin) (t : Spending) :
    Prop where
  found : places.map (s.available[·]?) = coins.map some
  nodup : places.Nodup
  available : t.available = s.available.eraseAll places
  own : ∀ o, o ∈ t.own ↔ o ∈ s.own ∧ o ∉ places
  spent : t.spent.reverse =
    s.spent.reverse ++ (places.zip coins).filter fun e => !s.own.contains e.1
  frame : t = { s with available := t.available, own := t.own, spent := t.spent }

theorem took_nil (s : Spending) : Took s [] [] s where
  found := rfl
  nodup := List.nodup_nil
  available := rfl
  own _ := (and_iff_left List.not_mem_nil).symm
  spent := by simp
  frame := rfl

theorem take_eq_error {s : Spending} {o : OutPoint} {e : Rejection} :
    s.take o = .error e ↔
      s.available[o]? = none ∧ e = .consensus .badTransactionMissingInput := by
  rw [take]
  cases s.available[o]? with
  | none => simp [eq_comm]
  | some coin =>
      dsimp only
      split <;> simp

/-- What taking one coin does. -/
theorem took_of_take {s t : Spending} {o : OutPoint} {coin : Coin}
    (h : s.take o = .ok (coin, t)) : Took s [o] [coin] t := by
  rw [take] at h
  cases ha : s.available[o]? with
  | none =>
      rw [ha] at h
      cases h
  | some found =>
      rw [ha] at h
      cases ho : s.own.contains o with
      | true =>
          simp only [ho, if_true, Except.ok.injEq, Prod.mk.injEq] at h
          obtain ⟨rfl, rfl⟩ := h
          exact
            { found := by simp [ha]
              nodup := List.nodup_singleton o
              available := rfl
              own := fun p => by
                rw [CoinSet.Places.mem_erase_iff, List.mem_singleton, and_comm, ne_comm]
              spent := by simp [ho]
              frame := rfl }
      | false =>
          simp only [ho, Bool.false_eq_true, if_false, Except.ok.injEq, Prod.mk.injEq] at h
          obtain ⟨rfl, rfl⟩ := h
          exact
            { found := by simp [ha]
              nodup := List.nodup_singleton o
              available := rfl
              own := fun p => by
                constructor
                · intro hp
                  refine ⟨hp, fun h => ?_⟩
                  rw [List.mem_singleton.mp h, ← Std.ExtTreeSet.contains_iff_mem, ho] at hp
                  cases hp
                · exact And.left
              spent := by simp [ho]
              frame := rfl }

/-- Taking one coin, then those of other places. The other places are different from the first,
since its coin is not there any more. -/
theorem Took.cons {s t u : Spending} {o : OutPoint} {coin : Coin} {places : List OutPoint}
    {coins : List Coin} (h : Took s [o] [coin] t) (hr : Took t places coins u) :
    Took s (o :: places) (coin :: coins) u := by
  have hfind : ∀ p, t.available[p]? = if p = o then none else s.available[p]? := by
    intro p
    rw [h.available, CoinSet.find_eraseAll]
    simp only [List.mem_singleton]
  have ho : o ∉ places := by
    intro hm
    obtain ⟨c, hc, hf⟩ := List.mem_map.mp (hr.found ▸ List.mem_map_of_mem hm)
    rw [hfind o, if_pos rfl] at hf
    cases hf
  have hne : ∀ p ∈ places, p ≠ o := fun p hp h => ho (h ▸ hp)
  have hs : ∀ p ∈ places, t.own.contains p = s.own.contains p := by
    intro p hp
    rw [Bool.eq_iff_iff, Std.ExtTreeSet.contains_iff_mem, Std.ExtTreeSet.contains_iff_mem,
      h.own, List.mem_singleton]
    exact and_iff_left (hne p hp)
  exact
    { found := by
        rw [List.map_cons, List.map_cons, ← hr.found]
        refine congrArg₂ List.cons (List.cons.inj h.found).1 (List.map_congr_left ?_)
        intro p hp
        rw [hfind p, if_neg (hne p hp)]
      nodup := List.nodup_cons.mpr ⟨ho, hr.nodup⟩
      available := by
        rw [hr.available, h.available]
        rfl
      own := by
        intro p
        rw [hr.own, h.own, List.mem_singleton, List.mem_cons, not_or, and_assoc]
      spent := by
        rw [hr.spent, h.spent, List.append_assoc, List.zip_cons_cons, List.filter_cons]
        have hz : (places.zip coins).filter (fun e => !t.own.contains e.1) =
            (places.zip coins).filter fun e => !s.own.contains e.1 :=
          List.filter_congr fun e he => by rw [hs e.1 (List.of_mem_zip he).1]
        rw [hz]
        cases hc : s.own.contains o <;> simp [hc]
      frame := by
        rw [hr.frame, h.frame] }

theorem took_of_takeAll {places : List OutPoint} {s t : Spending} {acc coins : List Coin}
    (h : s.takeAll acc places = .ok (coins, t)) :
    ∃ new, coins = acc.reverse ++ new ∧ Took s places new t := by
  induction places generalizing s acc with
  | nil =>
      simp only [takeAll, Except.ok.injEq, Prod.mk.injEq] at h
      obtain ⟨rfl, rfl⟩ := h
      exact ⟨[], by simp, took_nil s⟩
  | cons o rest ih =>
      simp only [takeAll, Verdict.bind_eq_ok, Prod.exists] at h
      obtain ⟨coin, s', ho, hr⟩ := h
      obtain ⟨new, rfl, hnew⟩ := ih hr
      exact ⟨coin :: new, by simp, (took_of_take ho).cons hnew⟩

theorem took_of_takeInputs {c : Candidate} {s t : Spending} {tx : Tx} {coins : List Coin}
    (h : s.takeInputs c tx = .ok (coins, t)) : Took s tx.spentPlaces coins t := by
  rw [takeInputs] at h
  cases hc : tx.isCoinbase with
  | true =>
      simp only [hc, if_true, Except.ok.injEq, Prod.mk.injEq] at h
      obtain ⟨rfl, rfl⟩ := h
      rw [Tx.spentPlaces, hc]
      exact took_nil s
  | false =>
      simp only [hc, Bool.false_eq_true, if_false, Verdict.bind_eq_ok, Prod.exists] at h
      obtain ⟨coins', t', ht, _, _, hp⟩ := h
      cases hp
      obtain ⟨new, hnew, htook⟩ := took_of_takeAll ht
      rw [Tx.spentPlaces, hc]
      exact hnew ▸ htook

/-! ## Creating coins -/

theorem mem_own_create {coins : PlacedCoins} {s : Spending} {o : OutPoint} :
    o ∈ (s.create coins).own ↔ o ∈ s.own ∨ o ∈ coins.map Prod.fst := by
  induction coins generalizing s with
  | nil => simp [create]
  | cons e rest ih =>
      change o ∈ (create _ rest).own ↔ _
      rw [ih, CoinSet.Places.mem_insert_iff, List.map_cons, List.mem_cons, or_assoc, or_left_comm,
        eq_comm]

theorem create_eq (s : Spending) (coins : PlacedCoins) :
    s.create coins =
      { s with
        available := s.available.insertAll coins
        own := (s.create coins).own
        ownOrder := (coins.map Prod.fst).reverse ++ s.ownOrder } := by
  induction coins generalizing s with
  | nil => rfl
  | cons e rest ih =>
      change create _ rest = _
      rw [ih]
      simp only [List.map_cons, List.reverse_cons, List.append_assoc, List.singleton_append]
      rfl

/-! ## One transaction -/

/-- What accounting for a transaction changes. -/
theorem account_frame {c : Candidate} {s t : Spending} {tx : Tx} {coins : List Coin}
    (h : s.account c tx coins = .ok t) : t = { s with fees := t.fees, minted := t.minted } := by
  rw [account] at h
  cases hc : tx.isCoinbase with
  | true =>
      simp only [hc, if_true, Except.ok.injEq] at h
      rw [← h]
  | false =>
      simp only [hc, Bool.false_eq_true, if_false, Verdict.bind_eq_ok] at h
      obtain ⟨fee, _, h⟩ := h
      cases hs : tx.isCoinstake with
      | true =>
          simp only [hs, if_true, Verdict.bind_eq_ok] at h
          obtain ⟨minted, _, h⟩ := h
          cases h
          rfl
      | false =>
          simp only [hs, Bool.false_eq_true, if_false, Verdict.bind_eq_ok] at h
          obtain ⟨_, _, h⟩ := h
          cases h
          rfl

/-- All that one transaction does: it takes its coins, is accounted for, and adds its own. -/
structure Stepped (c : Candidate) (s : Spending) (tx : Tx) (coins : List Coin) (t : Spending) :
    Prop where
  found : tx.spentPlaces.map (s.available[·]?) = coins.map some
  nodup : tx.spentPlaces.Nodup
  available : t.available =
    s.available.change tx.spentPlaces (tx.createdCoins c.height c.header.time)
  own : ∀ o, o ∈ t.own ↔
    (o ∈ s.own ∧ o ∉ tx.spentPlaces) ∨ o ∈ tx.createdPlaces c.height c.header.time
  ownOrder : t.ownOrder = (tx.createdPlaces c.height c.header.time).reverse ++ s.ownOrder
  spent : t.spent.reverse =
    s.spent.reverse ++ (tx.spentPlaces.zip coins).filter fun e => !s.own.contains e.1
  inputCoins : t.inputCoins = coins :: s.inputCoins
  accounted : ∃ u v : Spending, u.fees = s.fees ∧ u.minted = s.minted ∧
    u.account c tx coins = .ok v ∧ t.fees = v.fees ∧ t.minted = v.minted

theorem stepped_of_step {c : Candidate} {s t : Spending} {tx : Tx} (h : s.step c tx = .ok t) :
    ∃ coins, Stepped c s tx coins t := by
  simp only [step, Verdict.bind_eq_ok, Prod.exists] at h
  obtain ⟨coins, u, hu, _, _, v, hv, hp⟩ := h
  have htook := took_of_takeInputs hu
  have hframe := account_frame hv
  have hcreate := create_eq v (tx.createdCoins c.height c.header.time)
  cases hp
  refine ⟨coins, ?_⟩
  exact
    { found := htook.found
      nodup := htook.nodup
      available := by
        rw [hcreate, hframe]
        change u.available.insertAll _ = _
        rw [htook.available]
        rfl
      own := by
        intro o
        change o ∈ (v.create _).own ↔ _
        rw [mem_own_create, hframe]
        change o ∈ u.own ∨ _ ↔ _
        rw [htook.own]
        rfl
      ownOrder := by
        rw [hcreate, hframe]
        change _ ++ u.ownOrder = _
        rw [htook.frame]
        rfl
      spent := by
        rw [hcreate, hframe]
        exact htook.spent
      inputCoins := by
        change coins :: (v.create _).inputCoins = _
        rw [hcreate, hframe]
        change coins :: u.inputCoins = _
        rw [htook.frame]
      accounted :=
        ⟨u, v, by rw [htook.frame], by rw [htook.frame], hv, by rw [hcreate], by rw [hcreate]⟩ }

/-! ## The whole block

An invariant of the transactions gone through so far has to be kept by one
transaction, which may look at the whole list: `all` is what was gone
through, the transaction, and the rest. -/

theorem steps_induction {c : Candidate} {all : List Tx} {P : List Tx → Spending → Prop}
    {s t : Spending} (h : s.steps c all = .ok t) (start : P [] s)
    (step : ∀ {done rest : List Tx} {tx : Tx} {coins : List Coin} {s t : Spending},
      all = done ++ tx :: rest → P done s → Stepped c s tx coins t → P (done ++ [tx]) t) :
    P all t := by
  have hfrom : ∀ (txs done : List Tx) (s : Spending), all = done ++ txs → P done s →
      s.steps c txs = .ok t → P all t := by
    intro txs
    induction txs with
    | nil =>
        intro done s hall hp h
        cases h
        rwa [hall, List.append_nil]
    | cons tx rest ih =>
        intro done s hall hp h
        simp only [steps, Verdict.bind_eq_ok] at h
        obtain ⟨u, hu, h⟩ := h
        obtain ⟨coins, hstep⟩ := stepped_of_step hu
        exact ih _ _ (by rw [hall, List.append_assoc]; rfl) (step hall hp hstep) h
  exact hfrom all [] s rfl start h

/-- What holds when a part of a block with these ids was gone through, from coins loaded before:
the block's own coins are those under its ids, and the others are the loaded ones that were not
spent yet. Every place outside of the block was noted once, with the coin loaded for it. -/
structure Sound (ids : Std.ExtTreeSet Hash256 compare) (loaded : CoinSet) (done : List Tx)
    (s : Spending) : Prop where
  own : ∀ o, o ∈ s.own ↔ o.hash ∈ ids ∧ ∃ coin, s.available[o]? = some coin
  order : ∀ o ∈ s.own, o ∈ s.ownOrder
  order_ids : ∀ o ∈ s.ownOrder, o.hash ∈ ids
  outside : ∀ o, o.hash ∉ ids →
    s.available[o]? = if o ∈ s.spent.map Prod.fst then none else loaded[o]?
  places : s.spent.reverse.map Prod.fst =
    (done.flatMap Tx.spentPlaces).filter fun o => !ids.contains o.hash
  found : ∀ e ∈ s.spent, loaded[e.1]? = some e.2
  nodup : (s.spent.map Prod.fst).Nodup

variable {ids : Std.ExtTreeSet Hash256 compare} {loaded : CoinSet}

theorem sound_start (h : ∀ o : OutPoint, o.hash ∈ ids → loaded[o]? = none) :
    Sound ids loaded [] (start loaded) where
  own o := by
    constructor
    · exact fun ho => absurd ho Std.ExtTreeSet.not_mem_empty
    · rintro ⟨ho, coin, hc⟩
      change loaded[o]? = some coin at hc
      rw [h o ho] at hc
      cases hc
  order _ h := absurd h Std.ExtTreeSet.not_mem_empty
  order_ids _ h := absurd h List.not_mem_nil
  outside _ _ := rfl
  places := rfl
  found _ h := absurd h List.not_mem_nil
  nodup := List.nodup_nil

/-- The coins that a transaction takes are those that were there. -/
theorem Stepped.find_of_mem_zip {c : Candidate} {s t : Spending} {tx : Tx} {coins : List Coin}
    (h : Stepped c s tx coins t) {e : OutPoint × Coin} (he : e ∈ tx.spentPlaces.zip coins) :
    s.available[e.1]? = some e.2 := by
  obtain ⟨k, hk, rfl⟩ := List.mem_iff_getElem.mp he
  rw [List.length_zip, Nat.lt_min] at hk
  have hf := congrArg (·[k]?) h.found
  simp only [List.getElem?_map, List.getElem?_eq_getElem hk.1, List.getElem?_eq_getElem hk.2,
    Option.map_some, Option.some.injEq] at hf
  rw [List.getElem_zip]
  exact hf

theorem Stepped.length_coins {c : Candidate} {s t : Spending} {tx : Tx} {coins : List Coin}
    (h : Stepped c s tx coins t) : tx.spentPlaces.length = coins.length := by
  simpa using congrArg List.length h.found

/-- What a transaction notes as spent, told by the ids of the block. -/
theorem Stepped.spent_eq {c : Candidate} {s t : Spending} {tx : Tx} {coins : List Coin}
    {done : List Tx} (hs : Sound ids loaded done s) (h : Stepped c s tx coins t) :
    t.spent.reverse = s.spent.reverse ++
      (tx.spentPlaces.zip coins).filter fun e => !ids.contains e.1.hash := by
  rw [h.spent]
  refine congrArg _ (List.filter_congr fun e he => ?_)
  rw [Bool.not_inj_iff, Bool.eq_iff_iff, Std.ExtTreeSet.contains_iff_mem,
    Std.ExtTreeSet.contains_iff_mem, hs.own]
  exact and_iff_left ⟨e.2, h.find_of_mem_zip he⟩

/-- The coins that one transaction takes from outside of the block. -/
theorem Stepped.spent_outside {c : Candidate} {s t : Spending} {tx : Tx} {coins : List Coin}
    {done : List Tx} (hs : Sound ids loaded done s) (h : Stepped c s tx coins t) :
    ∃ new : PlacedCoins, t.spent.reverse = s.spent.reverse ++ new ∧
      new.map Prod.fst = tx.spentPlaces.filter (fun o => !ids.contains o.hash) ∧
      ∀ e ∈ new, s.available[e.1]? = some e.2 := by
  refine ⟨_, h.spent_eq hs, ?_, fun e he => h.find_of_mem_zip (List.mem_filter.mp he).1⟩
  have hmap := List.filter_map (f := Prod.fst) (l := tx.spentPlaces.zip coins)
    (p := fun o : OutPoint => !ids.contains o.hash)
  rw [List.map_fst_zip (Nat.le_of_eq h.length_coins)] at hmap
  exact hmap.symm

/-- What is found at a place after a transaction that does not create it. -/
theorem Stepped.find_of_notMem {c : Candidate} {s t : Spending} {tx : Tx} {coins : List Coin}
    (h : Stepped c s tx coins t) {o : OutPoint}
    (ho : o ∉ tx.createdPlaces c.height c.header.time) :
    t.available[o]? = if o ∈ tx.spentPlaces then none else s.available[o]? := by
  rw [h.available, CoinSet.find_change_of_notMem ho]

theorem Stepped.exists_find {c : Candidate} {s t : Spending} {tx : Tx} {coins : List Coin}
    (h : Stepped c s tx coins t) {o : OutPoint}
    (ho : o ∈ tx.createdPlaces c.height c.header.time) :
    ∃ coin, (o, coin) ∈ tx.createdCoins c.height c.header.time ∧
      t.available[o]? = some coin := by
  rw [h.available]
  exact CoinSet.exists_find_insertAll ho

theorem Sound.step {c : Candidate} {s t : Spending} {tx : Tx} {coins : List Coin}
    {done : List Tx} (hs : Sound ids loaded done s) (h : Stepped c s tx coins t)
    (hid : tx.id ∈ ids) : Sound ids loaded (done ++ [tx]) t := by
  obtain ⟨new, hspent, hplaces, hnew⟩ := h.spent_outside hs
  have hcreated : ∀ {o}, o ∈ tx.createdPlaces c.height c.header.time → o.hash ∈ ids :=
    fun ho => Tx.hash_of_mem_createdPlaces ho ▸ hid
  have hmem : ∀ o, o ∈ t.spent.map Prod.fst ↔ o ∈ s.spent.map Prod.fst ∨
      o ∈ tx.spentPlaces ∧ o.hash ∉ ids := by
    intro o
    rw [← List.mem_reverse, ← List.map_reverse, hspent, List.map_append, List.mem_append,
      List.map_reverse, List.mem_reverse, hplaces, List.mem_filter, Bool.not_eq_true',
      Bool.eq_false_iff, ne_eq, Std.ExtTreeSet.contains_iff_mem]
  have hloaded : ∀ e ∈ new, e.1 ∉ s.spent.map Prod.fst ∧ loaded[e.1]? = some e.2 := by
    intro e he
    have hout : e.1.hash ∉ ids := by
      have := List.mem_map_of_mem (f := Prod.fst) he
      rw [hplaces, List.mem_filter, Bool.not_eq_true', Bool.eq_false_iff, ne_eq,
        Std.ExtTreeSet.contains_iff_mem] at this
      exact this.2
    have hfind := hnew e he
    rw [hs.outside _ hout] at hfind
    by_cases hm : e.1 ∈ s.spent.map Prod.fst
    · rw [if_pos hm] at hfind
      cases hfind
    · rw [if_neg hm] at hfind
      exact ⟨hm, hfind⟩
  exact
    { own := by
        intro o
        rw [h.own]
        by_cases ho : o ∈ tx.createdPlaces c.height c.header.time
        · obtain ⟨coin, _, hcoin⟩ := h.exists_find ho
          exact iff_of_true (.inr ho) ⟨hcreated ho, coin, hcoin⟩
        · rw [h.find_of_notMem ho, or_iff_left ho, hs.own]
          by_cases hp : o ∈ tx.spentPlaces
          · simp [hp]
          · simp [hp]
      order := by
        intro o ho
        rw [h.ownOrder, List.mem_append, List.mem_reverse]
        exact ((h.own o).mp ho).symm.imp_right fun ho => hs.order o ho.1
      order_ids := by
        intro o ho
        rw [h.ownOrder, List.mem_append, List.mem_reverse] at ho
        exact ho.elim hcreated (hs.order_ids o)
      outside := by
        intro o ho
        rw [h.find_of_notMem (mt hcreated ho), hs.outside o ho]
        by_cases hp : o ∈ tx.spentPlaces
        · rw [if_pos hp, if_pos ((hmem o).mpr (.inr ⟨hp, ho⟩))]
        · rw [if_neg hp]
          refine if_congr ?_ rfl rfl
          rw [hmem, or_iff_left fun h => hp h.1]
      places := by
        rw [hspent, List.map_append, hs.places, hplaces, List.flatMap_append,
          List.filter_append, List.flatMap_singleton]
      found := by
        intro e he
        rw [← List.mem_reverse, hspent, List.mem_append, List.mem_reverse] at he
        exact he.elim (hs.found e) fun he => (hloaded e he).2
      nodup := by
        rw [← List.nodup_reverse, ← List.map_reverse, hspent, List.map_append,
          List.nodup_append']
        refine ⟨?_, hplaces ▸ h.nodup.filter _, ?_⟩
        · rw [List.map_reverse, List.nodup_reverse]
          exact hs.nodup
        · intro o ho hn
          obtain ⟨e, he, rfl⟩ := List.mem_map.mp hn
          rw [List.map_reverse, List.mem_reverse] at ho
          exact (hloaded e he).1 ho }

/-- What holds when all transactions of a block were gone through. -/
theorem sound_of_steps {c : Candidate} {s : Spending}
    (hl : ∀ o : OutPoint, o.hash ∈ c.block.txIds → loaded[o]? = none)
    (h : (start loaded).steps c c.block.txs = .ok s) :
    Sound c.block.txIds loaded c.block.txs s := by
  refine steps_induction h (sound_start hl) ?_
  intro done rest tx coins s t hall hs hstep
  refine hs.step hstep (Block.mem_txIds.mpr ?_)
  rw [hall, List.map_append, List.map_cons]
  exact List.mem_append_right _ List.mem_cons_self

/-! ## What is left in the end -/

theorem mem_collect {l : List OutPoint} {available : CoinSet} {acc : PlacedCoins}
    {e : OutPoint × Coin} :
    e ∈ collect available acc l ↔ e ∈ acc ∨ e.1 ∈ l ∧ available[e.1]? = some e.2 := by
  induction l generalizing available acc with
  | nil => simp [collect]
  | cons o rest ih =>
      rw [collect]
      cases ho : available[o]? with
      | none =>
          dsimp only
          rw [ih, List.mem_cons]
          refine or_congr_right (and_congr_left fun he => (or_iff_right ?_).symm)
          rintro rfl
          rw [ho] at he
          cases he
      | some coin =>
          dsimp only
          rw [ih, CoinSet.find_erase, List.mem_cons, List.mem_cons, or_assoc, or_left_comm]
          refine or_congr_right ?_
          by_cases he : o = e.1
          · subst he
            rw [if_pos rfl, ho]
            constructor
            · rintro (h | ⟨_, h⟩)
              · exact ⟨.inl rfl, congrArg some (congrArg Prod.snd h).symm⟩
              · cases h
            · rintro ⟨_, h⟩
              exact .inl (Prod.ext rfl (Option.some.inj h).symm)
          · rw [if_neg he, or_iff_right (a := e = (o, coin)) fun h => he (by rw [h]),
              or_iff_right (Ne.symm he)]

theorem nodup_collect {l : List OutPoint} {available : CoinSet} {acc : PlacedCoins}
    (hn : (acc.map Prod.fst).Nodup) (ha : ∀ o ∈ acc.map Prod.fst, available[o]? = none) :
    ((collect available acc l).map Prod.fst).Nodup := by
  induction l generalizing available acc with
  | nil =>
      rw [collect, List.map_reverse, List.nodup_reverse]
      exact hn
  | cons o rest ih =>
      rw [collect]
      cases ho : available[o]? with
      | none => exact ih hn ha
      | some coin =>
          refine ih (List.nodup_cons.mpr ⟨fun h => ?_, hn⟩) ?_
          · rw [ha o h] at ho
            cases ho
          · intro p hp
            rw [CoinSet.find_erase]
            by_cases hop : o = p
            · rw [if_pos hop]
            · rw [if_neg hop]
              exact ha p ((List.mem_cons.mp hp).resolve_left (Ne.symm hop))

/-- The coins that a block leaves behind are its own ones that may still be spent. -/
theorem Sound.mem_created {s : Spending} {done : List Tx} (hs : Sound ids loaded done s)
    {e : OutPoint × Coin} :
    e ∈ s.created ↔ e.1.hash ∈ ids ∧ s.available[e.1]? = some e.2 := by
  rw [created, mem_collect, List.mem_reverse, or_iff_right List.not_mem_nil]
  refine and_congr_left fun he => ⟨hs.order_ids _, fun hid => ?_⟩
  exact hs.order _ ((hs.own _).mpr ⟨hid, _, he⟩)

theorem nodup_created (s : Spending) : (s.created.map Prod.fst).Nodup :=
  nodup_collect List.nodup_nil fun _ h => absurd h List.not_mem_nil

/-- What may be spent in the end is what was loaded, changed by the effect of the block. -/
theorem Sound.available_eq {s : Spending} {done : List Tx} (hs : Sound ids loaded done s)
    (hl : ∀ o : OutPoint, o.hash ∈ ids → loaded[o]? = none) :
    s.available = loaded.change (s.spent.reverse.map Prod.fst) s.created := by
  apply CoinSet.ext_find
  intro o
  by_cases hc : o ∈ s.created.map Prod.fst
  · obtain ⟨e, he, rfl⟩ := List.mem_map.mp hc
    rw [(hs.mem_created.mp he).2]
    exact (CoinSet.find_insertAll_of_mem s.nodup_created he).symm
  rw [CoinSet.find_change_of_notMem hc, List.map_reverse]
  by_cases hid : o.hash ∈ ids
  · rw [hl o hid, ite_self]
    cases hfind : s.available[o]? with
    | none => rfl
    | some coin =>
        have hmem : (o, coin) ∈ s.created := hs.mem_created.mpr ⟨hid, hfind⟩
        exact absurd (List.mem_map_of_mem hmem) hc
  · rw [hs.outside o hid]
    exact if_congr List.mem_reverse.symm rfl rfl

/-- The places of the coins that were created, in the order of the block. -/
theorem ownOrder_of_steps {c : Candidate} {s : Spending} {txs : List Tx}
    (h : (start loaded).steps c txs = .ok s) :
    s.ownOrder.reverse = txs.flatMap fun tx => tx.createdPlaces c.height c.header.time := by
  refine steps_induction (P := fun done s => s.ownOrder.reverse =
    done.flatMap fun tx => tx.createdPlaces c.height c.header.time) h rfl ?_
  intro done rest tx coins s t _ hs hstep
  rw [hstep.ownOrder, List.reverse_append, List.reverse_reverse, hs, List.flatMap_append,
    List.flatMap_singleton]

end Spending

end StakeChain
