/-
What coins are worth.

The worth of a coin set is counted over some places only, all those that a
block touches, so it is a sum over a finite set that stays the same while
coins come and go.
-/
import Mathlib
import StakeChain.Proofs.Spending

namespace StakeChain

/-- The amount of a coin. -/
def Coin.amount (c : Coin) : Int :=
  c.output.value.toInt

/-- The sum of some coins. -/
def total (coins : List Coin) : Int :=
  (coins.map Coin.amount).sum

theorem total_cons {coin : Coin} {coins : List Coin} :
    total (coin :: coins) = coin.amount + total coins := by
  rw [total, List.map_cons, List.sum_cons, total]

/-- What a transaction pays. -/
def Tx.paid (tx : Tx) : Int :=
  (tx.outputs.map fun o => o.value.toInt).sum

namespace CoinSet

variable {s t : CoinSet} {places : Finset OutPoint} {o : OutPoint}

/-- What is found at a place is worth its amount, and nothing is worth nothing. -/
def amountAt (s : CoinSet) (o : OutPoint) : Int :=
  (s[o]?).elim 0 Coin.amount

/-- What the coins at some places are worth together. -/
def worth (s : CoinSet) (places : Finset OutPoint) : Int :=
  ∑ o ∈ places, s.amountAt o

theorem amountAt_of_none (h : s[o]? = none) : s.amountAt o = 0 := by
  rw [amountAt, h]
  rfl

theorem amountAt_of_some {coin : Coin} (h : s[o]? = some coin) :
    s.amountAt o = coin.amount := by
  rw [amountAt, h]
  rfl

theorem amountAt_congr (h : s[o]? = t[o]?) : s.amountAt o = t.amountAt o := by
  rw [amountAt, amountAt, h]

/-- Where two sets differ at one place only, so does their worth. -/
theorem worth_of_agree (ho : o ∈ places) (h : ∀ p : OutPoint, o ≠ p → t[p]? = s[p]?) :
    t.worth places + s.amountAt o = s.worth places + t.amountAt o := by
  have hrest : ∑ p ∈ places.erase o, t.amountAt p = ∑ p ∈ places.erase o, s.amountAt p :=
    Finset.sum_congr rfl fun p hp => amountAt_congr (h p (Finset.ne_of_mem_erase hp).symm)
  rw [worth, worth, ← Finset.add_sum_erase _ _ ho, ← Finset.add_sum_erase _ _ ho, hrest]
  omega

theorem worth_erase (ho : o ∈ places) :
    worth (s.erase o) places + s.amountAt o = s.worth places := by
  have h := worth_of_agree (s := s) (t := s.erase o) ho fun p hp => by
    rw [find_erase, if_neg hp]
  rw [h, amountAt_of_none (by rw [find_erase, if_pos rfl]), add_zero]

theorem worth_insert (coin : Coin) (ho : o ∈ places) :
    worth (s.insert o coin) places + s.amountAt o = s.worth places + coin.amount := by
  have h := worth_of_agree (s := s) (t := s.insert o coin) ho fun p hp => by
    rw [find_insert, if_neg hp]
  rw [h, amountAt_of_some (by rw [find_insert, if_pos rfl])]

/-- Coins that are taken away take their worth with them. -/
theorem worth_eraseAll {taken : List OutPoint} {coins : List Coin}
    (hf : taken.map (s[·]?) = coins.map some) (hn : taken.Nodup)
    (hp : ∀ o ∈ taken, o ∈ places) :
    worth (s.eraseAll taken) places + total coins = s.worth places := by
  induction taken generalizing s coins with
  | nil =>
      cases coins with
      | nil => exact add_zero _
      | cons coin coins => cases hf
  | cons o rest ih =>
      cases coins with
      | nil => cases hf
      | cons coin coins =>
          obtain ⟨ho, hr⟩ := List.cons.inj hf
          rw [List.nodup_cons] at hn
          have hrest := ih ((map_find_erase hn.1).trans hr) hn.2
            fun p hp' => hp p (List.mem_cons_of_mem _ hp')
          have herase := worth_erase (s := s) (hp o List.mem_cons_self)
          rw [amountAt_of_some ho] at herase
          change worth (eraseAll (s.erase o) rest) places + _ = _
          rw [total_cons]
          omega

/-- Coins that are added bring at most their worth; where they take the place of others, these
are lost. -/
theorem worth_insertAll_le {coins : PlacedCoins} (hp : ∀ o ∈ coins.map Prod.fst, o ∈ places)
    (hs : ∀ o ∈ coins.map Prod.fst, 0 ≤ s.amountAt o)
    (hc : ∀ e ∈ coins, 0 ≤ e.2.amount) :
    worth (s.insertAll coins) places ≤ s.worth places + total (coins.map Prod.snd) := by
  induction coins generalizing s with
  | nil => exact le_of_eq (add_zero _).symm
  | cons e rest ih =>
      have hmem : e.1 ∈ (e :: rest).map Prod.fst := List.mem_cons_self
      have hrest := ih (s := s.insert e.1 e.2) (fun o ho => hp o (List.mem_cons_of_mem _ ho))
        (fun o ho => by
          by_cases he : e.1 = o
          · rw [amountAt_of_some (by rw [find_insert, if_pos he])]
            exact hc e List.mem_cons_self
          · rw [amountAt_congr (t := s) (by rw [find_insert, if_neg he])]
            exact hs o (List.mem_cons_of_mem _ ho))
        fun e he => hc e (List.mem_cons_of_mem _ he)
      have hinsert := worth_insert (s := s) e.2 (hp e.1 hmem)
      have hold := hs e.1 hmem
      change worth (insertAll (s.insert e.1 e.2) rest) places ≤ _
      rw [List.map_cons, total_cons]
      omega

/-- Coins that are added at free places bring their worth. -/
theorem worth_insertAll {coins : PlacedCoins} (hp : ∀ o ∈ coins.map Prod.fst, o ∈ places)
    (hn : (coins.map Prod.fst).Nodup) (hs : ∀ o ∈ coins.map Prod.fst, s[o]? = none) :
    worth (s.insertAll coins) places = s.worth places + total (coins.map Prod.snd) := by
  induction coins generalizing s with
  | nil => exact (add_zero _).symm
  | cons e rest ih =>
      rw [List.map_cons, List.nodup_cons] at hn
      have hmem : e.1 ∈ (e :: rest).map Prod.fst := List.mem_cons_self
      have hfree : ∀ o ∈ rest.map Prod.fst, (s.insert e.1 e.2)[o]? = none := by
        intro o ho
        rw [find_insert, if_neg fun h : e.1 = o => hn.1 (h ▸ ho)]
        exact hs o (List.mem_cons_of_mem _ ho)
      have hrest := ih (s := s.insert e.1 e.2) (fun o ho => hp o (List.mem_cons_of_mem _ ho))
        hn.2 hfree
      have hinsert := worth_insert (s := s) e.2 (hp e.1 hmem)
      rw [amountAt_of_none (hs e.1 hmem)] at hinsert
      change worth (insertAll (s.insert e.1 e.2) rest) places = _
      rw [List.map_cons, total_cons]
      omega

end CoinSet

/-! ## Outputs -/

/-- A sum that did not leave its range is the sum. -/
theorem sumInt64From_eq_some {start sum : Int} {l : List Int}
    (h : sumInt64From start l = some sum) : sum = start + l.sum := by
  induction l generalizing start with
  | nil =>
      cases h
      exact (add_zero _).symm
  | cons n rest ih =>
      rw [sumInt64From] at h
      split at h
      · rw [ih h, List.sum_cons, add_assoc]
      · cases h

namespace Tx

theorem totalOut_eq_some {tx : Tx} {sum : Int} (h : tx.totalOut? = some sum) : sum = tx.paid := by
  rw [sumInt64From_eq_some h, zero_add, paid]

/-- No output has a negative amount. -/
def PaysAmounts (tx : Tx) : Prop :=
  ∀ o ∈ tx.outputs, 0 ≤ o.value.toInt

theorem PaysAmounts.paid_nonneg {tx : Tx} (h : tx.PaysAmounts) : 0 ≤ tx.paid := by
  refine List.sum_nonneg fun n hn => ?_
  obtain ⟨o, ho, rfl⟩ := List.mem_map.mp hn
  exact h o ho

/-- The coins that a transaction creates are outputs of it. -/
theorem PaysAmounts.amount_nonneg {tx : Tx} (h : tx.PaysAmounts) {height : Nat} {time : UInt32}
    {e : OutPoint × Coin} (he : e ∈ tx.createdCoins height time) : 0 ≤ e.2.amount := by
  obtain ⟨o, k, hm, _, rfl⟩ := mem_createdCoins.mp he
  exact h o (List.fst_mem_of_mem_zipIdx hm)

/-- A transaction creates no more than it pays; what nobody can spend is lost. -/
theorem PaysAmounts.total_created_le {tx : Tx} (h : tx.PaysAmounts) (height : Nat)
    (time : UInt32) : total ((tx.createdCoins height time).map Prod.snd) ≤ tx.paid := by
  have hle : ∀ l : List (TxOut × Nat), (∀ o ∈ l, 0 ≤ o.1.value.toInt) →
      total (((l.filter fun o => !o.1.script.isUnspendable).map fun o =>
        tx.coinOf height time o.1)) ≤ (l.map fun o => o.1.value.toInt).sum := by
    intro l hl
    induction l with
    | nil => exact le_refl _
    | cons o rest ih =>
        have hrest := ih fun o ho => hl o (List.mem_cons_of_mem _ ho)
        have hhead := hl o List.mem_cons_self
        rw [List.map_cons, List.sum_cons, List.filter_cons]
        cases o.1.script.isUnspendable with
        | true =>
            simp only [Bool.not_true, Bool.false_eq_true, if_false]
            omega
        | false =>
            simp only [Bool.not_false, if_true, List.map_cons, total_cons]
            change o.1.value.toInt + _ ≤ _
            omega
  have hsum := hle tx.outputs.zipIdx fun o ho => h o.1 (List.fst_mem_of_mem_zipIdx ho)
  have hpaid : (tx.outputs.zipIdx.map fun o => o.1.value.toInt).sum = tx.paid := by
    have hmap := List.map_map (f := Prod.fst) (g := fun o : TxOut => o.value.toInt)
      (l := tx.outputs.zipIdx)
    rw [List.zipIdx_map_fst] at hmap
    exact congrArg List.sum hmap.symm
  rw [createdCoins, List.map_map, ← hpaid]
  exact hsum

end Tx

end StakeChain
