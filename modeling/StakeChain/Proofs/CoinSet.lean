/-
Coin sets by look-up.

A coin set is known by what it answers at every place. The lemmas say how
that answer changes when coins are taken away or added, one by one or many
at once. Of several coins added for one place the last one counts, so the
lemma on added coins asks for distinct places.
-/
import Mathlib.Data.List.Basic
import StakeChain.CoinSet

namespace StakeChain

namespace CoinSet

variable {set : CoinSet} {o : OutPoint}

/-- Two sets with the same answers are the same set. -/
theorem ext_find {s t : CoinSet} (h : ∀ o : OutPoint, s[o]? = t[o]?) : s = t :=
  Std.ExtTreeMap.ext_getElem? h

theorem find_insert {p : OutPoint} {coin : Coin} :
    (set.insert p coin)[o]? = if p = o then some coin else set[o]? := by
  simp only [Std.ExtTreeMap.getElem?_insert, Std.compare_eq_iff_eq]

theorem find_erase {p : OutPoint} :
    (set.erase p)[o]? = if p = o then none else set[o]? := by
  simp only [Std.ExtTreeMap.getElem?_erase, Std.compare_eq_iff_eq]

/-- Other places do not notice that a coin is taken away. -/
theorem map_find_erase {p : OutPoint} {places : List OutPoint} (h : p ∉ places) :
    places.map ((set.erase p)[·]?) = places.map (set[·]?) := by
  refine List.map_congr_left fun o ho => ?_
  rw [find_erase, if_neg fun hp : p = o => h (hp ▸ ho)]

theorem find_empty : (∅ : CoinSet)[o]? = none :=
  Std.ExtTreeMap.getElem?_empty

theorem contains_iff_find : set.contains o = true ↔ ∃ coin, set[o]? = some coin := by
  rw [Std.ExtTreeMap.contains_eq_isSome_getElem?, Option.isSome_iff_exists]

/-! ## Many coins -/

theorem find_eraseAll {places : List OutPoint} :
    (set.eraseAll places)[o]? = if o ∈ places then none else set[o]? := by
  induction places generalizing set with
  | nil => simp [eraseAll]
  | cons p rest ih =>
      change (eraseAll (set.erase p) rest)[o]? = _
      rw [ih, find_erase]
      by_cases hr : o ∈ rest
      · simp [hr]
      · by_cases hp : p = o
        · simp [hr, hp]
        · simp [hr, hp, Ne.symm hp]

theorem find_insertAll_of_notMem {coins : PlacedCoins} (h : o ∉ coins.map Prod.fst) :
    (set.insertAll coins)[o]? = set[o]? := by
  induction coins generalizing set with
  | nil => rfl
  | cons e rest ih =>
      rw [List.map_cons, List.mem_cons, not_or] at h
      change (insertAll (set.insert e.1 e.2) rest)[o]? = _
      rw [ih h.2, find_insert, if_neg (Ne.symm h.1)]

theorem find_insertAll_of_mem {coins : PlacedCoins} {coin : Coin}
    (hd : (coins.map Prod.fst).Nodup) (h : (o, coin) ∈ coins) :
    (set.insertAll coins)[o]? = some coin := by
  induction coins generalizing set with
  | nil => cases h
  | cons e rest ih =>
      rw [List.map_cons, List.nodup_cons] at hd
      change (insertAll (set.insert e.1 e.2) rest)[o]? = _
      rcases List.mem_cons.mp h with rfl | hr
      · rw [find_insertAll_of_notMem hd.1, find_insert, if_pos rfl]
      · exact ih hd.2 hr

/-- What is found at the place of an added coin does not depend on the set it was added to. -/
theorem find_insertAll_congr {s t : CoinSet} {coins : PlacedCoins}
    (h : o ∈ coins.map Prod.fst ∨ s[o]? = t[o]?) :
    (s.insertAll coins)[o]? = (t.insertAll coins)[o]? := by
  induction coins generalizing s t with
  | nil => exact h.resolve_left List.not_mem_nil
  | cons e rest ih =>
      change (insertAll (s.insert e.1 e.2) rest)[o]? = (insertAll (t.insert e.1 e.2) rest)[o]?
      refine ih ?_
      rw [find_insert, find_insert]
      by_cases he : e.1 = o
      · exact .inr (by rw [if_pos he, if_pos he])
      · rw [if_neg he, if_neg he]
        rw [List.map_cons, List.mem_cons] at h
        exact h.imp_left fun h => h.resolve_left (Ne.symm he)

theorem exists_find_insertAll {coins : PlacedCoins} (h : o ∈ coins.map Prod.fst) :
    ∃ coin, (o, coin) ∈ coins ∧ (set.insertAll coins)[o]? = some coin := by
  induction coins generalizing set with
  | nil => cases h
  | cons e rest ih =>
      change ∃ coin, _ ∧ (insertAll (set.insert e.1 e.2) rest)[o]? = _
      by_cases hr : o ∈ rest.map Prod.fst
      · obtain ⟨coin, hm, hc⟩ := ih hr
        exact ⟨coin, List.mem_cons_of_mem _ hm, hc⟩
      · have he : o = e.1 := (List.mem_cons.mp h).resolve_right hr
        refine ⟨e.2, by simp [he], ?_⟩
        rw [find_insertAll_of_notMem hr, find_insert, if_pos he.symm]

theorem find_change_of_notMem {places : List OutPoint} {coins : PlacedCoins}
    (h : o ∉ coins.map Prod.fst) :
    (set.change places coins)[o]? = if o ∈ places then none else set[o]? := by
  rw [change, find_insertAll_of_notMem h, find_eraseAll]

/-- A change has the same effect at a place on two sets that agree there. -/
theorem find_change_congr {s t : CoinSet} {places : List OutPoint} {coins : PlacedCoins}
    (h : s[o]? = t[o]?) : (s.change places coins)[o]? = (t.change places coins)[o]? :=
  find_insertAll_congr (.inr (by rw [find_eraseAll, find_eraseAll, h]))

/-- A change is undone by the opposite one: what was taken was there, and what was added was
not. -/
theorem change_change {spent created : PlacedCoins} {places : List OutPoint}
    (hs : (spent.map Prod.fst).Nodup)
    (hfound : ∀ e ∈ spent, set[e.1]? = some e.2)
    (hplaces : ∀ o, o ∈ places ↔ o ∈ created.map Prod.fst)
    (hnew : ∀ o ∈ created.map Prod.fst, set[o]? = none) :
    (set.change (spent.map Prod.fst) created).change places spent = set := by
  apply ext_find
  intro o
  by_cases ho : o ∈ spent.map Prod.fst
  · obtain ⟨⟨o, coin⟩, he, rfl⟩ := List.mem_map.mp ho
    rw [change, find_insertAll_of_mem hs he, hfound _ he]
  · rw [find_change_of_notMem ho]
    by_cases hp : o ∈ places
    · rw [if_pos hp, hnew o ((hplaces o).mp hp)]
    · rw [if_neg hp, find_change_of_notMem (mt (hplaces o).mpr hp), if_neg ho]

end CoinSet

/-! ## Places -/

namespace CoinSet.Places

variable {set : CoinSet.Places} {o p : OutPoint}

theorem mem_insert_iff : o ∈ set.insert p ↔ p = o ∨ o ∈ set := by
  rw [Std.ExtTreeSet.mem_insert, Std.compare_eq_iff_eq]

theorem mem_erase_iff : o ∈ set.erase p ↔ p ≠ o ∧ o ∈ set := by
  rw [Std.ExtTreeSet.mem_erase, ne_eq, Std.compare_eq_iff_eq]

end CoinSet.Places

end StakeChain
