/-
Connecting and disconnecting.

A block that is connected notes what it took away, and is disconnected with
that. Connecting tells the block's own coins as it goes through its
transactions; disconnecting tells them from the list of its places alone.
Where the ids of the transactions differ the two agree (`Spending.Own`), so
disconnecting is the way back, and the coins are those of the connected
blocks, whatever was connected and disconnected before.
-/
import StakeChain.Proofs.Engine

namespace StakeChain

/-! ## Places of a block -/

/-- A transaction creates coins at places of its outputs. -/
theorem Tx.mem_outputPlaces {tx : Tx} {height : Nat} {time : UInt32} {o : OutPoint}
    (ho : o ∈ tx.createdPlaces height time) : o ∈ tx.outputPlaces := by
  obtain ⟨e, he, rfl⟩ := List.mem_map.mp ho
  obtain ⟨output, k, hk, _, rfl⟩ := Tx.mem_createdCoins.mp he
  have hlt : k < tx.outputs.length := by
    simpa using (List.mem_zipIdx hk).2.1
  exact List.mem_map.mpr ⟨k, List.mem_range.mpr hlt, rfl⟩

namespace CoinSet

theorem mem_leftPlaces {b : Block} {height : Nat} {o : OutPoint} :
    o ∈ leftPlaces b height ↔
      o ∈ (b.createdCoins height).map Prod.fst ∧ o ∉ b.spentPlaces := by
  rw [leftPlaces, List.mem_filter, Bool.not_eq_true', Bool.eq_false_iff, ne_eq,
    Std.ExtTreeSet.contains_iff_mem, Std.ExtTreeSet.mem_ofList, List.contains_iff_mem]

theorem find_of_noneAt {set : CoinSet} {cancelled : List OutPoint → Bool}
    {places : List OutPoint}
    {p q : Progress}
    (h : noneAt (Validation.lookup (.holding set cancelled)) places p = .ok true q) :
    ∀ o ∈ places, set[o]? = none := by
  induction places generalizing p with
  | nil => exact fun _ ho => absurd ho List.not_mem_nil
  | cons a rest ih =>
      obtain ⟨found, r, hl, hr⟩ := Stateful.bind_eq_ok.mp h
      obtain ⟨rfl, rfl⟩ := Validation.lookup_eq_ok.mp hl
      change (if set[a]?.isSome then pure false else _ : Validation Bool) _ = _ at hr
      cases ha : set[a]? with
      | some coin =>
          rw [ha] at hr
          cases (Stateful.pure_eq_ok.mp hr).1
      | none =>
          rw [ha] at hr
          intro o ho
          rcases List.mem_cons.mp ho with rfl | ho
          · exact ha
          · exact ih hr o ho

end CoinSet

/-! ## What is left, told from the places of a block -/

namespace Spending

/-- Where the ids of the transactions differ: a place of the block has a coin exactly if a
transaction created it and none spent it, and nothing is spent before it is created. -/
structure Own (ids : Std.ExtTreeSet Hash256 compare) (c : Candidate) (done : List Tx)
    (s : Spending) : Prop where
  left : ∀ o : OutPoint, o.hash ∈ ids →
    ((∃ coin, s.available[o]? = some coin) ↔
      o ∈ done.flatMap (fun tx => tx.createdPlaces c.height c.header.time) ∧
      o ∉ done.flatMap Tx.spentPlaces)
  spent : ∀ o : OutPoint, o.hash ∈ ids → o ∈ done.flatMap Tx.spentPlaces →
    o ∈ done.flatMap fun tx => tx.createdPlaces c.height c.header.time

variable {ids : Std.ExtTreeSet Hash256 compare} {c : Candidate} {s t : Spending}

theorem hash_of_mem_created {done : List Tx} {o : OutPoint}
    (ho : o ∈ done.flatMap fun tx => tx.createdPlaces c.height c.header.time) :
    o.hash ∈ done.map Tx.id := by
  obtain ⟨tx, htx, ho⟩ := List.mem_flatMap.mp ho
  exact Tx.hash_of_mem_createdPlaces ho ▸ List.mem_map_of_mem htx

theorem own_start {loaded : CoinSet} (h : ∀ o : OutPoint, o.hash ∈ ids → loaded[o]? = none) :
    Own ids c [] (start loaded) where
  left o ho := by
    change (∃ coin, loaded[o]? = some coin) ↔ _
    rw [h o ho]
    constructor
    · rintro ⟨coin, hcoin⟩
      cases hcoin
    · exact fun h => absurd h.1 List.not_mem_nil
  spent _ _ h := absurd h List.not_mem_nil

/-- What a transaction takes under an id of the block was there. -/
theorem Own.mem_created {done : List Tx} {tx : Tx} {coins : List Coin} (hs : Own ids c done s)
    (h : Stepped c s tx coins t) {o : OutPoint} (hid : o.hash ∈ ids) (ho : o ∈ tx.spentPlaces) :
    o ∈ done.flatMap fun tx => tx.createdPlaces c.height c.header.time := by
  obtain ⟨coin, _, hcoin⟩ := List.mem_map.mp (h.found ▸ List.mem_map_of_mem ho)
  exact ((hs.left o hid).mp ⟨coin, hcoin.symm⟩).1

theorem Own.step {done : List Tx} {tx : Tx} {coins : List Coin} (hs : Own ids c done s)
    (h : Stepped c s tx coins t) (hnew : tx.id ∉ done.map Tx.id) :
    Own ids c (done ++ [tx]) t where
  left o hid := by
    simp only [List.flatMap_append, List.flatMap_singleton, List.mem_append, not_or]
    by_cases ho : o ∈ tx.createdPlaces c.height c.header.time
    · -- the coin is new, so nothing before can have spent it
      have hfresh : o ∉ done.flatMap fun tx => tx.createdPlaces c.height c.header.time := by
        intro hm
        refine hnew ?_
        rw [← Tx.hash_of_mem_createdPlaces ho]
        exact hash_of_mem_created hm
      obtain ⟨coin, _, hcoin⟩ := h.exists_find ho
      refine iff_of_true ⟨coin, hcoin⟩ ⟨.inr ho, ?_, ?_⟩
      · exact fun hm => hfresh (hs.spent o hid hm)
      · exact fun hm => hfresh (hs.mem_created h hid hm)
    · rw [h.find_of_notMem ho, or_iff_left ho]
      by_cases hp : o ∈ tx.spentPlaces
      · simp [hp]
      · simp only [hp, not_false_eq_true, and_true]
        exact hs.left o hid
  spent o hid ho := by
    rw [List.flatMap_append, List.mem_append, List.flatMap_singleton] at ho
    rw [List.flatMap_append, List.mem_append]
    exact .inl (ho.elim (hs.spent o hid) (hs.mem_created h hid))

end Spending

namespace Candidate

variable {c : Candidate} {set : CoinSet} {v : Validated} {loaded : CoinSet} {t : Spending}

theorem Found.own {s : Surroundings} (h : c.Found s v loaded t)
    (hids : (c.block.txs.map Tx.id).Nodup) :
    Spending.Own c.block.txIds c c.block.txs t := by
  refine Spending.steps_induction h.steps (Spending.own_start fun _ => h.none_loaded) ?_
  intro done rest tx coins s t hall hs hstep
  refine hs.step hstep fun hm => ?_
  rw [hall, List.map_append, List.map_cons, List.nodup_append'] at hids
  exact hids.2.2 hm List.mem_cons_self

/-- What the block leaves behind, told from its places, is what the validation found. -/
theorem Found.mem_leftPlaces {s : Surroundings} (h : c.Found s v loaded t)
    (hids : (c.block.txs.map Tx.id).Nodup) {o : OutPoint} :
    o ∈ CoinSet.leftPlaces c.block c.height ↔ o ∈ v.created.map Prod.fst := by
  have hown := h.own hids
  rw [CoinSet.mem_leftPlaces, Block.createdCoins_places, Block.spentPlaces_eq_flatMap]
  constructor
  · rintro ⟨hc, hs⟩
    have hid : o.hash ∈ c.block.txIds := Block.mem_txIds.mpr (Spending.hash_of_mem_created hc)
    obtain ⟨coin, hcoin⟩ := (hown.left o hid).mpr ⟨hc, hs⟩
    exact List.mem_map_of_mem (h.mem_created (e := (o, coin)) |>.mpr ⟨hid, hcoin⟩)
  · intro ho
    obtain ⟨e, he, rfl⟩ := List.mem_map.mp ho
    obtain ⟨hid, hcoin⟩ := h.mem_created.mp he
    exact (hown.left e.1 hid).mp ⟨e.2, hcoin⟩

/-! ## Blocks that may be connected -/

/-- A block that may be connected: the ids of its transactions differ, and there is no coin where
it creates one, unless the rules see to that. -/
def Admissible (c : Candidate) (set : CoinSet) : Prop :=
  (c.block.txs.map Tx.id).Nodup ∧
    (c.rules.bip30 = true ∨ ∀ o ∈ (c.block.createdCoins c.height).map Prod.fst, o ∉ set)

instance {c : Candidate} {set : CoinSet} : Decidable (c.Admissible set) :=
  inferInstanceAs (Decidable (_ ∧ _))

/-- A block that was found right creates coins at free places only. -/
theorem Found.free_created {cancelled : List OutPoint → Bool}
    (h : c.Found (.holding set cancelled) v loaded t) (ha : c.Admissible set) {o : OutPoint}
    (ho : o ∈ v.created.map Prod.fst) : set[o]? = none := by
  have hplace : o ∈ (c.block.createdCoins c.height).map Prod.fst :=
    (CoinSet.mem_leftPlaces.mp ((h.mem_leftPlaces ha.1).mpr ho)).1
  rcases ha.2 with hb | hfree
  · obtain ⟨_, _, hn⟩ := h.free hb
    refine CoinSet.find_of_noneAt hn o ?_
    rw [Block.createdCoins_places] at hplace
    obtain ⟨tx, htx, ho⟩ := List.mem_flatMap.mp hplace
    exact List.mem_flatMap_of_mem htx (Tx.mem_outputPlaces ho)
  · exact Std.ExtTreeMap.getElem?_eq_none (hfree o hplace)

/-! ## The way back -/

theorem undoes_of_found {s : Surroundings} (h : c.Found s v loaded t) :
    CoinSet.undoes c.block v.undo = true := by
  have hsize : (Std.ExtTreeSet.ofList (CoinSet.externalPlaces c.block) compare).size =
      (CoinSet.externalPlaces c.block).length := by
    refine Std.ExtTreeSet.size_ofList ?_
    rw [← h.spent_places]
    exact h.nodup_spent.imp fun hne heq => hne (Std.compare_eq_iff_eq.mp heq)
  change (_ && _) = true
  rw [h.spent_places, hsize, beq_self_eq_true, beq_self_eq_true]
  rfl

/-- A block that was just connected is disconnected, and the coins are as before. -/
theorem disconnect_of_commitCoins {cancelled : List OutPoint → Bool} {set' : CoinSet}
    (ha : c.Admissible set)
    (h : c.commitCoins (Surroundings.holding · cancelled) set = .ok v set') :
    set'.disconnect c.block c.height v.undo = .ok set := by
  obtain ⟨hv, rfl⟩ := commitCoins_eq_ok.mp h
  obtain ⟨loaded, t, hf⟩ := found_of_validateCoins hv
  have hplaces : ∀ o, o ∈ CoinSet.leftPlaces c.block c.height ↔ o ∈ v.created.map Prod.fst :=
    fun o => hf.mem_leftPlaces ha.1
  have hthere : (CoinSet.leftPlaces c.block c.height).all
      (fun o => (v.applyTo set).contains o) = true := by
    rw [List.all_eq_true]
    intro o ho
    obtain ⟨e, he, rfl⟩ := List.mem_map.mp ((hplaces o).mp ho)
    rw [CoinSet.contains_iff_find]
    exact ⟨e.2, CoinSet.find_insertAll_of_mem hf.nodup_created he⟩
  rw [CoinSet.disconnect, hthere, undoes_of_found hf]
  exact congrArg Except.ok <| CoinSet.change_change hf.nodup_spent
    (fun e he => hf.find_spent he) hplaces fun o ho => hf.free_created ha ho

end Candidate

/-! ## Moves -/

/-- A connected block: how it was judged, and what it took away. -/
structure Connection where
  candidate : Candidate
  cancelled : List OutPoint → Bool
  undo : Undo

/-- The coins, and the blocks that are connected, latest first. -/
structure Chainstate where
  coins : CoinSet
  connected : List Connection

/-- What may be asked for next. -/
inductive Move where
  | connect (c : Candidate) (cancelled : List OutPoint → Bool)
  | disconnect

/-- Why a move is not made. -/
inductive Refusal where
  | rejected (e : Rejection)
  | inadmissible
  | nothingConnected
  | undoFailed (e : ConsensusError)

namespace Chainstate

/-- Nothing connected yet. -/
def ofCoins (set : CoinSet) : Chainstate :=
  ⟨set, []⟩

/-- Connects a block after the others. -/
def connect (st : Chainstate) (c : Candidate) (cancelled : List OutPoint → Bool) :
    Except Refusal Chainstate :=
  if c.Admissible st.coins then
    match c.commitCoins (Surroundings.holding · cancelled) st.coins with
    | .ok v coins => .ok ⟨coins, ⟨c, cancelled, v.undo⟩ :: st.connected⟩
    | .error e _ => .error (.rejected e)
  else .error .inadmissible

/-- Disconnects the block that was connected last. -/
def disconnect (st : Chainstate) : Except Refusal Chainstate :=
  match st.connected with
  | [] => .error .nothingConnected
  | last :: rest =>
      match st.coins.disconnect last.candidate.block last.candidate.height last.undo with
      | .ok coins => .ok ⟨coins, rest⟩
      | .error e => .error (.undoFailed e)

/-- Makes one move. -/
def step (st : Chainstate) : Move → Except Refusal Chainstate
  | .connect c cancelled => st.connect c cancelled
  | .disconnect => st.disconnect

/-- Makes moves in order. -/
def run (st : Chainstate) : List Move → Except Refusal Chainstate
  | [] => .ok st
  | m :: rest => do
      let st ← st.step m
      st.run rest

/-- The moves that connect the blocks that are connected, in their order. -/
def history (st : Chainstate) : List Move :=
  st.connected.reverse.map fun b => .connect b.candidate b.cancelled

variable {set : CoinSet} {st st' : Chainstate}

theorem run_append {moves more : List Move} :
    st.run (moves ++ more) = st.run moves >>= fun st' => st'.run more := by
  induction moves generalizing st with
  | nil => rfl
  | cons m rest ih =>
      rw [List.cons_append, run, run]
      cases st.step m with
      | error e => rfl
      | ok st₁ => exact ih

theorem connect_eq_ok {c : Candidate} {cancelled : List OutPoint → Bool}
    (h : st.connect c cancelled = .ok st') :
    ∃ v, c.Admissible st.coins ∧
      c.commitCoins (Surroundings.holding · cancelled) st.coins = .ok v st'.coins ∧
      st'.connected = ⟨c, cancelled, v.undo⟩ :: st.connected := by
  rw [connect] at h
  by_cases ha : c.Admissible st.coins
  · rw [if_pos ha] at h
    cases hc : c.commitCoins (Surroundings.holding · cancelled) st.coins with
    | error e coins =>
        rw [hc] at h
        cases h
    | ok v coins =>
        rw [hc] at h
        cases h
        exact ⟨v, ha, rfl, rfl⟩
  · rw [if_neg ha] at h
    cases h

theorem history_of_connect {c : Candidate} {cancelled : List OutPoint → Bool}
    (h : st.connect c cancelled = .ok st') :
    st'.history = st.history ++ [.connect c cancelled] := by
  obtain ⟨v, _, _, hlinks⟩ := connect_eq_ok h
  rw [history, hlinks, List.reverse_cons, List.map_append]
  rfl

theorem history_of_disconnect (h : st.disconnect = .ok st') :
    st'.history = st.history.dropLast := by
  rw [disconnect] at h
  split at h
  · cases h
  · next last rest hlinks =>
      split at h
      · cases h
        rw [history, history, hlinks, List.reverse_cons, List.map_append]
        exact List.dropLast_concat.symm
      · cases h

/-- Connecting comes after what was connected, and disconnecting takes the last of it back. -/
def kept (before : List Move) : Move → List Move
  | .connect c cancelled => before ++ [.connect c cancelled]
  | .disconnect => before.dropLast

/-- The moves alone tell which blocks are connected in the end. -/
theorem history_of_run {moves : List Move} (h : st.run moves = .ok st') :
    st'.history = moves.foldl kept st.history := by
  induction moves generalizing st with
  | nil =>
      cases h
      rfl
  | cons m rest ih =>
      obtain ⟨st₁, hm, hr⟩ := Verdict.bind_eq_ok.mp h
      have hkept : st₁.history = kept st.history m := by
        cases m with
        | connect c cancelled => exact history_of_connect hm
        | disconnect => exact history_of_disconnect hm
      rw [ih hr, hkept]
      rfl

theorem connect_ne_undoFailed {c : Candidate} {cancelled : List OutPoint → Bool}
    {e : ConsensusError} : st.connect c cancelled ≠ .error (.undoFailed e) := by
  rw [connect]
  split
  · split
    · exact nofun
    · exact nofun
  · exact nofun

/-- States that are reached by connecting alone. -/
inductive Stacked (set : CoinSet) : Chainstate → Prop where
  | start : Stacked set (ofCoins set)
  | connect {st st' : Chainstate} {c : Candidate} {cancelled : List OutPoint → Bool} :
      Stacked set st → st.connect c cancelled = .ok st' → Stacked set st'

/-- The last block of such a state is disconnected, to the state before it. -/
theorem Stacked.disconnect (h : Stacked set st) :
    st.disconnect = .error .nothingConnected ∨
      ∃ st', st.disconnect = .ok st' ∧ Stacked set st' := by
  cases h with
  | start => exact .inl rfl
  | connect hst hconnect =>
      rename_i before c cancelled
      obtain ⟨v, ha, hcommit, hlinks⟩ := connect_eq_ok hconnect
      refine .inr ⟨before, ?_, hst⟩
      rw [Chainstate.disconnect, hlinks]
      dsimp only
      rw [Candidate.disconnect_of_commitCoins ha hcommit]

theorem Stacked.step {m : Move} (h : Stacked set st) (hm : st.step m = .ok st') :
    Stacked set st' := by
  cases m with
  | connect c cancelled => exact .connect h hm
  | disconnect =>
      change st.disconnect = .ok st' at hm
      rcases h.disconnect with hd | ⟨st₁, hd, h₁⟩
      · rw [hd] at hm
        cases hm
      · rw [hd] at hm
        cases hm
        exact h₁

theorem Stacked.step_ne_undoFailed {m : Move} {e : ConsensusError} (h : Stacked set st) :
    st.step m ≠ .error (.undoFailed e) := by
  cases m with
  | connect c cancelled => exact connect_ne_undoFailed
  | disconnect =>
      change st.disconnect ≠ _
      rcases h.disconnect with hd | ⟨st₁, hd, _⟩
      · rw [hd]
        exact nofun
      · rw [hd]
        exact nofun

theorem Stacked.run {moves : List Move} (h : Stacked set st) (hr : st.run moves = .ok st') :
    Stacked set st' := by
  induction moves generalizing st with
  | nil =>
      cases hr
      exact h
  | cons m rest ih =>
      obtain ⟨st₁, hm, hr⟩ := Verdict.bind_eq_ok.mp hr
      exact ih (h.step hm) hr

theorem Stacked.run_ne_undoFailed {moves : List Move} {e : ConsensusError}
    (h : Stacked set st) : st.run moves ≠ .error (.undoFailed e) := by
  induction moves generalizing st with
  | nil => exact nofun
  | cons m rest ih =>
      intro hr
      rcases Verdict.bind_eq_error.mp hr with hm | ⟨st₁, hm, hr⟩
      · exact h.step_ne_undoFailed hm
      · exact ih (h.step hm) hr

/-- Connecting its blocks alone leads to such a state. -/
theorem Stacked.run_history (h : Stacked set st) : (ofCoins set).run st.history = .ok st := by
  induction h with
  | start => rfl
  | connect hst hconnect ih =>
      rw [history_of_connect hconnect, run_append, ih]
      change (Chainstate.step _ _ >>= fun st' => st'.run []) = _
      change (Chainstate.connect _ _ _ >>= _) = _
      rw [hconnect]
      rfl

/-- The coins depend on the blocks that are connected, and not on what was connected and
disconnected before. However blocks are connected and disconnected, no disconnecting fails, and the
state is the one that is reached by connecting the blocks alone that are connected in the end. A
block that was just connected is disconnected to the very coins before it. -/
theorem state_of_connected (set : CoinSet) (moves : List Move) :
    (∀ e, (ofCoins set).run moves ≠ .error (.undoFailed e)) ∧
    (∀ st, (ofCoins set).run moves = .ok st → (ofCoins set).run st.history = .ok st) ∧
    (∀ (c : Candidate) (cancelled : List OutPoint → Bool) (v : Validated) (set' : CoinSet),
      c.Admissible set → c.commitCoins (Surroundings.holding · cancelled) set = .ok v set' →
      set'.disconnect c.block c.height v.undo = .ok set) := by
  refine ⟨fun e => ?_, fun st h => ?_, fun c cancelled v set' ha h => ?_⟩
  · exact Stacked.start.run_ne_undoFailed
  · exact (Stacked.start.run h).run_history
  · exact Candidate.disconnect_of_commitCoins ha h

end Chainstate

namespace Sample

/-- A block with a coinbase of its own, and payments. -/
def numbered (n : UInt8) (payments : List Tx) : Candidate :=
  first .regtest
    { header := ⟨4, Digest.zero, Digest.zero, 1600000000, 0x207fffff, 0⟩
      txs :=
        ⟨1, [⟨OutPoint.null, ⟨[0, n]⟩, sequenceFinal, []⟩], [⟨5000000000, anyone⟩], 0⟩ :: payments
      signature := [] }

/-- Connects that block, and nobody interrupts. -/
def connectNumbered (n : UInt8) (payments : List Tx) : Move :=
  .connect (numbered n payments) fun _ => false

end Sample

/-- Two blocks spend the same coin. The second one can be connected after the first one was
disconnected, and the state is that of a chain that never had the first one. -/
theorem Chainstate.state_of_connected_competing :
    let opening : Move := Sample.connectNumbered 0 []
    let early : Move := Sample.connectNumbered 1 [Sample.spend Sample.place 4]
    let late : Move := Sample.connectNumbered 2 [Sample.spend Sample.place 3]
    ∃ st, (ofCoins Sample.coins).run [opening, early, .disconnect, late] = .ok st ∧
      (ofCoins Sample.coins).run [opening, late] = .ok st := by
  intro opening early late
  obtain ⟨st, hrun⟩ : ∃ st,
      (ofCoins Sample.coins).run [opening, early, .disconnect, late] = .ok st :=
    Verdict.exists_ok_of_isSome (by decide +kernel)
  have hhistory : st.history = [opening, late] := history_of_run hrun
  obtain ⟨-, hstate, -⟩ :=
    state_of_connected Sample.coins [opening, early, .disconnect, late]
  have hsame := hstate st hrun
  rw [hhistory] at hsame
  exact ⟨st, hrun, hsame⟩

end StakeChain
