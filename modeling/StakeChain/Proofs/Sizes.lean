/-
How the size of a block bounds what is in it.

A block is looked at as bytes before its scripts are counted, and a byte of a
script holds at most one operation. So a bound on the bytes bounds the counts
of signature operations, which are kept in words too narrow for scripts of any
length: a script of `2 ^ 27` bytes has counts that fit 32 bits, one of twice the
size need not.
-/
import Mathlib.Algebra.BigOperators.Ring.List
import Mathlib.Algebra.Order.BigOperators.Group.List
import StakeChain.Block.Check
import StakeChain.Proofs.Operations
import StakeChain.Proofs.ScriptCuts

namespace StakeChain

open Codec (Context)

/-! ## Parts of an encoding -/

namespace Codec

theorem length_varInt_pos (n : Nat) : 1 ≤ (varInt n).length := by
  rw [length_varInt, varIntLength]
  split_ifs <;> decide

theorem length_writeList {α : Type} [Wire α] (f : Format) (items : List α) :
    (writeList f items).length =
      (varInt items.length).length + (items.map fun a => (write f a).length).sum := by
  rw [writeList, List.length_append, List.length_flatMap]

end Codec

theorem Script.length_write (f : Codec.Format) (s : Script) :
    (Codec.write f s).length = (Codec.varInt s.size).length + s.size := by
  change (Codec.varBytes s.bytes).length = _
  rw [Codec.varBytes, List.length_append]
  rfl

/-! ## Transactions -/

namespace TxIn

theorem size_le_length_write (f : Codec.Format) (i : TxIn) :
    i.scriptSig.size + 1 ≤ (Codec.write f i).length := by
  change _ ≤ (Codec.write f i.prevout ++ Codec.write f i.scriptSig ++
    Codec.write f i.sequence).length
  rw [List.length_append, List.length_append, Script.length_write]
  have := Codec.length_varInt_pos i.scriptSig.size
  omega

/-- The bytes of the items of a witness, and one for the length of each. -/
def witnessSize (i : TxIn) : Nat :=
  (i.witness.map fun item => item.length + 1).sum

theorem witnessSize_le_length (i : TxIn) : i.witnessSize ≤ (Tx.writeWitness i.witness).length := by
  rw [witnessSize, Tx.writeWitness, List.length_append, List.length_flatMap]
  refine (List.sum_le_sum fun item _ => ?_).trans (Nat.le_add_left ..)
  rw [Codec.varBytes, List.length_append]
  have := Codec.length_varInt_pos item.length
  omega

theorem length_witness_le (i : TxIn) : i.witness.length ≤ i.witnessSize := by
  have hone : ∀ n ∈ i.witness.map fun item => item.length + 1, 1 ≤ n := by
    intro n hn
    obtain ⟨item, _, rfl⟩ := List.mem_map.mp hn
    exact Nat.le_add_left ..
  exact (List.length_map _).symm.trans_le (List.length_le_sum_of_one_le _ hone)

theorem length_le_witnessSize {i : TxIn} {item : Bytes} (h : item ∈ i.witness) :
    item.length ≤ i.witnessSize :=
  (Nat.le_succ _).trans (List.le_sum_of_mem (List.mem_map_of_mem h))

end TxIn

theorem TxOut.size_le_length_write (f : Codec.Format) (o : TxOut) :
    o.script.size ≤ (Codec.write f o).length := by
  change _ ≤ (Codec.write f o.value ++ Codec.write f o.script).length
  rw [List.length_append, Script.length_write]
  omega

namespace Tx

/-- The witnesses as they are sent after the outputs. -/
def witnessBytes (tx : Tx) : Bytes :=
  tx.inputs.flatMap fun i => writeWitness i.witness

theorem baseSize_eq (tx : Tx) :
    tx.baseSize = 8 + (Codec.writeList Context.network.format tx.inputs).length +
      (Codec.writeList Context.network.format tx.outputs).length := by
  change (Codec.write Context.network.format tx.version ++ [] ++
    Codec.writeList Context.network.format tx.inputs ++
    Codec.writeList Context.network.format tx.outputs ++ [] ++
    Codec.write Context.network.format tx.lockTime).length = _
  have hversion : (Codec.write Context.network.format tx.version).length = 4 :=
    Bytes.length_ofNat _ _ _
  have hlockTime : (Codec.write Context.network.format tx.lockTime).length = 4 :=
    Bytes.length_ofNat _ _ _
  simp only [List.length_append, List.length_nil, hversion, hlockTime]
  omega

/-- With its witnesses a transaction is longer by them and by the two bytes that announce them. -/
theorem totalSize_eq (tx : Tx) :
    tx.totalSize = tx.baseSize + if tx.hasWitness then 2 + tx.witnessBytes.length else 0 := by
  rw [baseSize_eq]
  change (Tx.write Context.network.format tx).length = _
  have hversion : (Codec.write Context.network.format tx.version).length = 4 :=
    Bytes.length_ofNat _ _ _
  have hlockTime : (Codec.write Context.network.format tx.lockTime).length = 4 :=
    Bytes.length_ofNat _ _ _
  have hcontext : (Context.network.format.context.witness && tx.hasWitness) = tx.hasWitness := rfl
  simp only [Tx.write, hcontext, List.length_append, hversion, hlockTime]
  cases tx.hasWitness with
  | true =>
      simp only [if_true, List.length_cons, List.length_nil]
      rw [witnessBytes]
      omega
  | false =>
      simp only [Bool.false_eq_true, if_false, List.length_nil]
      omega

theorem witnessSize_eq_zero {tx : Tx} (h : tx.hasWitness = false) :
    (tx.inputs.map TxIn.witnessSize).sum = 0 := by
  refine List.sum_eq_zero fun n hn => ?_
  obtain ⟨i, hi, rfl⟩ := List.mem_map.mp hn
  rw [hasWitness, List.any_eq_false] at h
  have hnil : i.witness = [] := by simpa using h i hi
  rw [TxIn.witnessSize, hnil]
  rfl

/-- What a transaction takes with its witnesses is no less than what it takes without them and what
they hold. -/
theorem add_witnessSize_le (tx : Tx) :
    tx.baseSize + (tx.inputs.map TxIn.witnessSize).sum ≤ tx.totalSize := by
  rw [totalSize_eq]
  cases h : tx.hasWitness with
  | true =>
      have hsum : (tx.inputs.map TxIn.witnessSize).sum ≤ tx.witnessBytes.length := by
        rw [witnessBytes, List.length_flatMap]
        exact List.sum_le_sum fun i _ => i.witnessSize_le_length
      rw [if_pos rfl]
      omega
  | false => rw [witnessSize_eq_zero h, if_neg Bool.false_ne_true]

theorem baseSize_le_totalSize (tx : Tx) : tx.baseSize ≤ tx.totalSize :=
  (Nat.le_add_right ..).trans tx.add_witnessSize_le

/-- A transaction takes no less than its scripts, and one byte more for each input. -/
theorem scripts_le_baseSize (tx : Tx) :
    (tx.inputs.map fun i => i.scriptSig.size + 1).sum + (tx.outputs.map fun o => o.script.size).sum
      < tx.baseSize := by
  have hin : (tx.inputs.map fun i => i.scriptSig.size + 1).sum ≤
      (tx.inputs.map fun i => (Codec.write Context.network.format i).length).sum :=
    List.sum_le_sum fun i _ => i.size_le_length_write _
  have hout : (tx.outputs.map fun o => o.script.size).sum ≤
      (tx.outputs.map fun o => (Codec.write Context.network.format o).length).sum :=
    List.sum_le_sum fun o _ => o.size_le_length_write _
  rw [baseSize_eq, Codec.length_writeList, Codec.length_writeList]
  omega

end Tx

/-! ## Blocks -/

namespace Block

variable {b : Block} {tx : Tx}

theorem baseSize_eq (b : Block) :
    b.baseSize = (Codec.write Context.network.format b.header).length +
      (Codec.varInt b.txs.length).length + (b.txs.map Tx.baseSize).sum := by
  change (Codec.write Context.network.format b.header ++
    Codec.writeList Context.network.withoutWitness.format b.txs ++ []).length = _
  rw [List.length_append, List.length_append, Codec.length_writeList]
  exact (Nat.add_assoc ..).symm

theorem totalSize_eq (b : Block) :
    b.totalSize = (Codec.write Context.network.format b.header).length +
      (Codec.varInt b.txs.length).length + (b.txs.map Tx.totalSize).sum := by
  change (Codec.write Context.network.format b.header ++
    Codec.writeList Context.network.format b.txs ++ []).length = _
  rw [List.length_append, List.length_append, Codec.length_writeList]
  exact (Nat.add_assoc ..).symm

theorem baseSize_le_totalSize (b : Block) : b.baseSize ≤ b.totalSize := by
  have hsum : (b.txs.map Tx.baseSize).sum ≤ (b.txs.map Tx.totalSize).sum :=
    List.sum_le_sum fun tx _ => tx.baseSize_le_totalSize
  rw [baseSize_eq, totalSize_eq]
  omega

theorem sum_baseSize_le (b : Block) : (b.txs.map Tx.baseSize).sum ≤ b.baseSize := by
  rw [baseSize_eq]
  exact Nat.le_add_left ..

theorem sum_totalSize_le (b : Block) : (b.txs.map Tx.totalSize).sum ≤ b.totalSize := by
  rw [totalSize_eq]
  exact Nat.le_add_left ..

theorem baseSize_le_of_mem (h : tx ∈ b.txs) : tx.baseSize ≤ b.baseSize :=
  (List.le_sum_of_mem (List.mem_map_of_mem h)).trans b.sum_baseSize_le

theorem totalSize_le_of_mem (h : tx ∈ b.txs) : tx.totalSize ≤ b.totalSize :=
  (List.le_sum_of_mem (List.mem_map_of_mem h)).trans b.sum_totalSize_le

theorem length_txs_le (b : Block) : b.txs.length ≤ b.baseSize := by
  have hone : ∀ n ∈ b.txs.map Tx.baseSize, 1 ≤ n := by
    intro n hn
    obtain ⟨tx, _, rfl⟩ := List.mem_map.mp hn
    exact Nat.one_le_of_lt tx.scripts_le_baseSize
  have hlength := List.length_le_sum_of_one_le _ hone
  rw [List.length_map] at hlength
  exact hlength.trans b.sum_baseSize_le

end Block

/-! ## Signature operations -/

theorem Op.width_add_length {op : Op} {bs rest : Bytes} (h : Op.decode bs = some (op, rest))
    (hvalid : op.isValid) : op.width + rest.length = bs.length := by
  rw [← Op.append_of_decode h hvalid, List.length_append, op.length_encode]

namespace Script

theorem opSigCount_le (accurate : Bool) (previous opcode : UInt8) :
    opSigCount accurate previous opcode ≤ maxKeysPerMultisig := by
  rw [opSigCount]
  split
  · decide
  · split
    · split
      · next h =>
          obtain ⟨n, -, hle, hn, -⟩ := exists_smallInt h.2.1 h.2.2
          rw [hn]
          exact hle.trans (by decide)
      · exact Nat.le_refl _
    · exact Nat.zero_le _

theorem sigOpsFrom_le (accurate : Bool) (fuel : Nat) (previous : UInt8) (bs : Bytes) :
    sigOpsFrom accurate previous 0 (opsWithin fuel bs) ≤ maxKeysPerMultisig * bs.length := by
  induction fuel generalizing previous bs with
  | zero => exact Nat.zero_le _
  | succ fuel ih =>
      rw [opsWithin]
      cases hbs : Op.decode bs with
      | none => exact Nat.zero_le _
      | some next =>
          obtain ⟨op, rest⟩ := next
          by_cases hop : op.isValid
          · have hlength := Op.width_add_length hbs hop
            have hpos := op.width_pos
            calc
              sigOpsFrom accurate previous 0 (op :: opsWithin fuel rest)
                  = opSigCount accurate previous op.opcode +
                      sigOpsFrom accurate op.opcode 0 (opsWithin fuel rest) :=
                sigOpsFrom_cons hop ..
              _ ≤ maxKeysPerMultisig + maxKeysPerMultisig * rest.length :=
                Nat.add_le_add (opSigCount_le ..) (ih ..)
              _ = maxKeysPerMultisig * (rest.length + 1) := by
                rw [Nat.mul_succ, Nat.add_comm]
              _ ≤ maxKeysPerMultisig * bs.length := Nat.mul_le_mul_left _ (by omega)
          · cases op with
            | invalid opcode => exact Nat.zero_le _
            | push opcode data => exact absurd rfl hop
            | code opcode => exact absurd rfl hop

/-- A script has no more signature operations than its bytes allow. -/
theorem sigOpCount_le (s : Script) (accurate : Bool) :
    s.sigOpCount accurate ≤ maxKeysPerMultisig * s.size := by
  rw [sigOpCount, ops_eq]
  exact sigOpsFrom_le ..

theorem length_le_of_lastPushFrom {n fuel : Nat} {last : Option Bytes} {bs data : Bytes}
    (hlast : ∀ d, last = some d → d.length ≤ n) (hbs : bs.length ≤ n)
    (h : lastPushFrom last (opsWithin fuel bs) = some data) : data.length ≤ n := by
  have hnone : ∀ d, (none : Option Bytes) = some d → d.length ≤ n := nofun
  induction fuel generalizing last bs with
  | zero => exact hlast data h
  | succ fuel ih =>
      rw [opsWithin] at h
      cases hdecode : Op.decode bs with
      | none =>
          rw [hdecode] at h
          exact hlast data h
      | some next =>
          obtain ⟨op, rest⟩ := next
          rw [hdecode] at h
          cases op with
          | push opcode pushed =>
              have hlength := Op.width_add_length hdecode rfl
              rw [Op.width] at hlength
              refine ih (fun d hd => ?_) (by omega) h
              cases hd
              omega
          | code opcode =>
              have hlength := Op.width_add_length hdecode rfl
              dsimp only [lastPushFrom] at h
              split at h
              · exact ih hnone (by omega) h
              · cases h
          | invalid opcode => cases h

/-- The data of the last push is found in the script. -/
theorem length_le_of_lastPush? {s : Script} {data : Bytes} (h : s.lastPush? = some data) :
    data.length ≤ s.size := by
  rw [lastPush?, ops_eq] at h
  have hnone : ∀ d, (none : Option Bytes) = some d → d.length ≤ s.size := nofun
  exact length_le_of_lastPushFrom hnone (Nat.le_refl _) h

theorem p2shSigOpCount_le {s scriptSig : Script} (h : s.isScriptHash) :
    s.p2shSigOpCount scriptSig ≤ maxKeysPerMultisig * scriptSig.size := by
  rw [p2shSigOpCount, if_pos h]
  cases hpush : scriptSig.lastPush? with
  | none => exact Nat.zero_le _
  | some redeem =>
      refine (sigOpCount_le ⟨redeem⟩ true).trans (Nat.mul_le_mul_left _ ?_)
      exact length_le_of_lastPush? hpush

end Script

theorem witnessProgramSigOps_le (version : Nat) (program : Bytes) (i : TxIn) :
    witnessProgramSigOps version program i.witness ≤ maxKeysPerMultisig * i.witnessSize + 1 := by
  rw [witnessProgramSigOps]
  split
  · exact Nat.zero_le _
  · split
    · exact Nat.le_add_left ..
    · split
      · cases hlast : i.witness.getLast? with
        | none => exact Nat.zero_le _
        | some script =>
            have hmem := List.mem_of_getLast? hlast
            refine ((Script.sigOpCount_le ⟨script⟩ true).trans ?_).trans (Nat.le_succ _)
            exact Nat.mul_le_mul_left _ (TxIn.length_le_witnessSize hmem)
      · exact Nat.zero_le _

theorem witnessSigOps_le (locking : Script) (i : TxIn) (flags : Flags) :
    witnessSigOps i.scriptSig locking i.witness flags ≤
      maxKeysPerMultisig * i.witnessSize + 1 := by
  rw [witnessSigOps]
  split
  · split
    · exact witnessProgramSigOps_le ..
    · exact Nat.zero_le _
  · exact Nat.zero_le _

/-- A sum over pairs is no more than one over their first members that bounds it. -/
theorem sum_zip_le {α β : Type} {l : List α} {l' : List β} {f : α × β → Nat} {bound : α → Nat}
    (h : ∀ a b, f (a, b) ≤ bound a) : ((l.zip l').map f).sum ≤ (l.map bound).sum := by
  induction l generalizing l' with
  | nil => exact Nat.le_refl _
  | cons a rest ih =>
      cases l' with
      | nil => exact Nat.zero_le _
      | cons b others =>
          rw [List.zip_cons_cons, List.map_cons, List.sum_cons, List.map_cons, List.sum_cons]
          exact Nat.add_le_add (h a b) ih

namespace Tx

theorem legacySigOps_le (tx : Tx) : tx.legacySigOps ≤ maxKeysPerMultisig * tx.baseSize := by
  have hin : (tx.inputs.map fun i => i.scriptSig.sigOpCount false).sum ≤
      maxKeysPerMultisig * (tx.inputs.map fun i => i.scriptSig.size + 1).sum := by
    rw [← List.sum_map_mul_left]
    refine List.sum_le_sum fun i _ => (i.scriptSig.sigOpCount_le false).trans ?_
    exact Nat.mul_le_mul_left _ (Nat.le_succ _)
  have hout : (tx.outputs.map fun o => o.script.sigOpCount false).sum ≤
      maxKeysPerMultisig * (tx.outputs.map fun o => o.script.size).sum := by
    rw [← List.sum_map_mul_left]
    exact List.sum_le_sum fun o _ => o.script.sigOpCount_le false
  refine (Nat.add_le_add hin hout).trans ?_
  rw [← Nat.mul_add]
  exact Nat.mul_le_mul_left _ (Nat.le_of_lt tx.scripts_le_baseSize)

theorem p2shSigOps_le (tx : Tx) (coins : List Coin) :
    tx.p2shSigOps coins ≤ maxKeysPerMultisig * tx.baseSize := by
  rw [p2shSigOps]
  split
  · exact Nat.zero_le _
  · have hbound : (tx.inputs.map fun i => maxKeysPerMultisig * (i.scriptSig.size + 1)).sum ≤
        maxKeysPerMultisig * tx.baseSize := by
      have hscripts := tx.scripts_le_baseSize
      rw [List.sum_map_mul_left]
      exact Nat.mul_le_mul_left _ (by omega)
    refine le_trans (sum_zip_le fun i coin => ?_) hbound
    dsimp only
    split
    · next h =>
        exact (Script.p2shSigOpCount_le h).trans (Nat.mul_le_mul_left _ (Nat.le_succ _))
    · exact Nat.zero_le _

theorem witnessSigOps_le (tx : Tx) (coins : List Coin) (flags : Flags) :
    (tx.witnessSigOpsList coins flags).sum ≤ maxKeysPerMultisig * tx.totalSize := by
  have hsum : (tx.witnessSigOpsList coins flags).sum ≤
      (tx.inputs.map fun i => maxKeysPerMultisig * (i.witnessSize + (i.scriptSig.size + 1))).sum := by
    refine sum_zip_le fun i coin => (StakeChain.witnessSigOps_le _ i flags).trans ?_
    rw [maxKeysPerMultisig]
    omega
  rw [List.sum_map_mul_left, List.sum_map_add] at hsum
  have hscripts := tx.scripts_le_baseSize
  have htotal := tx.add_witnessSize_le
  exact hsum.trans (Nat.mul_le_mul_left _ (by omega))

/-- Every byte is counted at most three times: as one of a script that is sent, of one behind a
script hash, and of one in a witness. The first two cost four times as much. -/
theorem sigOpCost_le (tx : Tx) (coins : List Coin) (flags : Flags) :
    tx.sigOpCost coins flags ≤ 180 * tx.totalSize := by
  have hbase := tx.baseSize_le_totalSize
  have hlegacy := tx.legacySigOps_le
  have hp2sh := tx.p2shSigOps_le coins
  have hwitness := tx.witnessSigOps_le coins flags
  rw [maxKeysPerMultisig] at hlegacy hp2sh hwitness
  change _ ≤ _ at hwitness
  rw [sigOpCost, sigOpScale]
  split
  · omega
  · change _ + (tx.witnessSigOpsList coins flags).sum ≤ _
    split
    · omega
    · omega

/-- The scripts whose signature operations are counted: those that are sent, those that are found in
last pushes, and the last items of witnesses. -/
def countedScripts (tx : Tx) : List Script :=
  tx.inputs.map TxIn.scriptSig ++ tx.outputs.map TxOut.script
    ++ (tx.inputs.filterMap fun i => i.scriptSig.lastPush?.map Script.mk)
    ++ tx.inputs.filterMap fun i => i.witness.getLast?.map Script.mk

theorem size_scriptSig_lt {tx : Tx} {i : TxIn} (h : i ∈ tx.inputs) :
    i.scriptSig.size < tx.baseSize := by
  have hmem := List.mem_map_of_mem (f := fun i : TxIn => i.scriptSig.size + 1) h
  have hle := List.le_sum_of_mem hmem
  have hscripts := tx.scripts_le_baseSize
  omega

theorem witnessSize_le_totalSize {tx : Tx} {i : TxIn} (h : i ∈ tx.inputs) :
    i.witnessSize ≤ tx.totalSize := by
  have hle := List.le_sum_of_mem (List.mem_map_of_mem (f := TxIn.witnessSize) h)
  have htotal := tx.add_witnessSize_le
  omega

theorem size_le_of_mem_countedScripts {tx : Tx} {s : Script} (h : s ∈ tx.countedScripts) :
    s.size ≤ tx.totalSize := by
  have hbase := tx.baseSize_le_totalSize
  rw [countedScripts, List.mem_append, List.mem_append, List.mem_append] at h
  rcases h with ((h | h) | h) | h
  · obtain ⟨i, hi, rfl⟩ := List.mem_map.mp h
    exact (Nat.le_of_lt (size_scriptSig_lt hi)).trans hbase
  · obtain ⟨o, ho, rfl⟩ := List.mem_map.mp h
    have hle := List.le_sum_of_mem (List.mem_map_of_mem (f := fun o : TxOut => o.script.size) ho)
    have hscripts := tx.scripts_le_baseSize
    omega
  · obtain ⟨i, hi, hpush⟩ := List.mem_filterMap.mp h
    obtain ⟨data, hdata, rfl⟩ := Option.map_eq_some_iff.mp hpush
    have hle := Script.length_le_of_lastPush? hdata
    exact (hle.trans (Nat.le_of_lt (size_scriptSig_lt hi))).trans hbase
  · obtain ⟨i, hi, hlast⟩ := List.mem_filterMap.mp h
    obtain ⟨item, hitem, rfl⟩ := Option.map_eq_some_iff.mp hlast
    have hle := TxIn.length_le_witnessSize (List.mem_of_getLast? hitem)
    exact hle.trans (witnessSize_le_totalSize hi)

end Tx

namespace Block

theorem legacySigOps_le (b : Block) : b.legacySigOps ≤ maxKeysPerMultisig * b.baseSize := by
  have hsum : (b.txs.map Tx.legacySigOps).sum ≤
      maxKeysPerMultisig * (b.txs.map Tx.baseSize).sum := by
    rw [← List.sum_map_mul_left]
    exact List.sum_le_sum fun tx _ => tx.legacySigOps_le
  exact hsum.trans (Nat.mul_le_mul_left _ b.sum_baseSize_le)

/-- No count of signature operations leaves the word it is kept in: 32 bits for that of a script, and
64 for what all transactions cost together, whatever coins they spend. -/
structure CountsFit (b : Block) : Prop where
  script : ∀ tx ∈ b.txs, ∀ s ∈ tx.countedScripts, ∀ accurate, s.sigOpCount accurate < 2 ^ 32
  cost : ∀ (spent : List (List Coin)) flags,
    ((b.txs.zip spent).map fun (tx, coins) => tx.sigOpCost coins flags).sum < 2 ^ 64

theorem countsFit_of_le {b : Block} (h : b.totalSize ≤ 2 ^ 27) : b.CountsFit where
  script tx htx s hs accurate := by
    have hsize := (Tx.size_le_of_mem_countedScripts hs).trans (totalSize_le_of_mem htx)
    calc
      s.sigOpCount accurate ≤ maxKeysPerMultisig * s.size := s.sigOpCount_le accurate
      _ ≤ maxKeysPerMultisig * 2 ^ 27 := Nat.mul_le_mul_left _ (hsize.trans h)
      _ < 2 ^ 32 := by decide
  cost spent flags := by
    calc
      ((b.txs.zip spent).map fun (tx, coins) => tx.sigOpCost coins flags).sum
          ≤ (b.txs.map fun tx => 180 * tx.totalSize).sum :=
        sum_zip_le fun tx coins => tx.sigOpCost_le coins flags
      _ = 180 * (b.txs.map Tx.totalSize).sum := List.sum_map_mul_left ..
      _ ≤ 180 * 2 ^ 27 := Nat.mul_le_mul_left _ (b.sum_totalSize_le.trans h)
      _ < 2 ^ 64 := by decide

end Block

end StakeChain
