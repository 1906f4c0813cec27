/-
What a signature is for, and what it leaves open.

Two digests of an input are equal just when the data are equal that
signatures of it commit to. One direction asks nothing: what is hashed is
made from these data alone. The other reads them off what is hashed, part
by part, and goes through hashes within what is hashed; so it holds where
the byte strings that are hashed have hashes of their own.
-/
import StakeChain.Proofs.Delimited
import StakeChain.Proofs.LegacyDigest

namespace StakeChain

open Codec (Context Delimited)

/-! ## The data -/

/-- A signature that may be asked for: the script code and the amount it is checked with, in a
transaction, with a hash type. -/
structure Signing where
  code : Script
  tx : Tx
  hashType : SighashType
  amount : Int64

/-- The outputs that a signature is for; the one at the index of the input may be missing. -/
inductive SignedOutputs where
  | all (outputs : List TxOut)
  | one (output : Option TxOut)
  | nothing
deriving DecidableEq

/-- The data that a signature of an input commits to. Lists of all inputs, and the amount, are
there unless they are left open. -/
@[ext]
structure Committed where
  version : Int32
  lockTime : UInt32
  hashType : SighashType
  prevout : Option OutPoint
  sequence : Option UInt32
  code : Script
  amount : Option Int64
  prevouts : Option (List OutPoint)
  sequences : Option (List UInt32)
  outputs : SignedOutputs
deriving DecidableEq

/-- The input before it shows anything for the output it spends. -/
def TxIn.unsigned (i : TxIn) : TxIn :=
  { i with scriptSig := Script.empty, witness := [] }

/-- The transaction before any input shows anything. -/
def Tx.unsigned (tx : Tx) : Tx :=
  { tx with inputs := tx.inputs.map TxIn.unsigned }

namespace Signing

/-- What the signature commits to. -/
def committed (s : Signing) (version : HashVersion) (index : Nat) : Committed where
  version := s.tx.version
  lockTime := s.tx.lockTime
  hashType := s.hashType
  prevout := s.tx.inputs[index]?.map TxIn.prevout
  sequence := s.tx.inputs[index]?.map TxIn.sequence
  code :=
    match version with
    | .legacy => s.code.unseparated
    | .witnessV0 => s.code
  amount :=
    match version with
    | .legacy => none
    | .witnessV0 => some s.amount
  prevouts :=
    if s.hashType.anyoneCanPay then none else some (s.tx.inputs.map TxIn.prevout)
  sequences :=
    if s.hashType.anyoneCanPay || s.hashType.opensSequences then none
    else some (s.tx.inputs.map TxIn.sequence)
  outputs :=
    if s.hashType.isNone then .nothing
    else if s.hashType.isSingle then .one s.tx.outputs[index]?
    else .all s.tx.outputs

/-- The digest that is signed. -/
def digest (s : Signing) (version : HashVersion) (index : Nat) (shared : Option TxDigests) :
    Except Fault Hash256 :=
  signatureHash s.code s.tx index s.hashType s.amount version shared

/-- The same signature before any input shows a script or a witness and, in the legacy scheme,
with no amount. -/
def unsigned (s : Signing) (version : HashVersion) : Signing :=
  { s with
    tx := s.tx.unsigned
    amount :=
      match version with
      | .legacy => 0
      | .witnessV0 => s.amount }

/-- Lists and scripts whose lengths fit 64 bits, as all do that a machine holds. -/
structure Countable (s : Signing) : Prop where
  code : s.code.Countable
  inputs : s.tx.inputs.length < UInt64.size
  outputs : s.tx.outputs.length < UInt64.size
  scripts : ∀ o ∈ s.tx.outputs, o.script.Countable

/-- There is such an input and, if the legacy scheme is to sign one output alone, that output. -/
structure Signable (s : Signing) (version : HashVersion) (index : Nat) : Prop where
  input : index < s.tx.inputs.length
  output : version = .legacy → s.hashType.isSingle → index < s.tx.outputs.length

end Signing

/-! ## What is hashed -/

/-- Byte strings with hashes of their own: no two of them share one, and none has the hash that
stands for parts that are left open. -/
structure HashesApart (hashed : List Bytes) : Prop where
  inj : ∀ a ∈ hashed, ∀ b ∈ hashed, hash256 a = hash256 b → a = b
  ne_zero : ∀ a ∈ hashed, hash256 a ≠ Digest.zero

instance (hashed : List Bytes) : Decidable (HashesApart hashed) :=
  decidable_of_iff ((∀ a ∈ hashed, ∀ b ∈ hashed, hash256 a = hash256 b → a = b) ∧
      ∀ a ∈ hashed, hash256 a ≠ Digest.zero)
    ⟨fun h => ⟨h.1, h.2⟩, fun h => ⟨h.inj, h.ne_zero⟩⟩

/-- The hash of a part, zero if the part is left open. -/
def Sighash.partHash (part : Option Bytes) : Hash256 :=
  part.elim Digest.zero hash256

namespace HashesApart

variable {l l' : List Bytes}

theorem hash256_eq_iff (h : HashesApart (l ++ l')) {x y : Bytes} (hx : x ∈ l) (hy : y ∈ l') :
    hash256 x = hash256 y ↔ x = y :=
  ⟨h.inj x (List.mem_append_left _ hx) y (List.mem_append_right _ hy), congrArg hash256⟩

theorem partHash_inj (h : HashesApart (l ++ l')) {p q : Option Bytes} (hp : ∀ bs ∈ p, bs ∈ l)
    (hq : ∀ bs ∈ q, bs ∈ l') (heq : Sighash.partHash p = Sighash.partHash q) : p = q := by
  cases p with
  | none =>
      cases q with
      | none => rfl
      | some y => exact absurd heq.symm (h.ne_zero y (List.mem_append_right _ (hq y rfl)))
  | some x =>
      cases q with
      | none => exact absurd heq (h.ne_zero x (List.mem_append_left _ (hp x rfl)))
      | some y => exact congrArg some ((h.hash256_eq_iff (hp x rfl) (hq y rfl)).mp heq)

end HashesApart

/-- The bytes of the signed outputs in the witness scheme. -/
def SignedOutputs.bytes : SignedOutputs → Option Bytes
  | .all outputs => some (outputs.flatMap Sighash.wire)
  | .one output => output.map Sighash.wire
  | .nothing => none

namespace Committed

/-- The bytes of all prevouts. -/
def prevoutBytes (c : Committed) : Option Bytes :=
  c.prevouts.map (List.flatMap Sighash.wire)

/-- The bytes of all sequences. -/
def sequenceBytes (c : Committed) : Option Bytes :=
  c.sequences.map (List.flatMap Sighash.wire)

/-- What is hashed in the witness scheme: hashes stand for lists, and zero for what is left
open. -/
def witnessPreimage (c : Committed) : Bytes :=
  Sighash.wire c.version
    ++ Sighash.wire (Sighash.partHash c.prevoutBytes)
    ++ Sighash.wire (Sighash.partHash c.sequenceBytes)
    ++ c.prevout.elim [] Sighash.wire
    ++ Sighash.wire c.code
    ++ c.amount.elim [] Sighash.wire
    ++ c.sequence.elim [] Sighash.wire
    ++ Sighash.wire (Sighash.partHash c.outputs.bytes)
    ++ Sighash.wire c.lockTime
    ++ Sighash.wire c.hashType.bits

end Committed

namespace Signing

/-- The byte strings that are hashed for the digest. -/
def hashed (s : Signing) (version : HashVersion) (index : Nat) : List Bytes :=
  match version with
  | .legacy => [Sighash.legacyPreimage s.code s.hashType s.tx index]
  | .witnessV0 =>
      (s.tx.inputs[index]?.toList.map fun input =>
          Sighash.witnessPreimage s.code s.tx index input s.hashType s.amount none)
        ++ (s.committed .witnessV0 index).prevoutBytes.toList
        ++ (s.committed .witnessV0 index).sequenceBytes.toList
        ++ (s.committed .witnessV0 index).outputs.bytes.toList

end Signing

/-! ## The legacy scheme -/

/-- What the copy shows of an input, whether there is one or not. -/
theorem TxIn.map_shown_eq_iff {script script' : Script} {t : SighashType} {signed k : Nat}
    {o o' : Option TxIn} :
    (o.map fun i => (i.shown script t signed k).bare) =
        (o'.map fun i => (i.shown script' t signed k).bare) ↔
      o.map TxIn.prevout = o'.map TxIn.prevout ∧
        (k = signed ∨ t.opensSequences = false → o.map TxIn.sequence = o'.map TxIn.sequence) ∧
        (k = signed → o.isSome → script = script') := by
  cases o with
  | none => cases o' <;> simp
  | some i =>
      cases o' with
      | none => simp
      | some j =>
          by_cases hk : k = signed
          · simp [TxIn.shown, TxIn.bare, hk]
            tauto
          · cases h : t.opensSequences <;> simp [TxIn.shown, TxIn.bare, hk, h]

namespace Signing

variable {s a b : Signing} {index : Nat} {shared : Option TxDigests}

/-- The copy that is hashed. -/
def copy (s : Signing) (index : Nat) : Tx :=
  s.tx.cutDown s.code index s.hashType

theorem getElem?_shownInputs (script : Script) (t : SighashType) (tx : Tx) (signed k : Nat) :
    ((tx.shownInputs script t signed).map TxIn.bare)[k]? =
      tx.inputs[k]?.map fun i => (i.shown script t signed k).bare := by
  rw [Tx.shownInputs, List.getElem?_map, List.getElem?_mapIdx, Option.map_map]
  rfl

/-- The inputs of two copies agree just when what is signed of the inputs does. -/
theorem copy_inputs_eq_iff (ha : a.Signable .legacy index) (htype : a.hashType = b.hashType) :
    (a.copy index).inputs.map TxIn.bare = (b.copy index).inputs.map TxIn.bare ↔
      ((a.committed .legacy index).prevout = (b.committed .legacy index).prevout ∧
        (a.committed .legacy index).sequence = (b.committed .legacy index).sequence ∧
        (a.committed .legacy index).code = (b.committed .legacy index).code) ∧
      (a.committed .legacy index).prevouts = (b.committed .legacy index).prevouts ∧
      (a.committed .legacy index).sequences = (b.committed .legacy index).sequences := by
  have hsome : a.tx.inputs[index]?.isSome := by
    rw [List.getElem?_eq_getElem ha.input]
    rfl
  simp only [copy, Tx.inputs_cutDown, committed, ← htype]
  cases hacp : a.hashType.anyoneCanPay with
  | true =>
      -- the signed input alone is the whole list
      have htoList : Function.Injective (Option.toList : Option TxIn → List TxIn) :=
        fun o o' h => by simpa using congrArg List.head? h
      simp only [if_true, Bool.true_or, and_true, ← Option.toList_map, htoList.eq_iff]
      rw [← List.getElem?_map, ← List.getElem?_map, getElem?_shownInputs, getElem?_shownInputs,
        TxIn.map_shown_eq_iff]
      simp [hsome]
  | false =>
      -- lists are compared at each position: only at the signed one is a script shown
      simp only [Bool.false_eq_true, if_false, Bool.false_or, Option.some_inj,
        List.ext_getElem?_iff, getElem?_shownInputs, TxIn.map_shown_eq_iff]
      simp only [List.getElem?_map]
      constructor
      · intro h
        obtain ⟨hprevout, hsequence, hcode⟩ := h index
        refine ⟨⟨hprevout, hsequence (.inl rfl), hcode rfl hsome⟩, fun k => (h k).1, ?_⟩
        split
        · rfl
        · next hopen =>
            refine congrArg some (List.ext_getElem? fun k => ?_)
            rw [List.getElem?_map, List.getElem?_map]
            exact (h k).2.1 (.inr (Bool.eq_false_iff.mpr hopen))
      · rintro ⟨⟨-, hsequence, hcode⟩, hprevouts, hsequences⟩ k
        refine ⟨hprevouts k, ?_, fun _ _ => hcode⟩
        rintro (rfl | hopen)
        · exact hsequence
        · rw [hopen] at hsequences
          have hk := congrArg (·[k]?) (Option.some.inj hsequences)
          simpa only [List.getElem?_map] using hk

/-- The outputs of two copies agree just when the signed outputs do. -/
theorem copy_outputs_eq_iff (ha : a.Signable .legacy index) (hb : b.Signable .legacy index)
    (htype : a.hashType = b.hashType) :
    (a.copy index).outputs = (b.copy index).outputs ↔
      (a.committed .legacy index).outputs = (b.committed .legacy index).outputs := by
  have houtput := hb.output rfl
  rw [copy, copy, (a.tx.rest_cutDown _ _ _).2.2, (b.tx.rest_cutDown _ _ _).2.2, committed,
    committed]
  rw [← htype] at houtput ⊢
  dsimp only
  split
  · exact iff_of_true rfl rfl
  · split
    · next hsingle =>
        rw [Tx.outputs_withOutputsUpTo (ha.output rfl hsingle),
          Tx.outputs_withOutputsUpTo (houtput hsingle), List.append_cancel_left_eq,
          List.getElem?_eq_getElem (ha.output rfl hsingle),
          List.getElem?_eq_getElem (houtput hsingle)]
        simp
    · simp

/-- The parts of what is hashed. -/
theorem legacyPreimage_eq (h : s.Signable .legacy index) :
    Sighash.legacyPreimage s.code s.hashType s.tx index =
      Sighash.wire s.tx.version ++
        (Codec.writeList Context.ids.format ((s.copy index).inputs.map TxIn.bare) ++
          (Codec.writeList Context.ids.format (s.copy index).outputs ++
            (Sighash.wire s.tx.lockTime ++ Sighash.wire s.hashType.bits))) := by
  rw [Sighash.legacyPreimage, Script.withoutCodeSeparators_eq, Sighash.legacyInputs_eq,
    Sighash.legacyOutputs_eq (h.output rfl), Tx.writeList_bare]
  simp only [List.append_assoc]
  rfl

theorem Countable.copy_inputs (h : s.Countable) :
    ((s.copy index).inputs.map TxIn.bare).length < UInt64.size ∧
      ∀ i ∈ (s.copy index).inputs.map TxIn.bare, i.scriptSig.Countable ∧ i.witness = [] := by
  have hshown : ∀ i ∈ s.tx.shownInputs s.code.unseparated s.hashType index,
      i.scriptSig.Countable := by
    intro i hi
    obtain ⟨k, hk, rfl⟩ := List.mem_mapIdx.mp hi
    rw [TxIn.shown]
    dsimp only
    split
    · exact Nat.lt_of_le_of_lt s.code.length_unseparated_le h.code
    · exact Script.countable_empty
  have hcopy : (s.copy index).inputs.length ≤ s.tx.inputs.length ∧
      ∀ i ∈ (s.copy index).inputs, i.scriptSig.Countable := by
    rw [copy, Tx.inputs_cutDown]
    have hlength : (s.tx.shownInputs s.code.unseparated s.hashType index).length =
        s.tx.inputs.length := List.length_mapIdx
    split
    · cases hi : (s.tx.shownInputs s.code.unseparated s.hashType index)[index]? with
      | none => exact ⟨Nat.zero_le _, fun _ hj => absurd hj List.not_mem_nil⟩
      | some i =>
          refine ⟨?_, fun j hj => ?_⟩
          · rw [← hlength]
            exact List.length_pos_of_mem (List.mem_of_getElem? hi)
          · rw [List.mem_singleton.mp hj]
            exact hshown i (List.mem_of_getElem? hi)
    · exact ⟨hlength.le, hshown⟩
  refine ⟨by simpa using Nat.lt_of_le_of_lt hcopy.1 h.inputs, fun i hi => ?_⟩
  obtain ⟨j, hj, rfl⟩ := List.mem_map.mp hi
  exact ⟨hcopy.2 j hj, rfl⟩

theorem Countable.copy_outputs (h : s.Countable) (hs : s.Signable .legacy index) :
    (s.copy index).outputs.length < UInt64.size ∧
      ∀ o ∈ (s.copy index).outputs, o.script.Countable := by
  rw [copy, (s.tx.rest_cutDown _ _ _).2.2]
  split
  · exact ⟨by decide, nofun⟩
  · split
    · next hsingle =>
        have hlast := hs.output rfl hsingle
        have hlength := h.outputs
        rw [Tx.outputs_withOutputsUpTo hlast]
        refine ⟨?_, fun o ho => ?_⟩
        · rw [List.length_append, List.length_replicate, List.length_singleton]
          omega
        · rcases List.mem_append.mp ho with ho | ho
          · rw [List.eq_of_mem_replicate ho]
            exact Script.countable_empty
          · rw [List.mem_singleton.mp ho]
            exact h.scripts _ (List.getElem_mem hlast)
    · exact ⟨h.outputs, h.scripts⟩

/-- What is hashed in the legacy scheme is the same just when what is signed is. -/
theorem legacyPreimage_eq_iff (ha : a.Signable .legacy index) (hb : b.Signable .legacy index)
    (hac : a.Countable) (hbc : b.Countable) :
    Sighash.legacyPreimage a.code a.hashType a.tx index =
        Sighash.legacyPreimage b.code b.hashType b.tx index ↔
      a.committed .legacy index = b.committed .legacy index := by
  rw [legacyPreimage_eq ha, legacyPreimage_eq hb]
  constructor
  · intro h
    obtain ⟨hversion, h⟩ := (Delimited.of_wire Int32 _).inj trivial trivial h
    obtain ⟨hinputs, h⟩ := (TxIn.delimited _).list.inj hac.copy_inputs hbc.copy_inputs h
    obtain ⟨houtputs, h⟩ :=
      (TxOut.delimited _).list.inj (hac.copy_outputs ha) (hbc.copy_outputs hb) h
    obtain ⟨hlockTime, h⟩ := (Delimited.of_wire UInt32 _).inj trivial trivial h
    have htype : a.hashType = b.hashType :=
      congrArg SighashType.mk ((Delimited.of_wire UInt32 _).eq trivial trivial h)
    obtain ⟨⟨hprevout, hsequence, hcode⟩, hprevouts, hsequences⟩ :=
      (copy_inputs_eq_iff ha htype).mp hinputs
    exact Committed.ext hversion hlockTime htype hprevout hsequence hcode rfl hprevouts hsequences
      ((copy_outputs_eq_iff ha hb htype).mp houtputs)
  · intro h
    have htype : a.hashType = b.hashType := congrArg Committed.hashType h
    have hversion : a.tx.version = b.tx.version := congrArg Committed.version h
    have hlockTime : a.tx.lockTime = b.tx.lockTime := congrArg Committed.lockTime h
    rw [hversion, hlockTime, (copy_outputs_eq_iff ha hb htype).mpr (congrArg Committed.outputs h),
      (copy_inputs_eq_iff ha htype).mpr (by simp [h]), htype]

end Signing

/-! ## The witness scheme -/

/-- Digests that inputs share stand for those of the transaction. -/
theorem TxDigests.getD_shared {tx : Tx} {shared : Option TxDigests}
    (h : ∀ d ∈ shared, d = .ofTx tx) (part : TxDigests → Hash256) :
    (shared.map part).getD (part (.ofTx tx)) = part (.ofTx tx) := by
  cases shared with
  | none => rfl
  | some d => exact congrArg part (h d rfl)

namespace Signing

variable {s a b : Signing} {index : Nat} {shared : Option TxDigests}

theorem witnessPrevouts_eq (h : ∀ d ∈ shared, d = .ofTx s.tx) :
    Sighash.witnessPrevouts s.tx s.hashType shared =
      Sighash.partHash (s.committed .witnessV0 index).prevoutBytes := by
  rw [Sighash.witnessPrevouts, Committed.prevoutBytes, committed]
  dsimp only
  split
  · rfl
  · refine (TxDigests.getD_shared h TxDigests.prevouts).trans ?_
    rw [Option.map_some, List.flatMap_map]
    rfl

theorem witnessSequences_eq (h : ∀ d ∈ shared, d = .ofTx s.tx) :
    Sighash.witnessSequences s.tx s.hashType shared =
      Sighash.partHash (s.committed .witnessV0 index).sequenceBytes := by
  have hopen : (s.hashType.anyoneCanPay || s.hashType.isSingle || s.hashType.isNone) =
      (s.hashType.anyoneCanPay || s.hashType.opensSequences) := by
    rw [SighashType.opensSequences, Bool.or_assoc, Bool.or_comm s.hashType.isSingle]
  rw [Sighash.witnessSequences, hopen, Committed.sequenceBytes, committed]
  dsimp only
  split
  · rfl
  · refine (TxDigests.getD_shared h TxDigests.sequences).trans ?_
    rw [Option.map_some, List.flatMap_map]
    rfl

theorem witnessOutputs_eq (h : ∀ d ∈ shared, d = .ofTx s.tx) :
    Sighash.witnessOutputs s.tx index s.hashType shared =
      Sighash.partHash (s.committed .witnessV0 index).outputs.bytes := by
  rw [Sighash.witnessOutputs, committed]
  dsimp only
  split
  · rfl
  · split
    · cases s.tx.outputs[index]? <;> rfl
    · exact TxDigests.getD_shared h TxDigests.outputs

theorem Signable.exists_input {version : HashVersion} (h : s.Signable version index) :
    ∃ input, s.tx.inputs[index]? = some input :=
  ⟨_, List.getElem?_eq_getElem h.input⟩

/-- The signed input is committed to. -/
theorem committed_input {input : TxIn} (h : s.tx.inputs[index]? = some input)
    (version : HashVersion) :
    (s.committed version index).prevout = some input.prevout ∧
      (s.committed version index).sequence = some input.sequence :=
  ⟨congrArg (Option.map TxIn.prevout) h, congrArg (Option.map TxIn.sequence) h⟩

/-- What is hashed in the witness scheme is made from what is signed. -/
theorem witnessPreimage_eq {input : TxIn} (hinput : s.tx.inputs[index]? = some input)
    (h : ∀ d ∈ shared, d = .ofTx s.tx) :
    Sighash.witnessPreimage s.code s.tx index input s.hashType s.amount shared =
      (s.committed .witnessV0 index).witnessPreimage := by
  obtain ⟨hprevout, hsequence⟩ := committed_input hinput .witnessV0
  rw [Sighash.witnessPreimage, Committed.witnessPreimage, witnessPrevouts_eq h,
    witnessSequences_eq h, witnessOutputs_eq h, hprevout, hsequence]
  rfl

theorem digest_witness (hs : s.Signable .witnessV0 index) (h : ∀ d ∈ shared, d = .ofTx s.tx) :
    s.digest .witnessV0 index shared =
      .ok (hash256 (s.committed .witnessV0 index).witnessPreimage) := by
  obtain ⟨input, hinput⟩ := hs.exists_input
  rw [digest, signatureHash, Sighash.witness, Tx.inputAt, hinput, ← witnessPreimage_eq hinput h]
  rfl

/-- The preimage and the bytes of lists are hashed. -/
theorem mem_hashed_witness (hs : s.Signable .witnessV0 index) :
    (s.committed .witnessV0 index).witnessPreimage ∈ s.hashed .witnessV0 index ∧
      (∀ bs ∈ (s.committed .witnessV0 index).prevoutBytes, bs ∈ s.hashed .witnessV0 index) ∧
      (∀ bs ∈ (s.committed .witnessV0 index).sequenceBytes, bs ∈ s.hashed .witnessV0 index) ∧
      ∀ bs ∈ (s.committed .witnessV0 index).outputs.bytes, bs ∈ s.hashed .witnessV0 index := by
  obtain ⟨input, hinput⟩ := hs.exists_input
  have hshared : ∀ d ∈ (none : Option TxDigests), d = .ofTx s.tx := nofun
  rw [hashed, hinput, Option.toList_some, List.map_singleton, witnessPreimage_eq hinput hshared]
  simp +contextual

theorem prevouts_of_bytes {c c' : Committed} (h : c.prevoutBytes = c'.prevoutBytes) :
    c.prevouts = c'.prevouts := by
  refine Option.map_injective (fun l l' hl => ?_) h
  exact (Delimited.of_wire OutPoint _).flatMap_inj (OutPoint.write_ne_nil _) (fun _ _ => trivial)
    (fun _ _ => trivial) hl

theorem sequences_of_bytes {c c' : Committed} (h : c.sequenceBytes = c'.sequenceBytes) :
    c.sequences = c'.sequences := by
  refine Option.map_injective (fun l l' hl => ?_) h
  exact (Delimited.of_wire UInt32 _).flatMap_inj (write_uint32_ne_nil _) (fun _ _ => trivial)
    (fun _ _ => trivial) hl

/-- For one hash type, the bytes of the signed outputs show the outputs. -/
theorem outputs_of_bytes (hac : a.Countable) (hbc : b.Countable)
    (htype : a.hashType = b.hashType)
    (h : (a.committed .witnessV0 index).outputs.bytes =
      (b.committed .witnessV0 index).outputs.bytes) :
    (a.committed .witnessV0 index).outputs = (b.committed .witnessV0 index).outputs := by
  revert h
  rw [committed, committed, ← htype]
  dsimp only
  split
  · exact fun _ => rfl
  split
  · intro h
    refine congrArg SignedOutputs.one ?_
    change a.tx.outputs[index]?.map Sighash.wire = b.tx.outputs[index]?.map Sighash.wire at h
    cases ha : a.tx.outputs[index]? with
    | none =>
        rw [ha] at h
        exact (Option.map_eq_none_iff.mp h.symm).symm
    | some o =>
        rw [ha] at h
        obtain ⟨o', ho', hwire⟩ := Option.map_eq_some_iff.mp h.symm
        rw [ho', (TxOut.delimited _).eq (hbc.scripts o' (List.mem_of_getElem? ho'))
          (hac.scripts o (List.mem_of_getElem? ha)) hwire]
  · intro h
    exact congrArg SignedOutputs.all ((TxOut.delimited _).flatMap_inj (TxOut.write_ne_nil _)
      hac.scripts hbc.scripts (Option.some.inj h))

/-- What is hashed in the witness scheme is the same just when what is signed is, if the hashes
in it are told apart. -/
theorem witnessPreimage_eq_iff (ha : a.Signable .witnessV0 index)
    (hb : b.Signable .witnessV0 index) (hac : a.Countable) (hbc : b.Countable)
    (happ : HashesApart (a.hashed .witnessV0 index ++ b.hashed .witnessV0 index)) :
    (a.committed .witnessV0 index).witnessPreimage =
        (b.committed .witnessV0 index).witnessPreimage ↔
      a.committed .witnessV0 index = b.committed .witnessV0 index := by
  refine ⟨fun h => ?_, congrArg _⟩
  obtain ⟨i, hi⟩ := ha.exists_input
  obtain ⟨j, hj⟩ := hb.exists_input
  obtain ⟨haprevout, hasequence⟩ := committed_input hi .witnessV0
  obtain ⟨hbprevout, hbsequence⟩ := committed_input hj .witnessV0
  have haamount : (a.committed .witnessV0 index).amount = some a.amount := rfl
  have hbamount : (b.committed .witnessV0 index).amount = some b.amount := rfl
  rw [Committed.witnessPreimage, Committed.witnessPreimage, haprevout, hbprevout, hasequence,
    hbsequence, haamount, hbamount] at h
  simp only [Option.elim_some, List.append_assoc] at h
  -- every part but the last is delimited, so they come off the front in turn
  obtain ⟨hversion, h⟩ := (Delimited.of_wire Int32 _).inj trivial trivial h
  obtain ⟨hprevouts, h⟩ := (Delimited.of_wire Hash256 _).inj trivial trivial h
  obtain ⟨hsequences, h⟩ := (Delimited.of_wire Hash256 _).inj trivial trivial h
  obtain ⟨hprevout, h⟩ := (Delimited.of_wire OutPoint _).inj trivial trivial h
  obtain ⟨hcode, h⟩ := (Script.delimited _).inj hac.code hbc.code h
  obtain ⟨hamount, h⟩ := (Delimited.of_wire Int64 _).inj trivial trivial h
  obtain ⟨hsequence, h⟩ := (Delimited.of_wire UInt32 _).inj trivial trivial h
  obtain ⟨houtputs, h⟩ := (Delimited.of_wire Hash256 _).inj trivial trivial h
  obtain ⟨hlockTime, h⟩ := (Delimited.of_wire UInt32 _).inj trivial trivial h
  have htype : a.hashType = b.hashType :=
    congrArg SighashType.mk ((Delimited.of_wire UInt32 _).eq trivial trivial h)
  -- the hashes stand for bytes that are hashed themselves
  obtain ⟨-, haprevouts, hasequences, haoutputs⟩ := mem_hashed_witness ha
  obtain ⟨-, hbprevouts, hbsequences, hboutputs⟩ := mem_hashed_witness hb
  exact Committed.ext hversion hlockTime htype
    (haprevout.trans ((congrArg some hprevout).trans hbprevout.symm))
    (hasequence.trans ((congrArg some hsequence).trans hbsequence.symm)) hcode
    (congrArg some hamount)
    (prevouts_of_bytes (happ.partHash_inj haprevouts hbprevouts hprevouts))
    (sequences_of_bytes (happ.partHash_inj hasequences hbsequences hsequences))
    (outputs_of_bytes hac hbc htype (happ.partHash_inj haoutputs hboutputs houtputs))

end Signing

/-! ## What digests do not depend on -/

namespace Sighash

variable (code : Script) (t : SighashType) (tx : Tx) (index : Nat)

theorem chosenInputs_unsigned :
    chosenInputs t tx.unsigned index =
      (chosenInputs t tx index).map (Prod.map TxIn.unsigned id) := by
  have hzip : tx.unsigned.inputs.zipIdx = tx.inputs.zipIdx.map (Prod.map TxIn.unsigned id) :=
    List.zipIdx_map
  rw [chosenInputs, chosenInputs, hzip, List.filter_map]
  split
  · rfl
  · rfl

theorem legacyInputs_unsigned :
    legacyInputs code t tx.unsigned index = legacyInputs code t tx index := by
  rw [legacyInputs_eq_flatMap, legacyInputs_eq_flatMap, chosenInputs_unsigned, List.length_map,
    List.flatMap_map]
  rfl

theorem legacy_unsigned : legacy code tx.unsigned index t = legacy code tx index t := by
  have hlength : tx.unsigned.inputs.length = tx.inputs.length := List.length_map _
  rw [legacy, legacy, hlength, legacyPreimage, legacyInputs_unsigned]
  rfl

theorem witness_unsigned (amount : Int64) (shared : Option TxDigests) :
    witness code tx.unsigned index t amount shared = witness code tx index t amount shared := by
  have hprevouts : prevoutsHash tx.unsigned = prevoutsHash tx :=
    congrArg hash256 (List.flatMap_map ..)
  have hsequences : sequencesHash tx.unsigned = sequencesHash tx :=
    congrArg hash256 (List.flatMap_map ..)
  have hpreimage (i : TxIn) : witnessPreimage code tx.unsigned index i.unsigned t amount shared =
      witnessPreimage code tx index i t amount shared := by
    rw [witnessPreimage, witnessPrevouts, hprevouts, witnessSequences, hsequences]
    rfl
  have hinput : tx.unsigned.inputAt index = TxIn.unsigned <$> tx.inputAt index := by
    have hget : tx.unsigned.inputs[index]? = tx.inputs[index]?.map TxIn.unsigned :=
      List.getElem?_map ..
    rw [Tx.inputAt, Tx.inputAt, hget]
    cases tx.inputs[index]? <;> rfl
  rw [witness, witness, hinput, bind_map_left]
  simp only [hpreimage]

end Sighash

/-! ## Digests and signed data -/

namespace Signing

variable {s : Signing} {index : Nat} {shared : Option TxDigests}

/-- What inputs show has no part in a digest, nor has the amount in the legacy scheme. -/
theorem digest_unsigned (s : Signing) (version : HashVersion) (index : Nat)
    (shared : Option TxDigests) :
    (s.unsigned version).digest version index shared = s.digest version index shared := by
  cases version with
  | legacy => exact congrArg Except.ok (Sighash.legacy_unsigned ..)
  | witnessV0 => exact Sighash.witness_unsigned ..

theorem digest_legacy (hs : s.Signable .legacy index) :
    s.digest .legacy index shared =
      .ok (hash256 (Sighash.legacyPreimage s.code s.hashType s.tx index)) := by
  have hone : ¬(s.hashType.isSingle && decide (s.tx.outputs.length ≤ index)) = true := by
    intro h
    obtain ⟨hsingle, hle⟩ := Bool.and_eq_true_iff.mp h
    exact absurd (hs.output rfl hsingle) (Nat.not_lt.mpr (of_decide_eq_true hle))
  rw [digest, signatureHash, Sighash.legacy, if_neg (Nat.not_le.mpr hs.input), if_neg hone]

end Signing

/-- What a signature commits to, exactly. What inputs show has no part in it, nor has the amount
in the legacy scheme. And two digests of an input are equal just when the data that are committed
to are, as long as the byte strings that are hashed have hashes of their own. -/
theorem digest_of_committed (version : HashVersion) (index : Nat) :
    (∀ (s : Signing) (shared : Option TxDigests),
      (s.unsigned version).digest version index shared = s.digest version index shared) ∧
    ∀ (a b : Signing) (shared shared' : Option TxDigests),
      a.Signable version index → b.Signable version index → a.Countable → b.Countable →
      (∀ d ∈ shared, d = .ofTx a.tx) → (∀ d ∈ shared', d = .ofTx b.tx) →
      HashesApart (a.hashed version index ++ b.hashed version index) →
      ∃ d d', a.digest version index shared = .ok d ∧ b.digest version index shared' = .ok d' ∧
        (d = d' ↔ a.committed version index = b.committed version index) := by
  refine ⟨fun s shared => s.digest_unsigned version index shared, ?_⟩
  intro a b shared shared' ha hb hac hbc hshared hshared' happ
  cases version with
  | legacy =>
      refine ⟨_, _, Signing.digest_legacy ha, Signing.digest_legacy hb, ?_⟩
      rw [happ.hash256_eq_iff List.mem_cons_self List.mem_cons_self]
      exact Signing.legacyPreimage_eq_iff ha hb hac hbc
  | witnessV0 =>
      refine ⟨_, _, Signing.digest_witness ha hshared, Signing.digest_witness hb hshared', ?_⟩
      rw [happ.hash256_eq_iff (Signing.mem_hashed_witness ha).1 (Signing.mem_hashed_witness hb).1]
      exact Signing.witnessPreimage_eq_iff ha hb hac hbc happ

/-- A signature of one input that leaves all outputs and these other inputs open. -/
def Signing.ofInputAlone (others : List TxIn) (amount : Int64) : Signing where
  code := ⟨[0x51]⟩
  tx := ⟨1, ⟨.null, .empty, sequenceFinal, []⟩ :: others, [], 0⟩
  hashType := ⟨0x82⟩
  amount := amount

/-- Another input and another amount: the first is open in both schemes, the second in one. -/
theorem digest_of_committed_amount :
    (∃ d, (Signing.ofInputAlone [] 5).digest .legacy 0 none = .ok d ∧
      (Signing.ofInputAlone [default] 7).digest .legacy 0 none = .ok d) ∧
    ∃ d d', (Signing.ofInputAlone [] 5).digest .witnessV0 0 none = .ok d ∧
      (Signing.ofInputAlone [default] 7).digest .witnessV0 0 none = .ok d' ∧ d ≠ d' := by
  have hsingle : ¬(⟨0x82⟩ : SighashType).isSingle := by decide
  have hsignable : ∀ version others amount,
      (Signing.ofInputAlone others amount).Signable version 0 :=
    fun _ others _ => ⟨Nat.succ_pos others.length, fun _ h => absurd h hsingle⟩
  have hcountable : (Signing.ofInputAlone [] 5).Countable ∧
      (Signing.ofInputAlone [default] 7).Countable :=
    ⟨⟨by decide, by decide, by decide, nofun⟩, ⟨by decide, by decide, by decide, nofun⟩⟩
  constructor
  · obtain ⟨d, d', ha, hb, heq⟩ := (digest_of_committed .legacy 0).2 (.ofInputAlone [] 5)
      (.ofInputAlone [default] 7) none none (hsignable ..) (hsignable ..) hcountable.1
      hcountable.2 nofun nofun (by decide +kernel)
    obtain rfl := heq.mpr (by decide)
    exact ⟨d, ha, hb⟩
  · obtain ⟨d, d', ha, hb, heq⟩ := (digest_of_committed .witnessV0 0).2 (.ofInputAlone [] 5)
      (.ofInputAlone [default] 7) none none (hsignable ..) (hsignable ..) hcountable.1
      hcountable.2 nofun nofun (by decide +kernel)
    exact ⟨d, d', ha, hb, fun h => absurd (heq.mp h) (by decide)⟩

end StakeChain
