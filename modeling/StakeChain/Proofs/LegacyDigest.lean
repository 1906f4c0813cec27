/-
The legacy scheme hashes a copy of the transaction that was cut down.

The hashed bytes are put together field by field, and no such copy is ever
made. Here it is made, one change after another: scripts are emptied,
outputs taken away or blanked, sequences set to zero, other inputs dropped.
Its encoding without witnesses, with the hash type after it, is what is
hashed, for every hash type, defined or not.
-/
import StakeChain.Sighash
import StakeChain.Proofs.ScriptCuts
import StakeChain.Proofs.TxWire

namespace StakeChain

open Codec (Context)

/-! ## The changes -/

namespace Tx

/-- The copy in which the signed input shows a script and the others show none. -/
def showing (tx : Tx) (script : Script) (signed : Nat) : Tx :=
  { tx with
    inputs := tx.inputs.mapIdx fun k i =>
      { i with scriptSig := if k = signed then script else Script.empty } }

/-- The copy in which the sequences of all inputs but the signed one are zero. -/
def withOpenSequences (tx : Tx) (signed : Nat) : Tx :=
  { tx with
    inputs := tx.inputs.mapIdx fun k i => if k = signed then i else { i with sequence := 0 } }

/-- The copy without outputs. -/
def withoutOutputs (tx : Tx) : Tx :=
  { tx with outputs := [] }

/-- The copy with the outputs up to an index, of which those before it are blank. -/
def withOutputsUpTo (tx : Tx) (last : Nat) : Tx :=
  { tx with
    outputs := (tx.outputs.take (last + 1)).mapIdx fun k o => if k < last then TxOut.blank else o }

/-- The copy with one input alone. -/
def withInputAlone (tx : Tx) (signed : Nat) : Tx :=
  { tx with inputs := tx.inputs[signed]?.toList }

/-- The copy that a signature of the legacy scheme is for. -/
def cutDown (tx : Tx) (code : Script) (signed : Nat) (t : SighashType) : Tx :=
  let copy := tx.showing code.unseparated signed
  let copy :=
    if t.isNone then copy.withoutOutputs.withOpenSequences signed
    else if t.isSingle then (copy.withOutputsUpTo signed).withOpenSequences signed
    else copy
  if t.anyoneCanPay then copy.withInputAlone signed else copy

end Tx

/-! ## The parts of the copy -/

namespace SighashType

/-- Whether the sequences of other inputs are left open together with their outputs. -/
def opensSequences (t : SighashType) : Bool :=
  t.isNone || t.isSingle

end SighashType

/-- An input as it stands in the copy. -/
def TxIn.shown (script : Script) (t : SighashType) (signed k : Nat) (i : TxIn) : TxIn :=
  { i with
    scriptSig := if k = signed then script else Script.empty
    sequence := if k ≠ signed ∧ t.opensSequences then 0 else i.sequence }

namespace Tx

variable {tx : Tx} {code : Script} {signed : Nat} {t : SighashType}

/-- The inputs of the copy before others are dropped. -/
def shownInputs (tx : Tx) (script : Script) (t : SighashType) (signed : Nat) : List TxIn :=
  tx.inputs.mapIdx (TxIn.shown script t signed)

theorem inputs_showing {script : Script} (h : t.opensSequences = false) :
    (tx.showing script signed).inputs = tx.shownInputs script t signed := by
  refine congrArg (tx.inputs.mapIdx ·) (funext₂ fun k i => ?_)
  rw [TxIn.shown, if_neg (show ¬(k ≠ signed ∧ t.opensSequences = true) by simp [h])]

theorem inputs_withOpenSequences {script : Script} (h : t.opensSequences = true) :
    ((tx.showing script signed).withOpenSequences signed).inputs =
      tx.shownInputs script t signed := by
  rw [withOpenSequences, showing, List.mapIdx_mapIdx]
  refine congrArg (tx.inputs.mapIdx ·) (funext₂ fun k i => ?_)
  by_cases hk : k = signed
  · simp [TxIn.shown, hk]
  · simp [TxIn.shown, hk, h]

theorem inputs_cutDown :
    (tx.cutDown code signed t).inputs =
      if t.anyoneCanPay then (tx.shownInputs code.unseparated t signed)[signed]?.toList
      else tx.shownInputs code.unseparated t signed := by
  have hshown : (if t.isNone then (tx.showing code.unseparated signed).withoutOutputs
      |>.withOpenSequences signed
    else if t.isSingle then ((tx.showing code.unseparated signed).withOutputsUpTo signed)
      |>.withOpenSequences signed
    else tx.showing code.unseparated signed).inputs = tx.shownInputs code.unseparated t signed := by
    split
    · next hnone => exact inputs_withOpenSequences (by simp [SighashType.opensSequences, hnone])
    · next hnone =>
        split
        · next hsingle =>
            exact inputs_withOpenSequences (by simp [SighashType.opensSequences, hsingle])
        · next hsingle =>
            exact inputs_showing (by simp [SighashType.opensSequences, hnone, hsingle])
  rw [cutDown, ← hshown]
  split <;> rfl

theorem rest_cutDown (tx : Tx) (code : Script) (signed : Nat) (t : SighashType) :
    (tx.cutDown code signed t).version = tx.version ∧
      (tx.cutDown code signed t).lockTime = tx.lockTime ∧
      (tx.cutDown code signed t).outputs =
        if t.isNone then []
        else if t.isSingle then (tx.withOutputsUpTo signed).outputs
        else tx.outputs := by
  rw [cutDown]
  cases t.anyoneCanPay <;> cases t.isNone <;> cases t.isSingle <;> exact ⟨rfl, rfl, rfl⟩

/-- If the last one is there, the others up to it are blank. -/
theorem outputs_withOutputsUpTo (h : signed < tx.outputs.length) :
    (tx.withOutputsUpTo signed).outputs =
      List.replicate signed TxOut.blank ++ [tx.outputs[signed]] := by
  have hlength : (tx.outputs.take signed).length = signed :=
    List.length_take_of_le (Nat.le_of_lt h)
  have hblank : ((tx.outputs.take signed).mapIdx fun k o => if k < signed then TxOut.blank else o) =
      List.replicate (tx.outputs.take signed).length TxOut.blank :=
    List.mapIdx_eq_replicate_iff.mpr fun k hk => if_pos (hlength ▸ hk)
  rw [withOutputsUpTo, List.take_succ_eq_append_getElem h, List.mapIdx_append, hblank, hlength]
  simp

end Tx

/-! ## The bytes of the copy -/

/-- Of a list with its indices, what stands at one index. -/
theorem filter_zipIdx {α : Type} (l : List α) (n offset : Nat) :
    ((l.zipIdx offset).filter fun p => p.2 == offset + n) =
      l[n]?.toList.map fun a => (a, offset + n) := by
  induction l generalizing n offset with
  | nil => rfl
  | cons a rest ih =>
      rw [List.zipIdx_cons, List.filter_cons]
      cases n with
      | zero =>
          have hrest : ((rest.zipIdx (offset + 1)).filter fun p => p.2 == offset + 0) = [] := by
            refine List.filter_eq_nil_iff.mpr fun p hp => ?_
            have hle := List.mem_zipIdx hp
            simp only [Nat.add_zero, beq_iff_eq]
            omega
          rw [hrest]
          simp
      | succ n =>
          have hn : (offset == offset + (n + 1)) = false := by simp
          have hshift : offset + (n + 1) = offset + 1 + n := by omega
          rw [if_neg (by rw [hn]; exact Bool.false_ne_true), hshift, ih]
          rfl

namespace Sighash

variable {tx : Tx} {code script : Script} {signed : Nat} {t : SighashType}

theorem legacyInput_eq (i : TxIn) (k : Nat) :
    legacyInput script t signed i k = wire (i.shown script t signed k) := by
  have hkind : (t.isSingle = true ∨ t.isNone = true) ↔ t.opensSequences = true := by
    rw [SighashType.opensSequences, Bool.or_eq_true, or_comm]
  rw [legacyInput]
  simp only [hkind]
  change _ = wire i.prevout ++ wire (if k = signed then script else Script.empty) ++
    wire (if k ≠ signed ∧ t.opensSequences = true then 0 else i.sequence)
  split <;> split <;> rfl

/-- The inputs that are hashed, each with its index. -/
def chosenInputs (t : SighashType) (tx : Tx) (signed : Nat) : List (TxIn × Nat) :=
  if t.anyoneCanPay then tx.inputs.zipIdx.filter fun p => p.2 == signed else tx.inputs.zipIdx

theorem legacyInputs_eq_flatMap :
    legacyInputs script t tx signed =
      Codec.varInt (chosenInputs t tx signed).length ++
        (chosenInputs t tx signed).flatMap fun p => legacyInput script t signed p.1 p.2 :=
  rfl

theorem map_shown_chosenInputs :
    ((chosenInputs t tx signed).map fun p => p.1.shown code.unseparated t signed p.2) =
      (tx.cutDown code signed t).inputs := by
  rw [chosenInputs, Tx.inputs_cutDown, Tx.shownInputs]
  split
  · have hone := filter_zipIdx tx.inputs signed 0
    simp only [Nat.zero_add] at hone
    rw [hone, List.getElem?_mapIdx]
    cases tx.inputs[signed]? <;> rfl
  · rw [List.mapIdx_eq_zipIdx_map]

theorem legacyInputs_eq :
    legacyInputs code.unseparated t tx signed =
      Codec.writeList Context.ids.format (tx.cutDown code signed t).inputs := by
  rw [legacyInputs_eq_flatMap, ← map_shown_chosenInputs, Codec.writeList, List.length_map,
    List.flatMap_map]
  refine congrArg (fun f => _ ++ (chosenInputs t tx signed).flatMap f) (funext fun p => ?_)
  exact legacyInput_eq p.1 p.2

theorem legacyOutputs_eq (h : t.isSingle → signed < tx.outputs.length) :
    legacyOutputs t tx signed =
      Codec.writeList Context.ids.format (tx.cutDown code signed t).outputs := by
  rw [legacyOutputs, (tx.rest_cutDown code signed t).2.2]
  split
  · rfl
  · split
    · next hsingle =>
        have hlt := h hsingle
        have hlast : (tx.outputs.drop signed).take 1 = [tx.outputs[signed]] := by
          rw [List.drop_eq_getElem_cons hlt]
          rfl
        rw [Tx.outputs_withOutputsUpTo hlt, hlast, Codec.writeList]
        simp
        rfl
    · rfl

/-- What is hashed is the encoding of the copy, with the hash type after it. -/
theorem legacyPreimage_eq (h : t.isSingle → signed < tx.outputs.length) :
    legacyPreimage code t tx signed =
      Codec.encode .ids (tx.cutDown code signed t) ++ Bytes.ofNatLE 4 t.bits.toNat := by
  obtain ⟨hversion, hlockTime, -⟩ := tx.rest_cutDown code signed t
  have hcopy : Codec.encode .ids (tx.cutDown code signed t) =
      wire (tx.cutDown code signed t).version ++
        (Codec.writeList Context.ids.format (tx.cutDown code signed t).inputs ++
          Codec.writeList Context.ids.format (tx.cutDown code signed t).outputs ++
          wire (tx.cutDown code signed t).lockTime) := Tx.write_eq _ _
  rw [legacyPreimage, Script.withoutCodeSeparators_eq, legacyInputs_eq, legacyOutputs_eq h, hcopy,
    hversion, hlockTime]
  simp only [List.append_assoc]
  rfl

end Sighash

/-- A signature of the legacy scheme is for the copy that was cut down: the digest is the hash of
its encoding without witnesses and of the hash type, whatever the amount. Without an input to
sign, or without the one output that is signed, it is the number one. -/
theorem legacy_digest_of_copy (code : Script) (tx : Tx) (signed : Nat) (t : SighashType)
    (amount : Int64) (shared : Option TxDigests) :
    signatureHash code tx signed t amount .legacy shared =
      .ok (if tx.inputs.length ≤ signed ∨ (t.isSingle = true ∧ tx.outputs.length ≤ signed) then
          Digest.one
        else
          hash256 (Codec.encode .ids (tx.cutDown code signed t) ++
            Bytes.ofNatLE 4 t.bits.toNat)) := by
  rw [signatureHash, Sighash.legacy]
  refine congrArg Except.ok ?_
  by_cases hinputs : tx.inputs.length ≤ signed
  · rw [if_pos hinputs, if_pos (.inl hinputs)]
  · rw [if_neg hinputs]
    by_cases houtputs : t.isSingle = true ∧ tx.outputs.length ≤ signed
    · rw [if_pos (by simpa using houtputs), if_pos (.inr houtputs)]
    · have hlast : t.isSingle → signed < tx.outputs.length := fun hsingle =>
        Nat.not_le.mp fun hle => houtputs ⟨hsingle, hle⟩
      rw [if_neg (by simpa using houtputs), if_neg (not_or.mpr ⟨hinputs, houtputs⟩),
        Sighash.legacyPreimage_eq hlast]

namespace Sample

/-- Two inputs and three outputs. -/
def twoForThree : Tx where
  version := 1
  inputs := [⟨⟨Digest.ofNat 7, 3⟩, ⟨[0x51]⟩, 8, []⟩, ⟨⟨Digest.ofNat 9, 4⟩, ⟨[0x52]⟩, 10, []⟩]
  outputs := [⟨11, ⟨[0x53]⟩⟩, ⟨12, ⟨[0x54, 0x55]⟩⟩, ⟨13, .empty⟩]
  lockTime := 14

/-- A check of a signature after a code separator. -/
def separatedCheck : Script :=
  ⟨[Opcode.codeSeparator, Opcode.checkSig]⟩

end Sample

/-- What is signed for the second input where no output is, where one is, and where one is and no
other input; and the number one where there is no such output. -/
theorem legacy_digest_of_copy_open :
    let digest (tx : Tx) (bits : UInt32) : Except Fault Hash256 :=
      signatureHash Sample.separatedCheck tx 1 ⟨bits⟩ 0 .legacy none
    let firstInput : Bytes := (7 :: List.replicate 31 0) ++ [3, 0, 0, 0] ++ [0] ++ [0, 0, 0, 0]
    let signedInput : Bytes :=
      (9 :: List.replicate 31 0) ++ [4, 0, 0, 0] ++ [1, 0xac] ++ [10, 0, 0, 0]
    let outputs : Bytes := [2] ++ (List.replicate 8 0xff ++ [0]) ++
      ([12, 0, 0, 0, 0, 0, 0, 0] ++ [2, 0x54, 0x55])
    digest Sample.twoForThree 2 = .ok (hash256 ([1, 0, 0, 0] ++ [2] ++ firstInput ++ signedInput ++
        [0] ++ [14, 0, 0, 0] ++ [2, 0, 0, 0])) ∧
      digest Sample.twoForThree 3 = .ok (hash256 ([1, 0, 0, 0] ++ [2] ++ firstInput ++
        signedInput ++ outputs ++ [14, 0, 0, 0] ++ [3, 0, 0, 0])) ∧
      digest Sample.twoForThree 0x83 = .ok (hash256 ([1, 0, 0, 0] ++ [1] ++ signedInput ++
        outputs ++ [14, 0, 0, 0] ++ [0x83, 0, 0, 0])) ∧
      digest { Sample.twoForThree with outputs := [] } 0x83 = .ok Digest.one := by
  intro digest firstInput signedInput outputs
  have hcut {bits : UInt32} {bytes : Bytes}
      (hthere : ¬ (Sample.twoForThree.inputs.length ≤ 1 ∨
        ((⟨bits⟩ : SighashType).isSingle = true ∧ Sample.twoForThree.outputs.length ≤ 1)))
      (hbytes : Codec.encode .ids (Sample.twoForThree.cutDown Sample.separatedCheck 1 ⟨bits⟩) ++
        Bytes.ofNatLE 4 bits.toNat = bytes) :
      digest Sample.twoForThree bits = .ok (hash256 bytes) := by
    have hdigest := legacy_digest_of_copy Sample.separatedCheck Sample.twoForThree 1 ⟨bits⟩ 0 none
    rwa [if_neg hthere, hbytes] at hdigest
  refine ⟨hcut (by decide) (by decide), hcut (by decide) (by decide),
    hcut (by decide) (by decide), ?_⟩
  exact (legacy_digest_of_copy _ _ _ _ _ _).trans (congrArg Except.ok (if_pos (by decide)))

end StakeChain
