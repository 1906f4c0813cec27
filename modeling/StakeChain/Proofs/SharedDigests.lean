/-
Digests that inputs share.

Three digests are made once for a transaction and stand in for those that each witness
signature would make again. Which of them a signature asks for is decided by its hash
type; the others may be anything. So it is enough that those which are asked for are
right, and it is needed: the digests are hashed at fixed places and with fixed lengths,
and a wrong one is another preimage. An evaluation sees them through the answers of the
checker only.
-/
import StakeChain.Eval.Verify
import StakeChain.Proofs.SignedData

namespace StakeChain

open Codec (Delimited)

variable {tx : Tx} {d : TxDigests} {t : SighashType}

/-! ## What a hash type asks for -/

/-- The digests are right that a signature with the hash type asks for. -/
structure TxDigests.Serves (d : TxDigests) (tx : Tx) (t : SighashType) : Prop where
  prevouts : t.anyoneCanPay = false → d.prevouts = Sighash.prevoutsHash tx
  sequences : (t.anyoneCanPay || t.isSingle || t.isNone) = false →
    d.sequences = Sighash.sequencesHash tx
  outputs : t.isNone = false → t.isSingle = false → d.outputs = Sighash.outputsHash tx

/-- Signatures of everything ask for all of them. -/
theorem TxDigests.forall_serves_iff : (∀ t, d.Serves tx t) ↔ d = .ofTx tx := by
  constructor
  · intro h
    have hall := h ⟨1⟩
    obtain ⟨prevouts, sequences, outputs⟩ := d
    obtain rfl : prevouts = _ := hall.prevouts rfl
    obtain rfl : sequences = _ := hall.sequences rfl
    obtain rfl : outputs = _ := hall.outputs rfl rfl
    rfl
  · rintro rfl t
    exact ⟨fun _ => rfl, fun _ => rfl, fun _ _ => rfl⟩

namespace Sighash

theorem witnessPrevouts_shared_iff :
    witnessPrevouts tx t (some d) = witnessPrevouts tx t none ↔
      (t.anyoneCanPay = false → d.prevouts = prevoutsHash tx) := by
  rw [witnessPrevouts, witnessPrevouts]
  cases t.anyoneCanPay <;> simp

theorem witnessSequences_shared_iff :
    witnessSequences tx t (some d) = witnessSequences tx t none ↔
      ((t.anyoneCanPay || t.isSingle || t.isNone) = false → d.sequences = sequencesHash tx) := by
  rw [witnessSequences, witnessSequences]
  cases t.anyoneCanPay || t.isSingle || t.isNone <;> simp

theorem witnessOutputs_shared_iff {signed : Nat} :
    witnessOutputs tx signed t (some d) = witnessOutputs tx signed t none ↔
      (t.isNone = false → t.isSingle = false → d.outputs = outputsHash tx) := by
  rw [witnessOutputs, witnessOutputs]
  cases t.isNone <;> cases t.isSingle <;> simp

/-- What is hashed is the same just when the digests are right that are asked for. -/
theorem witnessPreimage_shared_iff {code : Script} {signed : Nat} {input : TxIn}
    {amount : Int64} :
    witnessPreimage code tx signed input t amount (some d) =
      witnessPreimage code tx signed input t amount none ↔ d.Serves tx t := by
  constructor
  · intro h
    simp only [witnessPreimage, List.append_assoc, List.append_cancel_left_eq] at h
    obtain ⟨hprevouts, h⟩ := (Delimited.of_wire Hash256 _).inj trivial trivial h
    obtain ⟨hsequences, h⟩ := (Delimited.of_wire Hash256 _).inj trivial trivial h
    simp only [List.append_cancel_left_eq] at h
    obtain ⟨houtputs, -⟩ := (Delimited.of_wire Hash256 _).inj trivial trivial h
    exact ⟨witnessPrevouts_shared_iff.mp hprevouts, witnessSequences_shared_iff.mp hsequences,
      witnessOutputs_shared_iff.mp houtputs⟩
  · intro h
    rw [witnessPreimage, witnessPrevouts_shared_iff.mpr h.prevouts,
      witnessSequences_shared_iff.mpr h.sequences, witnessOutputs_shared_iff.mpr h.outputs]
    rfl

end Sighash

/-! ## From signatures to spends -/

theorem signatureHash_shared (h : d.Serves tx t) (code : Script) (signed : Nat) (amount : Int64)
    (version : HashVersion) :
    signatureHash code tx signed t amount version (some d) =
      signatureHash code tx signed t amount version none := by
  cases version with
  | legacy => rfl
  | witnessV0 =>
      have hpreimage (input : TxIn) :
          Sighash.witnessPreimage code tx signed input t amount (some d) =
            Sighash.witnessPreimage code tx signed input t amount none :=
        Sighash.witnessPreimage_shared_iff.mpr h
      simp only [signatureHash, Sighash.witness, hpreimage]

/-- The checker gives the same answers, whatever hash type a signature carries. -/
theorem Checker.ofTx_shared (h : ∀ t, d.Serves tx t) (index : Nat) (amount : Int64) :
    ofTx tx index amount (some d) = ofTx tx index amount none := by
  have hdigest code t version := signatureHash_shared (h t) code index amount version
  simp only [ofTx, hdigest]

theorem Eval.verifyInput_shared (h : ∀ t, d.Serves tx t) (index : Nat) (spent : TxOut)
    (flags : Flags) :
    verifyInput tx index spent flags (some d) = verifyInput tx index spent flags none := by
  simp only [verifyInput, Checker.ofTx_shared h]

/-- Shared digests change nothing. A signature of an input, in either scheme and with any hash
type, is for the same digest, and a spend has the same outcome; and what a witness signature
hashes with other digests is the same just when those are right that its hash type asks for. -/
theorem sharing_agrees (tx : Tx) :
    (∀ code signed t amount version,
      signatureHash code tx signed t amount version (some (.ofTx tx)) =
        signatureHash code tx signed t amount version none) ∧
    (∀ index spent flags,
      Eval.verifyInput tx index spent flags (some (.ofTx tx)) =
        Eval.verifyInput tx index spent flags none) ∧
    ∀ d code signed input t amount,
      Sighash.witnessPreimage code tx signed input t amount (some d) =
        Sighash.witnessPreimage code tx signed input t amount none ↔ d.Serves tx t :=
  have hserves : ∀ t, (TxDigests.ofTx tx).Serves tx t := TxDigests.forall_serves_iff.mpr rfl
  ⟨fun code signed t amount version => signatureHash_shared (hserves t) code signed amount version,
    fun index spent flags => Eval.verifyInput_shared hserves index spent flags,
    fun _ _ _ _ _ _ => Sighash.witnessPreimage_shared_iff⟩

end StakeChain
