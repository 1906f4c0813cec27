/-
What it takes to spend from a witness key hash.

The locking script itself asks for next to nothing: it leaves the hash, which has to be
true, and an empty item under it. All the rest is asked of the witness. It has to be a
signature and a key, on which the usual script for the hash of a key is run, and
whatever flags are in force, they can only ask for encodings: the script is known, its
pushes are the shortest, and it leaves one item. So the condition is exact, and no
flag needs to be known beside the one under which witnesses are run.
-/
import Mathlib.Data.List.Basic
import StakeChain.Proofs.ColdStaking
import StakeChain.Proofs.WitnessPrograms

namespace StakeChain

open Stateful Eval

/-! ## The scripts -/

namespace Script

theorem size_payToKeyHash (hash : Hash160) : (payToKeyHash hash).size = 25 :=
  length_payToKeyHash hash

theorem bytes_payToWitnessKeyHash (hash : Hash160) :
    (payTo (.witnessKeyHash hash)).bytes = Opcode.op0 :: 20 :: hash.bytes := by
  simp [payTo, pushData, hash.length_bytes]

theorem size_payToWitnessKeyHash (hash : Hash160) : (payTo (.witnessKeyHash hash)).size = 22 := by
  simp [size, bytes_payToWitnessKeyHash, hash.length_bytes]

theorem witnessProgram?_payToWitnessKeyHash (hash : Hash160) :
    (payTo (.witnessKeyHash hash)).witnessProgram? = some (0, hash.bytes) :=
  (WitnessLock.keyHash hash).witnessProgram?_program

/-- It pays to no script hash, so nothing else is run. -/
theorem isScriptHash_payToWitnessKeyHash (hash : Hash160) :
    (payTo (.witnessKeyHash hash)).isScriptHash = false :=
  (WitnessLock.keyHash hash).isScriptHash_program

end Script

namespace Eval

open Script

theorem isMinimalPush_hash (hash : Hash160) : isMinimalPush 20 hash.bytes := by
  have hlength := hash.length_bytes
  exact isMinimalPush_of_length (by omega) (by omega) hlength

/-! ## The runs -/

namespace Step

variable {env : Env} {hash : Hash160} {key sig code : Bytes} {trace : List Event} {u : Machine}
  {a : Unit}

theorem operations_payToWitnessKeyHash :
    operations env 22 (payTo (.witnessKeyHash hash)).bytes ⟨[], [], [], 0, code, trace⟩ =
      .ok () ⟨[hash.bytes, []], [], [], 0, code, trace⟩ := by
  have hpushes : (payTo (.witnessKeyHash hash)).bytes =
      Opcode.op0 :: ([] ++ 20 :: (hash.bytes ++ [])) := by
    rw [bytes_payToWitnessKeyHash, List.nil_append, List.append_nil]
  rw [hpushes]
  calc operations env 22 (Opcode.op0 :: ([] ++ 20 :: (hash.bytes ++ []))) _
    _ = operations env 21 (20 :: (hash.bytes ++ [])) ⟨[[]], [], [], 0, code, trace⟩ :=
        operations_pushed (by decide) rfl rfl rfl (Nat.le_of_ble_eq_true rfl)
    _ = operations env 20 [] ⟨[hash.bytes, []], [], [], 0, code, trace⟩ :=
        operations_pushed (by decide) hash.length_bytes (isMinimalPush_hash hash) rfl
          (Nat.le_of_ble_eq_true rfl)
    _ = .ok () _ := operations_nil 20

/-- Up to the comparison of the hashes nothing depends on the key. -/
theorem operations_payToKeyHash :
    operations env 25 (payToKeyHash hash).bytes ⟨[key, sig], [], [], 0, code, trace⟩ =
      operations env 22 [Opcode.equalVerify, Opcode.checkSig]
        ⟨[hash.bytes, (hash160 key).bytes, key, sig], [], [], 2, code, trace⟩ := by
  rw [bytes_payToKeyHash]
  calc operations env 25 (Opcode.dup :: Opcode.hash160 :: 20 :: _) _
    _ = operations env 24 (Opcode.hash160 :: 20 :: _)
          ⟨[key, key, sig], [], [], 1, code, trace⟩ :=
        operations_executed (by decide) (by decide) rfl (Nat.le_of_ble_eq_true rfl) rfl
          (Nat.le_of_ble_eq_true rfl)
    _ = operations env 23 (20 :: (hash.bytes ++ [Opcode.equalVerify, Opcode.checkSig]))
          ⟨[(hash160 key).bytes, key, sig], [], [], 2, code, trace⟩ :=
        operations_executed (by decide) (by decide) rfl (Nat.le_of_ble_eq_true rfl) rfl
          (Nat.le_of_ble_eq_true rfl)
    _ = operations env 22 [Opcode.equalVerify, Opcode.checkSig] _ :=
        operations_pushed (by decide) hash.length_bytes (isMinimalPush_hash hash) rfl
          (Nat.le_of_ble_eq_true rfl)

end Step

/-- The locking script runs through under any flags, and leaves the hash. -/
theorem run_payToWitnessKeyHash {env : Env} {hash : Hash160} {trace : List Event} :
    run env (payTo (.witnessKeyHash hash)) [] trace =
      .ok () ⟨[hash.bytes, []], [], [], 0, (payTo (.witnessKeyHash hash)).bytes, trace⟩ := by
  refine run_eq_ok.mpr ⟨by rw [size_payToWitnessKeyHash]; decide, ?_, rfl⟩
  rw [size_payToWitnessKeyHash]
  exact Step.operations_payToWitnessKeyHash

/-- The script for the hash of a key runs through on a signature and a key if the key has the
hash and the check of the signature goes through. -/
theorem run_payToKeyHash_eq_ok {env : Env} {hash : Hash160} {key sig : Bytes}
    {trace : List Event} {m : Machine} {a : Unit} :
    run env (payToKeyHash hash) [key, sig] trace = .ok a m ↔
      hash160 key = hash ∧ SignatureEncoded env.flags sig ∧
      KeyEncoded env.flags env.version key ∧ ∃ valid,
        env.checker.signature sig key
          (Step.signedCode env.version (payToKeyHash hash).bytes [sig]) env.version = .ok valid ∧
        (valid || !env.flags.nullFail || sig.isEmpty) ∧
        m = ⟨[ScriptNumber.ofBool valid], [], [], 4, (payToKeyHash hash).bytes,
          .signature sig key (Step.signedCode env.version (payToKeyHash hash).bytes [sig])
            env.version valid :: trace⟩ := by
  have hsize : (payToKeyHash hash).size ≤ maxScriptSize := by
    rw [size_payToKeyHash]
    decide
  rw [run_eq_ok, and_iff_right hsize, size_payToKeyHash, Machine.start,
    Step.operations_payToKeyHash]
  constructor
  · rintro ⟨hops, -⟩
    obtain ⟨_, hequal, hrest⟩ := Step.operations_executed_ok (by decide) rfl hops
    obtain ⟨item, under, hhashes, rfl⟩ := Step.equalVerify_ok hequal
    obtain ⟨rfl, hbelow⟩ := List.cons.inj hhashes
    obtain ⟨hkeyHash, rfl⟩ := List.cons.inj hbelow
    obtain ⟨_, hcheck, hrest⟩ := Step.operations_executed_ok (by decide) rfl hrest
    obtain ⟨hsig, hkey, valid, hvalid, hnull, rfl⟩ := (Step.checkSig_eq_ok rfl).mp hcheck
    obtain rfl := Step.operations_nil_ok hrest
    exact ⟨Digest.ext hkeyHash, hsig, hkey, valid, hvalid, hnull, rfl⟩
  · rintro ⟨rfl, hsig, hkey, valid, hvalid, hnull, rfl⟩
    refine ⟨?_, rfl⟩
    calc Step.operations env 22 [Opcode.equalVerify, Opcode.checkSig] _
      _ = Step.operations env 21 [Opcode.checkSig]
            ⟨[key, sig], [], [], 3, (payToKeyHash (hash160 key)).bytes, trace⟩ :=
          Step.operations_executed (by decide) (by decide) rfl (Nat.le_of_ble_eq_true rfl)
            (Step.equalVerify_of_stack rfl) (Nat.le_of_ble_eq_true rfl)
      _ = Step.operations env 20 [] _ :=
          Step.operations_executed (by decide) (by decide) rfl (Nat.le_of_ble_eq_true rfl)
            ((Step.checkSig_eq_ok rfl).mpr ⟨hsig, hkey, valid, hvalid, hnull, rfl⟩)
            (Nat.le_of_ble_eq_true rfl)
      _ = .ok () _ := Step.operations_nil 20

/-! ## The witness -/

/-- What a witness for the hash of a key holds: a signature and a key with that hash, both within
the limit on items and encoded as the flags ask, the signature accepted for the key. -/
structure SpendsKeyHash (spend : Spend) (hash : Hash160) (sig key : Bytes) : Prop where
  sig_size : sig.length ≤ 520
  key_size : key.length ≤ 520
  hash_key : hash160 key = hash
  sig_encoded : SignatureEncoded spend.flags sig
  key_encoded : KeyEncoded spend.flags .witnessV0 key
  accepted : spend.checker.signature sig key (payToKeyHash hash) .witnessV0 = .ok true

namespace Verification

variable {spend : Spend} {scriptSig : Script} {hash : Hash160} {witness : Witness}
  {trace trace' : List Event}

/-- Twenty bytes stand for the hash of a key. -/
theorem witnessScript_hash :
    witnessScript witness hash.bytes = (do
      demand (witness.length == 2) .witnessProgramMismatch
      pure (payToKeyHash hash, witness.reverse)) := by
  have hlength : ¬ hash.bytes.length = 32 := by
    rw [hash.length_bytes]
    decide
  rw [witnessScript, if_neg hlength, Digest.ofBytes?, dif_pos hash.length_bytes]

theorem run_eq_ok {version : HashVersion} {s : Script} {stack left : List Bytes} :
    run spend version s stack trace = .ok left trace' ↔
      ∃ m, Eval.run ⟨spend.flags, version, spend.checker⟩ s stack trace = .ok () m ∧
        m.stack = left ∧ m.trace = trace' := by
  constructor
  · exact run_ok
  · rintro ⟨m, hm, rfl, rfl⟩
    rw [run, hm]

/-- A witness satisfies the hash of a key exactly if it holds a signature and a key as asked. -/
theorem witnessProgram_hash_iff (trace : List Event) :
    (∃ trace', witnessProgram spend witness 0 hash.bytes trace = .ok () trace') ↔
      ∃ sig key, witness = [sig, key] ∧ SpendsKeyHash spend hash sig key := by
  rw [witnessProgram, if_pos rfl, witnessScript_hash]
  constructor
  · rintro ⟨trace', h⟩
    obtain ⟨_, _, hscript, h⟩ := bind_eq_ok.mp h
    obtain ⟨htwo, hscript⟩ := (bind_eq_ok_of_looks demand_eq_ok).mp hscript
    obtain ⟨rfl, rfl⟩ := pure_eq_ok.mp hscript
    obtain ⟨sig, key, rfl⟩ := List.length_eq_two.mp (beq_iff_eq.mp htwo)
    obtain ⟨hsizes, h⟩ := (bind_eq_ok_of_looks demand_eq_ok).mp h
    obtain ⟨left, after, hrun, h⟩ := bind_eq_ok.mp h
    obtain ⟨-, h⟩ := (bind_eq_ok_of_looks demand_eq_ok).mp h
    obtain ⟨htrue, -⟩ := demand_eq_ok.mp h
    obtain ⟨m, hm, rfl, rfl⟩ := run_ok hrun
    obtain ⟨hhash, hsig, hkey, valid, hvalid, -, rfl⟩ := run_payToKeyHash_eq_ok.mp hm
    have hsizes : key.length ≤ maxElementSize ∧ sig.length ≤ maxElementSize := by
      simpa using hsizes
    cases valid with
    | true => exact ⟨sig, key, rfl, hsizes.2, hsizes.1, hhash, hsig, hkey, hvalid⟩
    | false => cases htrue
  · rintro ⟨sig, key, rfl, hspends⟩
    have hsizes : ([sig, key].reverse.all fun item => item.length ≤ maxElementSize) = true :=
      List.all_eq_true.mpr (by simpa using ⟨hspends.key_size, hspends.sig_size⟩)
    have hrun : run spend .witnessV0 (payToKeyHash hash) [key, sig] trace =
        .ok [ScriptNumber.ofBool true]
          (.signature sig key (payToKeyHash hash) .witnessV0 true :: trace) :=
      run_eq_ok.mpr ⟨_, run_payToKeyHash_eq_ok.mpr ⟨hspends.hash_key, hspends.sig_encoded,
        hspends.key_encoded, true, hspends.accepted, rfl, rfl⟩, rfl, rfl⟩
    have hscript : (demand ([sig, key].length == 2) .witnessProgramMismatch >>= fun _ =>
        pure (payToKeyHash hash, [sig, key].reverse) : Verification _) trace =
        .ok (payToKeyHash hash, [key, sig]) trace := rfl
    refine ⟨.signature sig key (payToKeyHash hash) .witnessV0 true :: trace,
      (bind_of_ok hscript).trans ?_⟩
    exact (bind_eq_ok_of_looks demand_eq_ok).mpr ⟨hsizes, (bind_of_ok hrun).trans rfl⟩

theorem run_nil : run spend .legacy ⟨[]⟩ [] trace = .ok [] trace := rfl

theorem run_payToWitnessKeyHash :
    run spend .legacy (payTo (.witnessKeyHash hash)) [] trace = .ok [hash.bytes, []] trace :=
  run_eq_ok.mpr ⟨_, Eval.run_payToWitnessKeyHash, rfl, rfl⟩

/-- The one item that a witness program leaves counts as the stack, whatever the rules on it. -/
theorem witnessStage_hash (outcome : Outcome) (hflag : spend.flags.witness)
    (h : witnessProgram spend witness 0 hash.bytes trace = .ok () trace') :
    witnessStage spend (payTo (.witnessKeyHash hash)) witness true .witnessMalleated outcome trace =
      .ok ⟨outcome.stack.drop (outcome.stack.length - 1), true⟩ trace' := by
  rw [witnessStage, witnessProgram?_payToWitnessKeyHash]
  dsimp only
  rw [if_pos hflag, bind_eq_ok_of_looks demand_eq_ok, bind_of_ok h]
  exact ⟨rfl, rfl⟩

/-- A spend that goes through has an empty spending script, so it is known what the locking script
ran on. -/
theorem witness_of_spends (hflag : spend.flags.witness)
    (h : spends spend scriptSig (payTo (.witnessKeyHash hash)) witness [] = .ok () trace) :
    ScriptNumber.isTrue hash.bytes ∧ scriptSig.bytes = [] ∧
      ∃ trace', witnessProgram spend witness 0 hash.bytes [] = .ok () trace' := by
  obtain ⟨-, h⟩ := (bind_eq_ok_of_looks demand_eq_ok).mp h
  obtain ⟨left, before, hleft, h⟩ := bind_eq_ok.mp h
  obtain ⟨stack, after, hstack, h⟩ := bind_eq_ok.mp h
  obtain ⟨htrue, h⟩ := (bind_eq_ok_of_looks demand_eq_ok).mp h
  obtain ⟨_, _, hstage, -⟩ := bind_eq_ok.mp h
  rw [witnessStage, witnessProgram?_payToWitnessKeyHash] at hstage
  dsimp only at hstage
  rw [if_pos hflag] at hstage
  obtain ⟨hbare, hstage⟩ := (bind_eq_ok_of_looks demand_eq_ok).mp hstage
  obtain ⟨_, trace', hprogram, -⟩ := bind_eq_ok.mp hstage
  have hempty : scriptSig.bytes = [] := List.isEmpty_iff.mp hbare
  obtain rfl : scriptSig = ⟨[]⟩ := congrArg Script.mk hempty
  rw [run_nil] at hleft
  cases hleft
  rw [run_payToWitnessKeyHash] at hstack
  cases hstack
  exact ⟨htrue, rfl, trace', hprogram⟩

/-- Nothing is asked after the witness: no script hash is paid to, and one item is left. -/
theorem spends_of_witness (hflag : spend.flags.witness) (htrue : ScriptNumber.isTrue hash.bytes)
    (hprogram : witnessProgram spend witness 0 hash.bytes [] = .ok () trace) :
    spends spend ⟨[]⟩ (payTo (.witnessKeyHash hash)) witness [] = .ok () trace := by
  refine (bind_eq_ok_of_looks demand_eq_ok).mpr ⟨Bool.or_true _, ?_⟩
  rw [bind_of_ok run_nil, bind_of_ok run_payToWitnessKeyHash]
  refine (bind_eq_ok_of_looks demand_eq_ok).mpr ⟨htrue, ?_⟩
  refine (bind_of_ok (witnessStage_hash ⟨[hash.bytes, []], false⟩ hflag hprogram)).trans ?_
  rw [isScriptHash_payToWitnessKeyHash, Bool.and_false, if_neg Bool.false_ne_true]
  refine (bind_eq_ok_of_looks demand_eq_ok).mpr ⟨Bool.or_true _, ?_⟩
  exact demand_eq_ok.mpr ⟨by simp, rfl⟩

end Verification

/-- Whatever flags are in force beside the one under which witnesses are run, a witness key hash is
spent from exactly by a true hash, an empty spending script, and a signature and a key with that
hash as the witness, encoded as the flags ask, the signature accepted for the script that pays to
the hash of the key. -/
theorem spends_witnessKeyHash_iff (spend : Spend) (scriptSig : Script) (hash : Hash160)
    (witness : Witness) (hflag : spend.flags.witness) :
    (∃ trace, verifyScript spend scriptSig (payTo (.witnessKeyHash hash)) witness =
      .ok () trace) ↔
      ScriptNumber.isTrue hash.bytes ∧ scriptSig.bytes = [] ∧
        ∃ sig key, witness = [sig, key] ∧ SpendsKeyHash spend hash sig key := by
  rw [← Verification.witnessProgram_hash_iff []]
  constructor
  · rintro ⟨trace, h⟩
    exact Verification.witness_of_spends hflag h
  · rintro ⟨htrue, hempty, trace, hprogram⟩
    obtain rfl : scriptSig = ⟨[]⟩ := congrArg Script.mk hempty
    exact ⟨trace, Verification.spends_of_witness hflag htrue hprogram⟩

/-- All flags at once, and a signature and a key in the strictest forms. -/
theorem spends_witnessKeyHash_strict :
    let sig : Bytes := [0x30, 6, 2, 1, 1, 2, 1, 1, 1]
    let key : Bytes := 2 :: List.replicate 32 1
    let flags : Flags := ⟨true, true, true, true, true, true, true, true, true, true, true, true,
      true, true, true, true, true⟩
    let spend : Spend := ⟨flags, acceptingOne sig key⟩
    spend.flags.witness ∧
      ∃ trace, verifyScript spend ⟨[]⟩ (payTo (.witnessKeyHash (hash160 key))) [sig, key] =
        .ok () trace := by
  intro sig key flags spend
  have htrue : ScriptNumber.isTrue (hash160 key).bytes := by decide +kernel
  have hsig : SignatureEncoded flags sig :=
    ⟨fun _ _ => by decide +kernel, fun _ _ => by decide +kernel, fun _ _ => by decide +kernel⟩
  have hkey : KeyEncoded flags .witnessV0 key :=
    ⟨fun _ => by decide +kernel, fun _ _ => by decide +kernel⟩
  have hspends : SpendsKeyHash spend (hash160 key) sig key :=
    ⟨by decide, by decide, rfl, hsig, hkey, by decide +kernel⟩
  exact ⟨rfl, (spends_witnessKeyHash_iff spend ⟨[]⟩ (hash160 key) [sig, key] rfl).mpr
    ⟨htrue, rfl, sig, key, rfl, hspends⟩⟩

end Eval

end StakeChain
