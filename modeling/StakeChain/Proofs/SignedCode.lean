/-
Signers and the verification agree on what is signed.

A coin tells its signer from what it keeps which script a signature commits to, and in
which version. A verification finds both by following programs, the scripts behind
script hashes and witnesses. For coins that pay to a witness program of version zero,
bare or behind a script hash, the two agree: the locking script and the script behind a
script hash are the program and the hash of it, and check nothing themselves, and the
script that the witness reveals is the one that the program commits to, unless
another script with the same hash is known. Where the script behind a program looks
like a program itself, the signer takes it for one, but then it only pushes and checks
nothing.
-/
import StakeChain.Proofs.KeyHashSpend
import StakeChain.Proofs.Noted

namespace StakeChain

open Eval Stateful

/-! ## What is revealed -/

/-- Nothing else is shown with the same hash: by the spending script in place of the program, or by
the witness in place of the script that the program commits to. -/
structure Unforged (lock : WitnessLock) (scriptSig : Script) (witness : Witness) : Prop where
  program : ∀ item ∈ scriptSig.lastPush?, hash160 item = hash160 lock.program.bytes →
    item = lock.program.bytes
  script : ∀ s, lock = .script s → ∀ item ∈ witness.getLast?, sha256 item = sha256 s.bytes →
    item = s.bytes

/-! ## Scripts that check nothing -/

namespace Eval

open Script (IsSmall)

theorem plain_program (lock : WitnessLock) :
    ∀ op ∈ lock.program.ops, Step.Notes.IsPlainOp op := by
  rw [lock.ops_program]
  intro op hop
  rcases List.mem_pair.mp hop with rfl | rfl
  · trivial
  · trivial

theorem plain_payToScriptHash (hash : Hash160) :
    ∀ op ∈ (Script.payTo (.scriptHash hash)).ops, Step.Notes.IsPlainOp op := by
  have hhash : Instruction.ofOpcode Opcode.hash160 = .hashing .hash160 := rfl
  have hequal : Instruction.ofOpcode Opcode.equal = .equal false := rfl
  rw [Script.ops_payToScriptHash]
  simp [Step.Notes.IsPlainOp, hhash, hequal, Step.Framed.IsPlain]

theorem plain_of_isPushOnly {s : Script} (h : s.isPushOnly) :
    ∀ op ∈ s.ops, Step.Notes.IsPlainOp op := by
  intro op hop
  have hpush := List.all_eq_true.mp h op hop
  cases op with
  | invalid opcode | push opcode data => trivial
  | code opcode =>
      have hle : opcode ≤ Opcode.op16 := of_decide_eq_true (Bool.and_eq_true_iff.mp hpush).2
      change Step.Framed.IsPlain (Instruction.ofOpcode opcode)
      rcases Step.ofOpcode_of_le hle with ⟨n, -, hsmall⟩ | hunknown
      · rw [hsmall]
        trivial
      · rw [hunknown]
        trivial

/-- A small number's form, taken as a script, is no operation that does anything. -/
theorem plain_of_isSmall {n : Int} (h : IsSmall n) :
    ∀ op ∈ Script.ops ⟨ScriptNumber.encode n⟩, Step.Notes.IsPlainOp op := by
  rcases h with rfl | ⟨hpos, hle⟩
  · have hunknown : Instruction.ofOpcode 0x81 = .unknown := rfl
    have hops : Script.ops ⟨[0x81]⟩ = [.code 0x81] := rfl
    rw [Script.encode_negative1, hops]
    simp [Step.Notes.IsPlainOp, hunknown, Step.Framed.IsPlain]
  · obtain ⟨k, rfl⟩ := Int.eq_ofNat_of_zero_le (a := n) (by omega)
    have hops : ∀ k ≤ 16, k ≠ 0 →
        Script.ops ⟨[UInt8.ofNat k]⟩ = [.invalid (UInt8.ofNat k)] := by decide
    rw [Script.encode_of_le (by omega) (by omega), hops k (by omega) (by omega)]
    intro op hop
    obtain rfl := List.mem_singleton.mp hop
    trivial

/-! ## Behind a script hash -/

theorem Step.equal_ok {env : Env} {rest : Bytes} {m u : Machine} {a : Unit}
    (h : Step.execute env rest (.equal false) m = .ok a u) :
    ∃ x y under, m.stack = y :: x :: under ∧
      u = { m with stack := ScriptNumber.ofBool (x == y) :: under } := by
  obtain ⟨stack, alt, branches, n, code, trace⟩ := m
  rcases stack with _ | ⟨y, _ | ⟨x, under⟩⟩
  · cases h
  · cases h
  · cases h
    exact ⟨x, y, under, rfl, rfl⟩

/-- The script for a script hash compares the hash of the top item. -/
theorem Step.scriptHash_ok {env : Env} {hash : Hash160} {m u : Machine} {a : Unit}
    (hbranches : m.branches = [])
    (h : Step.operations env 23 (Opcode.hash160 :: 20 :: (hash.bytes ++ [Opcode.equal])) m =
      .ok a u) :
    ∃ item under, m.stack = item :: under ∧
      u.stack = ScriptNumber.ofBool ((hash160 item).bytes == hash.bytes) :: under := by
  obtain ⟨stack, alt, branches, n, code, trace⟩ := m
  obtain rfl : branches = [] := hbranches
  obtain ⟨_, hhash, hops⟩ := Step.operations_executed_ok (by decide) rfl h
  obtain ⟨item, under, hstack, rfl⟩ := Step.hashing_ok hhash
  have hops := Step.operations_pushed_ok (by decide) hash.length_bytes hops
  rw [if_pos (show Step.executing _ = true from rfl)] at hops
  obtain ⟨_, hequal, hops⟩ := Step.operations_executed_ok (by decide) rfl hops
  obtain ⟨x, y, _, hitems, rfl⟩ := Step.equal_ok hequal
  obtain rfl := Step.operations_nil_ok hops
  cases hitems
  exact ⟨item, under, hstack, rfl⟩

namespace Verification

variable {spend : Spend} {scriptSig : Script} {witness : Witness} {lock : WitnessLock}
  {I : List Event → Prop} {trace trace' : List Event}

/-- What is found under a script hash has that hash. -/
theorem hash160_of_run {hash : Hash160} {item : Bytes} {under stack : List Bytes}
    (h : run spend .legacy (Script.payTo (.scriptHash hash)) (item :: under) trace =
      .ok stack trace') (htrue : stack.head?.any ScriptNumber.isTrue) : hash160 item = hash := by
  obtain ⟨m, hm, rfl, -⟩ := run_ok h
  have hops := Step.script_ok hm
  rw [Script.length_payToScriptHash, Script.bytes_payToScriptHash] at hops
  obtain ⟨_, _, hstack, hleft⟩ := Step.scriptHash_ok rfl hops
  cases hstack
  rw [hleft] at htrue
  by_contra hne
  have hdiffer : ((hash160 item).bytes == hash.bytes) = false :=
    beq_false_of_ne fun heq => hne (Digest.ext heq)
  rw [hdiffer] at htrue
  cases htrue

theorem preserves_demand (condition : Bool) (e : ScriptError) :
    Preserves I (demand condition e) :=
  .ite (fun _ => .pure ()) fun _ => .throw _

/-- The witness reveals the script that the program commits to. -/
theorem witnessScript_eq {code : Script} {stack : List Bytes}
    (hunforged : Unforged lock scriptSig witness)
    (h : witnessScript witness lock.hash trace = .ok (code, stack) trace') : code = lock.code := by
  cases lock with
  | keyHash hash =>
      have hscript := h
      rw [WitnessLock.hash, witnessScript_hash] at hscript
      obtain ⟨-, hpure⟩ := (bind_eq_ok_of_looks demand_eq_ok).mp hscript
      obtain ⟨hpair, -⟩ := pure_eq_ok.mp hpure
      cases hpair
      rfl
  | script s =>
      rw [WitnessLock.hash, witnessScript, if_pos (sha256 s.bytes).length_bytes] at h
      cases hlast : witness.reverse with
      | nil =>
          rw [hlast] at h
          exact absurd h throw_ne_ok
      | cons last items =>
          rw [hlast] at h
          obtain ⟨hequal, hpure⟩ := (bind_eq_ok_of_looks demand_eq_ok).mp h
          obtain ⟨hpair, -⟩ := pure_eq_ok.mp hpure
          cases hpair
          have hget : witness.getLast? = some last := by
            rw [← List.head?_reverse, hlast, List.head?_cons]
          have hhash : sha256 last = sha256 s.bytes := Digest.ext (beq_iff_eq.mp hequal)
          exact congrArg Script.mk (hunforged.script s rfl last hget hhash)

/-- What the run of the script behind a program keeps, the run of the program keeps. -/
theorem preserves_witnessProgram (hunforged : Unforged lock scriptSig witness)
    (hrun : ∀ stack, Preserves I (run spend .witnessV0 lock.code stack)) :
    Preserves I (witnessProgram spend witness 0 lock.hash) := by
  have hscript : Preserves I (witnessScript witness lock.hash) := by
    rw [witnessScript]
    refine .ite (fun _ => ?_) fun _ => ?_
    · split
      · exact .throw _
      · exact (preserves_demand _ _).bind fun _ _ _ _ => .pure _
    · split
      · exact (preserves_demand _ _).bind fun _ _ _ _ => .pure _
      · exact .throw _
  rw [witnessProgram, if_pos rfl]
  refine hscript.bind fun revealed _ _ h => ?_
  obtain ⟨code, stack⟩ := revealed
  obtain rfl := witnessScript_eq hunforged h
  refine (preserves_demand _ _).bind fun _ _ _ _ => (hrun stack).bind fun _ _ _ _ => ?_
  exact (preserves_demand _ _).bind fun _ _ _ _ => preserves_demand _ _

theorem preserves_witnessStage (hunforged : Unforged lock scriptSig witness)
    (hrun : ∀ stack, Preserves I (run spend .witnessV0 lock.code stack)) (bare : Bool)
    (e : ScriptError) (outcome : Outcome) :
    Preserves I (witnessStage spend lock.program witness bare e outcome) := by
  rw [witnessStage, lock.witnessProgram?_program]
  refine .ite (fun _ => ?_) fun _ => .pure _
  refine (preserves_demand _ _).bind fun _ _ _ _ => ?_
  exact (preserves_witnessProgram hunforged hrun).bind fun _ _ _ _ => .pure _

theorem preserves_witnessStage_none {locking : Script} (h : locking.witnessProgram? = none)
    (bare : Bool) (e : ScriptError) (outcome : Outcome) :
    Preserves I (witnessStage spend locking witness bare e outcome) := by
  rw [witnessStage, h]
  exact .pure _

/-- The script behind the script hash is the program, or does nothing at all. -/
theorem preserves_redeemStage (hunforged : Unforged lock scriptSig witness)
    (hrun : ∀ stack, Preserves I (run spend .witnessV0 lock.code stack))
    {left : List Bytes} (htop : TopIsLast scriptSig.lastPush? left)
    (hhash : ∀ item ∈ left.head?, hash160 item = hash160 lock.program.bytes)
    (outcome : Outcome) : Preserves I (redeemStage spend scriptSig witness left outcome) := by
  refine (preserves_demand _ _).bind fun _ _ _ _ => ?_
  cases left with
  | nil => exact .throw _
  | cons redeem stack =>
      rcases htop redeem rfl with hlast | ⟨n, hn, rfl⟩
      · obtain rfl := hunforged.program redeem hlast (hhash redeem rfl)
        refine (preserves_run_plain (plain_program lock)).bind fun _ _ _ _ => ?_
        refine (preserves_demand _ _).bind fun _ _ _ _ => ?_
        exact preserves_witnessStage hunforged hrun _ _ _
      · refine (preserves_run_plain (plain_of_isSmall hn)).bind fun _ _ _ _ => ?_
        refine (preserves_demand _ _).bind fun _ _ _ _ => ?_
        exact preserves_witnessStage_none (Script.inert_of_isSmall hn).2 _ _ _

/-- What the run of the script behind a program keeps, a spend of a coin that pays to the program
keeps. -/
theorem preserves_spends {c : Coin} (hpays : c.PaysTo lock) (hpush : scriptSig.isPushOnly)
    (hunforged : Unforged lock scriptSig witness)
    (hrun : ∀ stack, Preserves I (run spend .witnessV0 lock.code stack)) :
    Preserves I (spends spend scriptSig c.output.script witness) := by
  have hend : ∀ outcome : Outcome, Preserves I (do
      demand (!spend.flags.cleanStack || outcome.stack.length == 1) .cleanStack
      demand (!spend.flags.witness || outcome.usedWitness || witness.isEmpty)
        .witnessUnexpected) :=
    fun _ => (preserves_demand _ _).bind fun _ _ _ _ => preserves_demand _ _
  refine (preserves_demand _ _).bind fun _ _ _ _ => ?_
  refine (preserves_run_plain (plain_of_isPushOnly hpush)).bind fun left _ _ hleft => ?_
  cases hpays with
  | bare output redeem =>
      rw [output, lock.isScriptHash_program, Bool.and_false]
      refine (preserves_run_plain (plain_program lock)).bind fun stack _ _ _ => ?_
      refine (preserves_demand _ _).bind fun _ _ _ _ => ?_
      exact (preserves_witnessStage hunforged hrun _ _ _).bind fun outcome _ _ _ => hend outcome
  | nested output redeem =>
      rw [output]
      refine (preserves_run_plain (plain_payToScriptHash _)).bind fun stack _ _ hstack => ?_
      refine (preserves_demand _ _).bind fun _ _ _ htrue => ?_
      have hnone := Script.witnessProgram?_of_isScriptHash
        (Script.isScriptHash_payToScriptHash (hash160 lock.program.bytes))
      refine (preserves_witnessStage_none hnone _ _ _).bind fun outcome _ _ _ => ?_
      refine .ite (fun _ => ?_) fun _ => hend outcome
      refine (preserves_redeemStage hunforged hrun (topIsLast_run hpush hleft) ?_ _).bind
        fun outcome _ _ _ => hend outcome
      rintro item hitem
      cases left with
      | nil => cases hitem
      | cons top under =>
          cases hitem
          exact hash160_of_run hstack (demand_eq_ok.mp htrue).1

end Verification

end Eval

/-- Before a code separator, whatever signature is checked while a coin is spent that pays to a
witness program of version zero, bare or behind a script hash, is checked over the script and in
the version that the coin tells its signer, under any flags and however the spend ends. -/
theorem Coin.signed_as_told (c : Coin) (lock : WitnessLock) (spend : Spend) (scriptSig : Script)
    (witness : Witness) (hpays : c.PaysTo lock) (hpush : scriptSig.isPushOnly)
    (hunforged : Unforged lock scriptSig witness) (later earlier : List Event)
    (sig key : Bytes) (code : Script) (version : HashVersion) (accepted : Bool)
    (hcheck : endOf (verifyScript spend scriptSig c.output.script witness) =
      later ++ .signature sig key code version accepted :: earlier)
    (hbefore : .codeSeparator ∉ earlier) :
    code = c.scriptCode ∧ version = c.hashVersion := by
  have hrun : ∀ stack, Preserves (UpToSeparator (Event.Over .witnessV0 c.scriptCode.bytes))
      (Verification.run spend .witnessV0 lock.code stack) := by
    intro stack
    rcases hpays.scriptCode_eq with hcode | ⟨hash, hcode⟩
    · rw [hcode]
      exact Verification.preserves_run
    · rw [hcode]
      exact Verification.preserves_run_plain (plain_program _)
  have hspends := (Verification.preserves_spends hpays hpush hunforged hrun).endOf .nil
  obtain ⟨rfl, sigs, rfl⟩ := hspends _ earlier (hcheck ▸ List.suffix_append later _) hbefore
  exact ⟨rfl, hpays.hashVersion_eq.symm⟩

/-- A script behind a program behind a script hash, which checks a signature on both sides of a
separator. -/
theorem Coin.signed_as_told_nested :
    let s : Script :=
      ⟨[Opcode.dup2, Opcode.checkSigVerify, Opcode.codeSeparator, Opcode.checkSig]⟩
    let program := (WitnessLock.script s).program
    let c : Coin :=
      { output := ⟨5, Script.payTo (.scriptHash (hash160 program.bytes))⟩
        height := 1
        isCoinbase := false
        isCoinstake := false
        time := 0
        redeemScript := some s }
    let spend : Spend := ⟨{ Flags.none with p2sh := true, witness := true }, acceptingOne [1] [2]⟩
    let scriptSig : Script := ⟨Script.pushData program.bytes⟩
    endOf (verifyScript spend scriptSig c.output.script [[1], [2], s.bytes]) =
        [.signature [1] [2] ⟨[Opcode.checkSig]⟩ .witnessV0 true, .codeSeparator] ++
          [.signature [1] [2] s .witnessV0 true] ∧
      s = c.scriptCode ∧ .witnessV0 = c.hashVersion := by
  intro s program c spend scriptSig
  have hcheck : endOf (verifyScript spend scriptSig c.output.script [[1], [2], s.bytes]) =
      [.signature [1] [2] ⟨[Opcode.checkSig]⟩ .witnessV0 true, .codeSeparator] ++
        [.signature [1] [2] s .witnessV0 true] := by decide +kernel
  have hpush : scriptSig.isPushOnly := by decide +kernel
  have hlast : scriptSig.lastPush? = some program.bytes := by decide +kernel
  have hunforged : Unforged (.script s) scriptSig [[1], [2], s.bytes] := by
    refine ⟨?_, ?_⟩
    · intro item hitem _
      rw [hlast] at hitem
      exact (Option.some.inj hitem).symm
    · rintro _ ⟨⟩ item ⟨⟩ _
      rfl
  exact ⟨hcheck, c.signed_as_told (.script s) spend scriptSig _ (.nested rfl rfl) hpush hunforged
    _ _ _ _ _ _ _ hcheck (List.not_mem_nil)⟩

end StakeChain
