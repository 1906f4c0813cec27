/-
How many signatures a spend checks.

A verification runs up to three scripts, the third being a witness program
of its own or one behind a script hash. The count that is made before a
block's scripts run adds up the same scripts without running any. The two
agree on where the script behind a script hash is found: the scan looks at
the last push of the spending script, the run at the top of the stack that
the spending script leaves. Where they differ, the top is a small number,
which as a script checks nothing and is no witness program.
-/
import StakeChain.Proofs.SigChecks

namespace StakeChain.Eval

open Stateful

/-! ## The last push and the top of the stack -/

/-- The top item is the last push, or a small number. -/
def TopIsLast (last : Option Bytes) (stack : List Bytes) : Prop :=
  ∀ item, stack.head? = some item →
    last = some item ∨ ∃ n, Script.IsSmall n ∧ item = ScriptNumber.encode n

theorem topIsLast_operations {env : Env} {fuel : Nat} {bs : Bytes} {last : Option Bytes}
    {m u : Machine} {a : Unit}
    (hpush : (Script.opsWithin fuel bs).all fun op => op.isValid && op.opcode ≤ Opcode.op16)
    (hm : m.branches = []) (hlast : TopIsLast last m.stack)
    (h : Step.operations env fuel bs m = .ok a u) :
    TopIsLast (Script.lastPushFrom last (Script.opsWithin fuel bs)) u.stack := by
  induction fuel generalizing bs last m with
  | zero =>
      obtain ⟨-, rfl⟩ := pure_eq_ok.mp h
      exact hlast
  | succ fuel ih =>
      have hexec : Step.executing m := by rw [Step.executing, hm]; rfl
      rw [Step.operations] at h
      rw [Script.opsWithin] at hpush ⊢
      cases hop : Op.decode bs with
      | none =>
          rw [hop] at h
          obtain ⟨-, rfl⟩ := pure_eq_ok.mp h
          exact hlast
      | some next =>
          obtain ⟨op, rest⟩ := next
          rw [hop] at h hpush
          obtain ⟨_, w, hoperation, hrest⟩ := bind_eq_ok.mp h
          obtain ⟨hfirst, hothers⟩ := Bool.and_eq_true_iff.mp (List.all_cons.symm.trans hpush)
          dsimp only
          cases op with
          | invalid opcode => exact absurd hoperation throw_ne_ok
          | push opcode data =>
              obtain ⟨hbranches, hstack⟩ := Step.operation_push_ok hoperation hexec
              refine ih hothers (hbranches.trans hm) ?_ hrest
              rw [hstack]
              rintro item ⟨⟩
              exact .inl rfl
          | code opcode =>
              have hle : opcode ≤ Opcode.op16 :=
                of_decide_eq_true (Bool.and_eq_true_iff.mp hfirst).2
              obtain ⟨hbranches, hpushed⟩ := Step.operation_code_ok hle hoperation
              obtain ⟨n, hn, -, hstack⟩ := hpushed hexec
              rw [Script.lastPushFrom, if_pos hle]
              refine ih hothers (hbranches.trans hm) ?_ hrest
              rw [hstack]
              rintro item ⟨⟩
              exact .inr ⟨n, hn, rfl⟩

namespace Verification

theorem topIsLast_run {spend : Spend} {version : HashVersion} {s : Script} {left : List Bytes}
    {trace trace' : List Event} (hpush : s.isPushOnly)
    (h : run spend version s [] trace = .ok left trace') : TopIsLast s.lastPush? left := by
  rw [run] at h
  split at h
  · next u m hm =>
      cases h
      obtain ⟨_, _, hsize, hrest⟩ := bind_eq_ok.mp hm
      obtain ⟨_, w, hops, hend⟩ := bind_eq_ok.mp hrest
      obtain ⟨-, rfl⟩ := Step.demand_eq_ok.mp hsize
      obtain ⟨_, _, hget, hbranches⟩ := bind_eq_ok.mp hend
      obtain ⟨rfl, rfl⟩ := get_eq_ok.mp hget
      obtain ⟨-, rfl⟩ := Step.demand_eq_ok.mp hbranches
      rw [Script.isPushOnly, Script.ops_eq] at hpush
      rw [Script.lastPush?, Script.ops_eq]
      exact topIsLast_operations hpush rfl (by rintro item ⟨⟩) hops
  · cases h

/-! ## What each part adds -/

theorem demand_grows (condition : Bool) (e : ScriptError) (trace : List Event) :
    Grows signatureChecks 0 (demand condition e) trace :=
  Grows.ite (fun _ => Grows.pure _ _) fun _ => Grows.throw _ _

/-- However the run of a script ends, what happened is what its machine noted. -/
theorem endOf_run (spend : Spend) (version : HashVersion) (s : Script) (stack : List Bytes)
    (trace : List Event) : endOf (run spend version s stack trace) =
      (endOf (Eval.run ⟨spend.flags, version, spend.checker⟩ s stack trace)).trace := by
  rw [run]
  split <;> next heq => rw [heq]; rfl

theorem run_grows (spend : Spend) (version : HashVersion) (s : Script) (stack : List Bytes)
    (trace : List Event) :
    Grows signatureChecks (s.sigOpCount true) (run spend version s stack) trace where
  le := by
    have hrun := Eval.run_grows ⟨spend.flags, version, spend.checker⟩ s stack trace
    rw [endOf_run]
    omega

theorem demand_eq_ok {c : Bool} {e : ScriptError} {trace trace' : List Event} {a : Unit} :
    demand c e trace = .ok a trace' ↔ c ∧ trace' = trace := by
  cases c with
  | true => exact pure_eq_ok.trans (and_congr_left' (iff_of_true rfl rfl))
  | false => exact iff_of_false throw_ne_ok nofun

theorem witnessScript_grows (witness : Witness) (program : Bytes) (trace : List Event) :
    Grows signatureChecks 0 (witnessScript witness program) trace := by
  rw [witnessScript]
  split
  · split
    · exact Grows.throw _ _
    · exact (demand_grows _ _ _).bind_free fun _ _ _ => Grows.pure _ _
  · split
    · exact (demand_grows _ _ _).bind_free fun _ _ _ => Grows.pure _ _
    · exact Grows.throw _ _

/-- The script of a witness program counts for no more than the program. -/
theorem witnessScript_ok {witness : Witness} {program : Bytes} {code : Script}
    {stack : List Bytes} {trace trace' : List Event}
    (h : witnessScript witness program trace = .ok (code, stack) trace') :
    code.sigOpCount true ≤ witnessProgramSigOps 0 program witness := by
  rw [witnessScript] at h
  split at h
  · next hlength =>
      cases hlast : witness.reverse with
      | nil =>
          rw [hlast] at h
          exact absurd h throw_ne_ok
      | cons last items =>
          rw [hlast] at h
          obtain ⟨_, _, -, h⟩ := bind_eq_ok.mp h
          obtain ⟨hcode, -⟩ := pure_eq_ok.mp h
          cases hcode
          have hget : witness.getLast? = some last := by
            rw [← List.head?_reverse, hlast, List.head?_cons]
          simp [witnessProgramSigOps, hlength, hget]
  · cases hhash : Digest.ofBytes? 20 program with
    | none =>
        rw [hhash] at h
        exact absurd h throw_ne_ok
    | some hash =>
        rw [hhash] at h
        obtain ⟨_, _, -, h⟩ := bind_eq_ok.mp h
        obtain ⟨hcode, -⟩ := pure_eq_ok.mp h
        cases hcode
        rw [Digest.ofBytes?] at hhash
        split at hhash
        · next hlength =>
            rw [Script.sigOpCount_payToKeyHash]
            simp [witnessProgramSigOps, hlength]
        · cases hhash

theorem witnessProgram_grows (spend : Spend) (witness : Witness) (version : Nat) (program : Bytes)
    (trace : List Event) :
    Grows signatureChecks (witnessProgramSigOps version program witness)
      (witnessProgram spend witness version program) trace := by
  refine Grows.ite (fun hversion => ?_) fun _ => (demand_grows _ _ _).mono (Nat.zero_le _)
  subst hversion
  refine (witnessScript_grows witness program trace).bind_free fun ⟨code, stack⟩ t h => ?_
  refine (demand_grows _ _ t).bind_free fun _ t _ => ?_
  refine ((run_grows spend .witnessV0 code stack t).mono (witnessScript_ok h)).before_free
    fun left t _ => ?_
  exact (demand_grows _ _ t).bind_free fun _ t _ => demand_grows _ _ t

/-- What a script counts for as a witness program. -/
def programSigOps (f : Flags) (s : Script) (witness : Witness) : Nat :=
  if f.witness then
    match s.witnessProgram? with
    | some (version, program) => witnessProgramSigOps version program witness
    | none => 0
  else 0

theorem witnessStage_grows (spend : Spend) (s : Script) (witness : Witness) (bare : Bool)
    (e : ScriptError) (outcome : Outcome) (trace : List Event) :
    Grows signatureChecks (programSigOps spend.flags s witness)
      (witnessStage spend s witness bare e outcome) trace := by
  rw [witnessStage, programSigOps]
  cases s.witnessProgram? with
  | none => exact Grows.pure _ trace
  | some program =>
      dsimp only
      split
      · refine (demand_grows _ _ trace).bind_free fun _ t _ => ?_
        exact (witnessProgram_grows spend witness _ _ t).before_free fun _ t _ => Grows.pure _ t
      · exact Grows.pure _ trace

/-- The scan finds the script that a spend reveals, or that script counts for nothing. -/
theorem revealed_le (f : Flags) (witness : Witness) {scriptSig locking : Script} {redeem : Bytes}
    (hhash : locking.isScriptHash) (hpush : scriptSig.isPushOnly)
    (h : scriptSig.lastPush? = some redeem ∨
      ∃ n, Script.IsSmall n ∧ redeem = ScriptNumber.encode n) :
    Script.sigOpCount ⟨redeem⟩ true ≤ locking.p2shSigOpCount scriptSig ∧
      programSigOps f ⟨redeem⟩ witness ≤ witnessSigOps scriptSig locking witness f := by
  rcases h with hlast | ⟨n, hn, rfl⟩
  · constructor
    · rw [Script.p2shSigOpCount, if_pos hhash, hlast]
    · rw [programSigOps, witnessSigOps, spentProgram?,
        Script.witnessProgram?_of_isScriptHash hhash]
      simp only [hhash, hpush, hlast, Bool.and_self, ↓reduceIte, Option.bind_some]
      exact Nat.le_refl _
  · obtain ⟨hcount, hprogram⟩ := Script.inert_of_isSmall hn
    rw [hcount, programSigOps, hprogram]
    simp

/-- What the script behind a script hash adds, itself and as a witness program. -/
theorem redeemStage_grows (spend : Spend) {scriptSig locking : Script} (witness : Witness)
    (hhash : locking.isScriptHash) {left : List Bytes} {start next : List Event}
    (hleft : run spend .legacy scriptSig [] start = .ok left next) (outcome : Outcome)
    (trace : List Event) :
    Grows signatureChecks
      (locking.p2shSigOpCount scriptSig + witnessSigOps scriptSig locking witness spend.flags)
      (redeemStage spend scriptSig witness left outcome) trace := by
  refine (demand_grows _ _ trace).bind_free fun _ t hdemand => ?_
  split
  · exact Grows.throw _ t
  · next redeem stack =>
      have hpush := (demand_eq_ok.mp hdemand).1
      obtain ⟨hcount, hprogram⟩ := revealed_le spend.flags witness hhash hpush
        (topIsLast_run hpush hleft redeem rfl)
      refine ((run_grows spend .legacy ⟨redeem⟩ stack t).mono hcount).bind fun stack t _ => ?_
      refine (demand_grows _ _ t).bind_free fun _ t _ => ?_
      exact (witnessStage_grows spend ⟨redeem⟩ witness _ _ _ t).mono hprogram

/-- A script that pays to a script hash is no witness program itself, so that only one of the two
stages adds to the checks. -/
theorem programSigOps_locking (f : Flags) (scriptSig locking : Script) (witness : Witness) :
    programSigOps f locking witness =
      if locking.isScriptHash then 0 else witnessSigOps scriptSig locking witness f := by
  split
  · next hhash => simp [programSigOps, Script.witnessProgram?_of_isScriptHash hhash]
  · next hhash =>
      rw [programSigOps, witnessSigOps, spentProgram?]
      cases locking.witnessProgram? with
      | some program => rfl
      | none => simp [hhash]

theorem spends_grows (spend : Spend) (scriptSig locking : Script) (witness : Witness)
    (trace : List Event) :
    Grows signatureChecks
      (scriptSig.sigOpCount true + locking.sigOpCount true
        + (if spend.flags.p2sh && locking.isScriptHash then locking.p2shSigOpCount scriptSig else 0)
        + witnessSigOps scriptSig locking witness spend.flags)
      (spends spend scriptSig locking witness) trace := by
  refine (demand_grows _ _ trace).bind_free fun _ t _ => ?_
  rw [Nat.add_assoc, Nat.add_assoc]
  refine (run_grows spend .legacy scriptSig [] t).bind fun left next hleft => ?_
  refine (run_grows spend .legacy locking left next).bind fun stack t _ => ?_
  refine (demand_grows _ _ t).bind_free fun _ t _ => ?_
  have hlast : ∀ (o : Outcome) t, Grows signatureChecks 0
      (do demand (!spend.flags.cleanStack || o.stack.length == 1) .cleanStack
          demand (!spend.flags.witness || o.usedWitness || witness.isEmpty) .witnessUnexpected)
      t := fun o t => (demand_grows _ _ t).bind_free fun _ t _ => demand_grows _ _ t
  have hstage := witnessStage_grows spend locking witness scriptSig.bytes.isEmpty .witnessMalleated
    ⟨stack, false⟩ t
  rw [programSigOps_locking _ scriptSig] at hstage
  cases hhash : locking.isScriptHash with
  | true =>
      rw [hhash, if_pos rfl] at hstage
      refine hstage.bind_free fun o t _ => ?_
      refine Grows.ite (fun hp2sh => ?_) fun _ => (hlast o t).mono (Nat.zero_le _)
      rw [if_pos hp2sh]
      exact (redeemStage_grows spend witness hhash hleft o t).before_free fun o t _ => hlast o t
  | false =>
      rw [hhash, if_neg Bool.false_ne_true] at hstage
      rw [Bool.and_false, if_neg Bool.false_ne_true, Nat.zero_add]
      exact hstage.before_free fun o t _ => hlast o t

end Verification

/-- Counting bounds checking. However it ends, the run of a script on any stack checks at most as
many signatures as the accurate scan of the script counts, and at most as many as operations may
be counted; and a verification checks at most as many as the scans of its two scripts count, with
that of the script behind a script hash, where such scripts are run, and that of the witness. -/
theorem checks_within_counts :
    (∀ env s stack trace,
      signatureChecks (endOf (run env s stack trace)).trace ≤
        signatureChecks trace + min maxOpCount (s.sigOpCount true)) ∧
    ∀ spend scriptSig locking witness,
      signatureChecks (endOf (verifyScript spend scriptSig locking witness)) ≤
        scriptSig.sigOpCount true + locking.sigOpCount true
          + (if spend.flags.p2sh && locking.isScriptHash then locking.p2shSigOpCount scriptSig
            else 0)
          + witnessSigOps scriptSig locking witness spend.flags := by
  refine ⟨run_grows, fun spend scriptSig locking witness => ?_⟩
  have hspends := (Verification.spends_grows spend scriptSig locking witness []).le
  rwa [show signatureChecks [] = 0 from rfl, Nat.zero_add] at hspends

end StakeChain.Eval
