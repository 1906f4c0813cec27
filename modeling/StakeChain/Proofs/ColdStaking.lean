/-
Who may spend from a cold-staking script.

The script keeps two key hashes apart by a conditional: where the selecting
item is true, the transaction has to stake and the key has to be the hot
one; where it is false, the key has to be the cold one. What a run finds
under the key is whatever the spending script left there, so nothing is
asked of that script. It is enough to follow the eleven operations.
-/
import StakeChain.Proofs.Execution
import StakeChain.Proofs.SigBound

namespace StakeChain

open Stateful Eval

namespace Script

/-- The end of a cold-staking script: the hash of the key is the chosen one, and the key has
signed. -/
def coldStakingEnd : Bytes :=
  [Opcode.endIf, Opcode.equalVerify, Opcode.checkSig]

/-- A cold-staking script after its conditional was opened. -/
def coldStakingBranches (hot cold : Hash160) : Bytes :=
  Opcode.checkColdStakeVerify :: 20 :: (hot.bytes ++
    Opcode.otherwise :: 20 :: (cold.bytes ++ coldStakingEnd))

theorem bytes_payToColdStaking (hot cold : Hash160) :
    (payToColdStaking hot cold).bytes =
      Opcode.dup :: Opcode.hash160 :: Opcode.rot :: Opcode.ifTrue ::
        coldStakingBranches hot cold := by
  simp [payToColdStaking, pushData, coldStakingBranches, coldStakingEnd, hot.length_bytes,
    cold.length_bytes]

theorem length_payToColdStaking (hot cold : Hash160) :
    (payToColdStaking hot cold).bytes.length = 51 := by
  simp [bytes_payToColdStaking, coldStakingBranches, coldStakingEnd, hot.length_bytes,
    cold.length_bytes]

theorem ops_payToColdStaking (hot cold : Hash160) :
    (payToColdStaking hot cold).ops =
      [.code Opcode.dup, .code Opcode.hash160, .code Opcode.rot, .code Opcode.ifTrue,
        .code Opcode.checkColdStakeVerify, .push 20 hot.bytes, .code Opcode.otherwise,
        .push 20 cold.bytes, .code Opcode.endIf, .code Opcode.equalVerify,
        .code Opcode.checkSig] := by
  rw [ops_eq, length_payToColdStaking, bytes_payToColdStaking]
  simp only [coldStakingBranches, coldStakingEnd, opsWithin,
    Op.decode_of_gt (show Opcode.dup > Opcode.pushData4 by decide),
    Op.decode_of_gt (show Opcode.hash160 > Opcode.pushData4 by decide),
    Op.decode_of_gt (show Opcode.rot > Opcode.pushData4 by decide),
    Op.decode_of_gt (show Opcode.ifTrue > Opcode.pushData4 by decide),
    Op.decode_of_gt (show Opcode.checkColdStakeVerify > Opcode.pushData4 by decide),
    Op.decode_of_gt (show Opcode.otherwise > Opcode.pushData4 by decide),
    Op.decode_of_gt (show Opcode.endIf > Opcode.pushData4 by decide),
    Op.decode_of_gt (show Opcode.equalVerify > Opcode.pushData4 by decide),
    Op.decode_of_gt (show Opcode.checkSig > Opcode.pushData4 by decide),
    Op.decode_append (show 20 < Opcode.pushData1 by decide) hot.length_bytes,
    Op.decode_append (show 20 < Opcode.pushData1 by decide) cold.length_bytes]
  rfl

/-- What is built is recognized. -/
theorem coldStaking?_payToColdStaking (hot cold : Hash160) :
    (payToColdStaking hot cold).coldStaking? = some (hot, cold) := by
  rw [coldStaking?, ops_payToColdStaking]
  simp [Digest.ofBytes?, hot.length_bytes, cold.length_bytes]

end Script

namespace Eval

open Script (payToColdStaking coldStakingBranches coldStakingEnd)

namespace Step

variable {env : Env} {m u : Machine} {a : Unit} {fuel : Nat} {hot cold : Hash160}

/-! ## The branches -/

theorem coldStakingEnd_ok {taken : Bool} (hbranches : m.branches = [taken])
    (h : operations env (fuel + 3) coldStakingEnd m = .ok a u) :
    ∃ hash key sig under code valid, m.stack = hash :: hash :: key :: sig :: under ∧
      env.checker.signature sig key code env.version = .ok valid ∧
      u.stack = ScriptNumber.ofBool valid :: under ∧
      u.trace = .signature sig key code env.version valid :: m.trace := by
  obtain ⟨_, hendIf, hrest⟩ := operations_executed_ok (by decide) (Bool.or_true _) h
  obtain ⟨_, outer, hopen, rfl⟩ := endIf_ok hendIf
  obtain rfl : outer = [] := (List.cons.inj (hopen.symm.trans hbranches)).2
  obtain ⟨_, hequal, hrest⟩ := operations_executed_ok (by decide) rfl hrest
  obtain ⟨hash, _, hstack, rfl⟩ := equalVerify_ok hequal
  obtain ⟨_, hcheck, hrest⟩ := operations_executed_ok (by decide) rfl hrest
  obtain ⟨key, sig, under, code, valid, rfl, hvalid, rfl⟩ := checkSig_ok hcheck
  obtain rfl := operations_nil_ok hrest
  exact ⟨hash, key, sig, under, code, valid, hstack, hvalid, rfl, rfl⟩

/-- From the end of the hot branch on. The cold hash is pushed if that branch was not taken. -/
theorem coldStakingElse_ok {taken : Bool} (hbranches : m.branches = [taken])
    (h : operations env (fuel + 5)
      (Opcode.otherwise :: 20 :: (cold.bytes ++ coldStakingEnd)) m = .ok a u) :
    ∃ hash key sig under code valid,
      (if taken then m.stack else cold.bytes :: m.stack) = hash :: hash :: key :: sig :: under ∧
      env.checker.signature sig key code env.version = .ok valid ∧
      u.stack = ScriptNumber.ofBool valid :: under ∧
      u.trace = .signature sig key code env.version valid :: m.trace := by
  obtain ⟨_, helse, hrest⟩ := operations_executed_ok (by decide) (Bool.or_true _) h
  obtain ⟨_, _, hopen, rfl⟩ := otherwise_ok helse
  obtain ⟨rfl, rfl⟩ := List.cons.inj (hbranches.symm.trans hopen)
  have hrest := operations_pushed_ok (by decide) cold.length_bytes hrest
  cases taken with
  | true =>
      rw [if_neg (by exact Bool.false_ne_true)] at hrest
      have hend := coldStakingEnd_ok rfl hrest
      exact hend
  | false =>
      rw [if_pos (by rfl)] at hrest
      exact coldStakingEnd_ok rfl hrest

/-- The branch of the hot key. -/
theorem hotBranch_ok (hflag : env.flags.checkColdStakeVerify) (hbranches : m.branches = [true])
    (h : operations env (fuel + 7) (coldStakingBranches hot cold) m = .ok a u) :
    env.checker.coldStake ∧
      ∃ key sig under code valid, m.stack = hot.bytes :: key :: sig :: under ∧
        env.checker.signature sig key code env.version = .ok valid ∧
        u.stack = ScriptNumber.ofBool valid :: under ∧
        u.trace = .signature sig key code env.version valid :: .coldStake true :: m.trace := by
  have hruns : executing m := by rw [executing, hbranches]; rfl
  obtain ⟨_, hask, hrest⟩ := operations_executed_ok (by decide) (by rw [hruns]; rfl) h
  obtain ⟨hstakes, rfl⟩ := checkColdStake_ok hflag hask
  have hrest := operations_pushed_ok (by decide) hot.length_bytes hrest
  rw [if_pos (by exact hruns)] at hrest
  obtain ⟨_, key, sig, under, code, valid, hstack, hvalid, hleft, htrace⟩ :=
    coldStakingElse_ok (by exact hbranches) hrest
  obtain ⟨rfl, hstack⟩ := List.cons.inj hstack
  exact ⟨hstakes, key, sig, under, code, valid, hstack, hvalid, hleft, htrace⟩

/-- The branch of the cold key. -/
theorem coldBranch_ok (hbranches : m.branches = [false])
    (h : operations env (fuel + 7) (coldStakingBranches hot cold) m = .ok a u) :
    ∃ key sig under code valid, m.stack = cold.bytes :: key :: sig :: under ∧
      env.checker.signature sig key code env.version = .ok valid ∧
      u.stack = ScriptNumber.ofBool valid :: under ∧
      u.trace = .signature sig key code env.version valid :: m.trace := by
  have hskips : executing m = false := by rw [executing, hbranches]; rfl
  have hrest := operations_skipped_ok (by decide) (by rw [hskips]; rfl) h
  have hrest := operations_pushed_ok (by decide) hot.length_bytes hrest
  rw [if_neg (by exact Bool.eq_false_iff.mp hskips)] at hrest
  obtain ⟨_, key, sig, under, code, valid, hstack, hvalid, hleft, htrace⟩ :=
    coldStakingElse_ok (by exact hbranches) hrest
  obtain ⟨rfl, hstack⟩ := List.cons.inj hstack
  exact ⟨key, sig, under, code, valid, hstack, hvalid, hleft, htrace⟩

end Step

/-! ## The script -/

/-- What a run that went through had on its stack and asked. The selecting item lies under the
key, and tells whose hash the key has to have. -/
theorem run_payToColdStaking_ok {env : Env} {hot cold : Hash160} {stack : List Bytes}
    {trace : List Event} {m : Machine} (hflag : env.flags.checkColdStakeVerify)
    (h : run env (payToColdStaking hot cold) stack trace = .ok () m) :
    ∃ key selector sig under code valid, stack = key :: selector :: sig :: under ∧
      env.checker.signature sig key code env.version = .ok valid ∧
      m.stack = ScriptNumber.ofBool valid :: under ∧
      if ScriptNumber.isTrue selector then
        env.checker.coldStake ∧ hash160 key = hot ∧
          m.trace = .signature sig key code env.version valid :: .coldStake true ::
            .branch true :: trace
      else
        hash160 key = cold ∧
          m.trace = .signature sig key code env.version valid :: .branch false :: trace := by
  have hops := Step.script_ok h
  rw [Script.length_payToColdStaking, Script.bytes_payToColdStaking] at hops
  obtain ⟨_, hdup, hrest⟩ := Step.operations_executed_ok (by decide) rfl hops
  obtain ⟨key, _, hstack, rfl⟩ := Step.dup_ok hdup
  obtain ⟨_, hhash, hrest⟩ := Step.operations_executed_ok (by decide) rfl hrest
  obtain ⟨_, _, hunder, rfl⟩ := Step.hashing_ok hhash
  obtain ⟨rfl, rfl⟩ := List.cons.inj hunder
  obtain ⟨_, hrot, hrest⟩ := Step.operations_executed_ok (by decide) rfl hrest
  obtain ⟨_, _, selector, under, hunder, rfl⟩ := Step.rot_ok hrot
  obtain ⟨rfl, hbelow⟩ := List.cons.inj hunder
  obtain ⟨rfl, rfl⟩ := List.cons.inj hbelow
  obtain ⟨_, hif, hrest⟩ := Step.operations_executed_ok (by decide) rfl hrest
  obtain ⟨_, _, hunder, rfl⟩ := Step.conditional_ok rfl hif
  obtain ⟨rfl, rfl⟩ := List.cons.inj hunder
  rw [Bool.bne_false] at hrest
  cases hselected : ScriptNumber.isTrue selector with
  | true =>
      rw [hselected] at hrest
      obtain ⟨hstakes, _, sig, under, code, valid, hunder, hvalid, hleft, htrace⟩ :=
        Step.hotBranch_ok hflag rfl hrest
      obtain ⟨hhot, hunder⟩ := List.cons.inj hunder
      obtain ⟨rfl, rfl⟩ := List.cons.inj hunder
      refine ⟨key, selector, sig, under, code, valid, hstack, hvalid, hleft, ?_⟩
      rw [if_pos hselected]
      exact ⟨hstakes, Digest.ext hhot, htrace⟩
  | false =>
      rw [hselected] at hrest
      obtain ⟨_, sig, under, code, valid, hunder, hvalid, hleft, htrace⟩ :=
        Step.coldBranch_ok rfl hrest
      obtain ⟨hcold, hunder⟩ := List.cons.inj hunder
      obtain ⟨rfl, rfl⟩ := List.cons.inj hunder
      refine ⟨key, selector, sig, under, code, valid, hstack, hvalid, hleft, ?_⟩
      rw [if_neg (Bool.eq_false_iff.mp hselected)]
      exact ⟨Digest.ext hcold, htrace⟩

/-! ## Spends -/

namespace Verification

variable {spend : Spend} {scriptSig locking : Script} {witness : Witness}

theorem run_ok {version : HashVersion} {s : Script} {stack left : List Bytes}
    {trace trace' : List Event} (h : run spend version s stack trace = .ok left trace') :
    ∃ m, Eval.run ⟨spend.flags, version, spend.checker⟩ s stack trace = .ok () m ∧
      m.stack = left ∧ m.trace = trace' := by
  rw [run] at h
  split at h
  · next m hm =>
      cases h
      exact ⟨m, hm, rfl, rfl⟩
  · cases h

/-- What the run of the locking script of a spend adds to the events, latest first. -/
def LockingRun (spend : Spend) (scriptSig locking : Script) (events : List Event) : Prop :=
  ∃ left before stack, run spend .legacy scriptSig [] [] = .ok left before ∧
    run spend .legacy locking left before = .ok stack (events ++ before)

/-- Whoever shows a true item under the key takes the hot branch, if the script goes through. -/
theorem lockingRun_hot {hot cold : Hash160} {key selector : Bytes} {under stack : List Bytes}
    {before after : List Event} (hflag : spend.flags.checkColdStakeVerify)
    (hleft : run spend .legacy scriptSig [] [] = .ok (key :: selector :: under) before)
    (hselected : ScriptNumber.isTrue selector)
    (hstack : run spend .legacy (payToColdStaking hot cold) (key :: selector :: under) before =
      .ok stack after) :
    ∃ events, LockingRun spend scriptSig (payToColdStaking hot cold) events ∧
      .branch true ∈ events := by
  obtain ⟨m, hrun, rfl, rfl⟩ := run_ok hstack
  obtain ⟨_, _, sig, _, code, valid, hshown, -, -, hbranch⟩ := run_payToColdStaking_ok hflag hrun
  cases hshown
  rw [if_pos hselected] at hbranch
  rw [hbranch.2.2] at hstack
  exact ⟨[.signature sig key code .legacy valid, .coldStake true, .branch true],
    ⟨_, before, m.stack, hleft, hstack⟩, by simp⟩

/-- A spend that goes through has run both scripts, and the top of what is left is true. -/
theorem spends_ok {trace : List Event}
    (h : spends spend scriptSig locking witness [] = .ok () trace) :
    ∃ left before stack after, run spend .legacy scriptSig [] [] = .ok left before ∧
      run spend .legacy locking left before = .ok stack after ∧
      stack.head?.any ScriptNumber.isTrue := by
  have hpush : Still Eq (demand (!spend.flags.sigPushOnly || scriptSig.isPushOnly) .sigPushOnly) :=
    .ite (.pure ()) .throw
  obtain ⟨_, -, h⟩ := hpush.bind_ok h
  obtain ⟨left, before, hleft, h⟩ := bind_eq_ok.mp h
  obtain ⟨stack, after, hstack, h⟩ := bind_eq_ok.mp h
  obtain ⟨_, _, htrue, -⟩ := bind_eq_ok.mp h
  exact ⟨left, before, stack, after, hleft, hstack, (demand_eq_ok.mp htrue).1⟩

end Verification

/-- Outside of a coinstake it is the cold key that spends. Whatever script spends, under whatever
flags besides the one that gives the check its meaning, a spend that goes through had a signature
accepted, while the locking script ran, for a key with the cold hash. -/
theorem coldKey_of_verifyScript (hot cold : Hash160) (spend : Spend) (scriptSig : Script)
    (witness : Witness) (trace : List Event) (hflag : spend.flags.checkColdStakeVerify)
    (hstakes : spend.checker.coldStake = false)
    (h : verifyScript spend scriptSig (payToColdStaking hot cold) witness = .ok () trace) :
    ∃ sig key code events,
      Verification.LockingRun spend scriptSig (payToColdStaking hot cold) events ∧
      .signature sig key code .legacy true ∈ events ∧
      spend.checker.signature sig key code .legacy = .ok true ∧ hash160 key = cold := by
  obtain ⟨left, before, stack, after, hleft, hstack, htrue⟩ := Verification.spends_ok h
  obtain ⟨m, hrun, rfl, rfl⟩ := Verification.run_ok hstack
  obtain ⟨key, selector, sig, under, code, valid, -, hvalid, hresult, hselected⟩ :=
    run_payToColdStaking_ok hflag hrun
  obtain rfl : valid = true := by
    rw [hresult] at htrue
    cases valid with
    | true => rfl
    | false => cases htrue
  split at hselected
  · rw [hselected.1] at hstakes
    cases hstakes
  · obtain ⟨hcold, htrace⟩ := hselected
    rw [htrace] at hstack
    exact ⟨sig, key, code, [.signature sig key code .legacy true, .branch false],
      ⟨left, before, m.stack, hleft, hstack⟩, List.mem_cons_self, hvalid, hcold⟩

/-- A checker that accepts one signature of one key, for a transaction that does not stake. -/
def acceptingOne (sig key : Bytes) : Checker :=
  { Checker.null with signature := fun s k _ _ => .ok (s == sig && k == key) }

/-- The cold key signs, and shows zero as the selecting item. -/
theorem coldKey_of_verifyScript_signed :
    let spend : Spend := ⟨{ Flags.none with checkColdStakeVerify := true }, acceptingOne [1] [2]⟩
    let cold := hash160 [2]
    let scriptSig : Script := ⟨[1, 1, Opcode.op0, 1, 2]⟩
    (∃ trace, verifyScript spend scriptSig (payToColdStaking Digest.zero cold) [] = .ok () trace) ∧
      ∃ sig key code events,
        Verification.LockingRun spend scriptSig (payToColdStaking Digest.zero cold) events ∧
        .signature sig key code .legacy true ∈ events ∧
        spend.checker.signature sig key code .legacy = .ok true ∧ hash160 key = cold := by
  intro spend cold scriptSig
  obtain ⟨_, trace, htrace⟩ : ∃ a trace,
      verifyScript spend scriptSig (payToColdStaking Digest.zero cold) [] = .ok a trace :=
    exists_ok_of_result? (by decide +kernel)
  exact ⟨⟨trace, htrace⟩,
    coldKey_of_verifyScript Digest.zero cold spend scriptSig [] trace rfl rfl htrace⟩

end Eval

end StakeChain
