/-
How many signatures are checked.

Scripts are counted before they run, and the count bounds what running them
costs. Two measures are followed through an evaluation. One is the number
of checks alone: an operation raises it by no more than the scan before the
run counts for it, given the operation before. The other adds the number of
operations that may still be counted: an operation that checks signatures
has paid for each of them before, so this measure never rises at all, and
the limit on operations is a limit on checks too.
-/
import StakeChain.Eval.Verify
import StakeChain.Proofs.CarriedOut
import StakeChain.Proofs.Frame
import StakeChain.Proofs.Operations

namespace StakeChain.Eval

open Stateful

/-- Whether an event is the check of a signature. -/
def Event.isSignature : Event → Bool
  | .signature .. => true
  | _ => false

/-- How many signatures were checked. -/
def signatureChecks (trace : List Event) : Nat := trace.countP Event.isSignature

namespace Step

/-- The checks made, and what a number of counted operations leaves room for. -/
def weight (room : Nat → Nat) (m : Machine) : Nat := signatureChecks m.trace + room m.opCount

/-! ## What one step adds -/

section

variable {α : Type} {room : Nat → Nat} {env : Env}

theorem Framed.grows {t : Step α} (h : Framed t) (m : Machine) : Grows (weight room) 0 t m where
  le := by
    obtain ⟨hcount, htrace⟩ := h.endOf_eq (m := m)
    rw [weight, weight, hcount, htrace]
    exact Nat.le_refl _

theorem note_grows {e : Event} (he : e.isSignature = false) (m : Machine) :
    Grows (weight room) 0 (note e) m where
  le := by
    change signatureChecks (e :: m.trace) + room m.opCount ≤ _
    rw [signatureChecks, List.countP_cons_of_neg (Bool.eq_false_iff.mp he)]
    exact Nat.le_refl _

theorem askSignature_grows (sig key : Bytes) (code : Script) (m : Machine) :
    Grows (weight room) 1 (askSignature env sig key code) m := by
  refine Grows.before_free ⟨?_⟩ fun _ m _ => (Framed.answered _).grows m
  change signatureChecks (_ :: m.trace) + room m.opCount ≤ _
  rw [signatureChecks, List.countP_cons_of_pos rfl, Nat.add_right_comm]
  exact Nat.le_refl _

theorem checkSig_grows (verify : Bool) (m : Machine) :
    Grows (weight room) 1 (checkSig env verify) m := by
  refine ((Framed.require 2).grows m).bind_free fun _ m _ => ?_
  refine ((Framed.top 2).grows m).bind_free fun sig m _ => ?_
  refine ((Framed.top 1).grows m).bind_free fun key m _ => ?_
  refine ((Framed.scriptCode env [sig]).grows m).bind_free fun code m _ => ?_
  refine ((Framed.demandSignatureEncoding env sig).grows m).bind_free fun _ m _ => ?_
  refine ((Framed.demandKeyEncoding env key).grows m).bind_free fun _ m _ => ?_
  refine (askSignature_grows sig key code m).before_free fun valid m _ => ?_
  have hrest := (Framed.demand (valid || !env.flags.nullFail || sig.isEmpty) .sigNullFail).bind
    fun _ => (Framed.dropTop 2).bind fun _ => (Framed.pushBool valid).bind fun _ =>
      Framed.verified verify valid .checkSigVerify
  exact hrest.grows m

/-- A walk down the keys checks at most one signature for each. -/
theorem matchSigs_grows (code : Script) (keys keyAt sigAt sigs : Nat) (m : Machine) :
    Grows (weight room) keys (matchSigs env code keys keyAt sigAt sigs) m := by
  induction keys generalizing keyAt sigAt sigs m with
  | zero =>
      cases sigs with
      | zero => exact Grows.pure _ m
      | succ sigs => exact Grows.throw _ m
  | succ keys ih =>
      cases sigs with
      | zero => exact Grows.pure _ m
      | succ sigs =>
          refine ((Framed.top sigAt).grows m).bind_free fun sig m _ => ?_
          refine ((Framed.top keyAt).grows m).bind_free fun key m _ => ?_
          refine ((Framed.demandSignatureEncoding env sig).grows m).bind_free fun _ m _ => ?_
          refine ((Framed.demandKeyEncoding env key).grows m).bind_free fun _ m _ => ?_
          rw [Nat.add_comm]
          refine (askSignature_grows sig key code m).bind fun valid m _ => ?_
          exact Grows.ite (fun _ => Grows.pure _ m) fun _ => ih _ _ _ m

/-- What a multisig check does once its keys are counted. -/
def matchKeys (env : Env) (verify : Bool) (keys : Nat) : Step Unit := do
  require (keys + 2)
  let sigs ← count env (keys + 2) keys .sigCount
  let sigAt := keys + 3
  let size := keys + sigs + 3
  require size
  let code ← scriptCode env (← items sigAt sigs)
  let valid ← matchSigs env code keys 2 sigAt sigs
  dropArguments env valid (size - 1) (keys + 2)
  require 1
  let extra ← top 1
  demand (!env.flags.nullDummy || extra.isEmpty) .sigNullDummy
  discard
  pushBool valid
  if verify then do
    demand valid .checkMultiSigVerify
    discard

theorem checkMultisig_eq (env : Env) (verify : Bool) :
    checkMultisig env verify = (do
      require 1
      let keys ← count env 1 maxKeysPerMultisig .pubkeyCount
      countOps keys
      matchKeys env verify keys) := rfl

theorem matchKeys_grows (verify : Bool) (keys : Nat) (m : Machine) :
    Grows (weight room) keys (matchKeys env verify keys) m := by
  refine ((Framed.require _).grows m).bind_free fun _ m _ => ?_
  refine ((Framed.count env _ _ _).grows m).bind_free fun sigs m _ => ?_
  refine ((Framed.require _).grows m).bind_free fun _ m _ => ?_
  refine ((Framed.items _ sigs).grows m).bind_free fun items m _ => ?_
  refine ((Framed.scriptCode env items).grows m).bind_free fun code m _ => ?_
  refine (matchSigs_grows code keys 2 _ sigs m).before_free fun valid m _ => ?_
  have hrest := (Framed.dropArguments env valid (keys + sigs + 3 - 1) (keys + 2)).bind fun _ =>
    (Framed.require 1).bind fun _ => (Framed.top 1).bind fun extra =>
      (Framed.demand (!env.flags.nullDummy || extra.isEmpty) .sigNullDummy).bind fun _ =>
        Framed.discard.bind fun _ => (Framed.pushBool valid).bind fun _ =>
          Framed.verified verify valid .checkMultiSigVerify
  exact hrest.grows m

/-- The instructions that check signatures. -/
def ChecksSignatures : Instruction → Prop
  | .checkSig _ | .checkMultisig _ => True
  | _ => False

/-- No other instruction than these adds to the checks. -/
theorem execute_grows (rest : Bytes) {i : Instruction} (hi : ¬ ChecksSignatures i) (m : Machine) :
    Grows (weight room) 0 (execute env rest i) m := by
  cases i with
  | checkSig | checkMultisig => exact (hi trivial).elim
  | checkLockTime =>
      refine Grows.ite (fun _ => ?_) fun _ => (Framed.upgradable env).grows m
      refine ((Framed.require 1).grows m).bind_free fun _ m _ => ?_
      refine ((Framed.top 1).grows m).bind_free fun _ m _ => ?_
      refine ((Framed.number ..).grows m).bind_free fun _ m _ => ?_
      refine ((Framed.demand _ _).grows m).bind_free fun _ m _ => ?_
      refine Grows.bind_free ?_ fun _ m _ => (Framed.demand _ _).grows m
      exact (note_grows rfl m).bind_free fun _ m _ => (Framed.answered _).grows m
  | checkSequence =>
      refine Grows.ite (fun _ => ?_) fun _ => (Framed.upgradable env).grows m
      refine ((Framed.require 1).grows m).bind_free fun _ m _ => ?_
      refine ((Framed.top 1).grows m).bind_free fun _ m _ => ?_
      refine ((Framed.number ..).grows m).bind_free fun _ m _ => ?_
      refine ((Framed.demand _ _).grows m).bind_free fun _ m _ => ?_
      refine Grows.ite (fun _ => ?_) fun _ => Grows.pure _ m
      refine Grows.bind_free ?_ fun _ m _ => (Framed.demand _ _).grows m
      exact (note_grows rfl m).bind_free fun _ m _ => (Framed.answered _).grows m
  | checkColdStake =>
      refine Grows.ite (fun _ => ?_) fun _ => (Framed.upgradable env).grows m
      refine Grows.bind_free ?_ fun _ m _ => (Framed.demand _ _).grows m
      exact (note_grows rfl m).bind_free fun _ m _ => Grows.pure _ m
  | conditional negated =>
      refine Grows.get_bind (Grows.ite (fun _ => ?_) fun _ => (Framed.openBranch false).grows m)
      refine (Framed.stack.grows m).bind_free fun _ m _ => ?_
      refine ((Framed.demand _ _).grows m).bind_free fun _ m _ => ?_
      refine ((Framed.top 1).grows m).bind_free fun _ m _ => ?_
      refine ((Framed.demand _ _).grows m).bind_free fun _ m _ => ?_
      refine (Framed.discard.grows m).bind_free fun _ m _ => ?_
      exact (note_grows rfl m).bind_free fun _ m _ => (Framed.openBranch _).grows m
  | codeSeparator =>
      refine Grows.bind_free ⟨Nat.le_refl _⟩ fun _ m _ => note_grows rfl m
  | small | nop | upgradableNop | otherwise | endIf | verify | halt | toAltStack | fromAltStack
  | drop2 | dup2 | dup3 | over2 | rot2 | swap2 | ifDup | depth | drop | dup | nip | over1 | fetch
  | rot | swap | tuck | size | equal | unary | binary | within | hashing | unknown =>
      exact (Framed.execute env rest (by trivial)).grows m

end

/-! ## Which operations check signatures -/

theorem mem_of_lookup {opcode : UInt8} {i : Instruction}
    (h : (Instruction.table.lookup opcode).getD .unknown = i) (hi : i ≠ .unknown) :
    (opcode, i) ∈ Instruction.table := by
  cases hl : Instruction.table.lookup opcode with
  | none =>
      rw [hl] at h
      exact absurd h.symm hi
  | some j =>
      rw [hl] at h
      cases h
      obtain ⟨before, after, htable, -⟩ := List.lookup_eq_some_iff.mp hl
      rw [htable]
      exact List.mem_append_right _ List.mem_cons_self

theorem mem_table {opcode : UInt8} {i : Instruction} (h : Instruction.ofOpcode opcode = i)
    (hsmall : ∀ n, i ≠ .small n) (hi : i ≠ .unknown) : (opcode, i) ∈ Instruction.table := by
  rw [Instruction.ofOpcode] at h
  split at h
  · exact absurd h.symm (hsmall _)
  · exact mem_of_lookup h hi

theorem opcode_of_checkSig {opcode : UInt8} {verify : Bool}
    (h : Instruction.ofOpcode opcode = .checkSig verify) :
    opcode = Opcode.checkSig ∨ opcode = Opcode.checkSigVerify := by
  have htable : ∀ e ∈ Instruction.table, ∀ verify, e.2 = .checkSig verify →
      e.1 = Opcode.checkSig ∨ e.1 = Opcode.checkSigVerify := by decide
  exact htable _ (mem_table h nofun nofun) verify rfl

theorem opcode_of_checkMultisig {opcode : UInt8} {verify : Bool}
    (h : Instruction.ofOpcode opcode = .checkMultisig verify) :
    opcode = Opcode.checkMultisig ∨ opcode = Opcode.checkMultisigVerify := by
  have htable : ∀ e ∈ Instruction.table, ∀ verify, e.2 = .checkMultisig verify →
      e.1 = Opcode.checkMultisig ∨ e.1 = Opcode.checkMultisigVerify := by decide
  exact htable _ (mem_table h nofun nofun) verify rfl

theorem counted_of_checksSignatures {opcode : UInt8}
    (h : ChecksSignatures (Instruction.ofOpcode opcode)) : opcode > Opcode.op16 := by
  cases hi : Instruction.ofOpcode opcode with
  | checkSig verify => rcases opcode_of_checkSig hi with rfl | rfl <;> decide
  | checkMultisig verify => rcases opcode_of_checkMultisig hi with rfl | rfl <;> decide
  | _ =>
      rw [hi] at h
      exact h.elim

/-! ## What steps leave where they go through -/

/-- An operation above the pushes is counted, and any other part of the machine is left alone. -/
theorem screen_ok {opcode : UInt8} {m u : Machine} {a : Unit} (h : screen opcode m = .ok a u) :
    ∃ n, u = { m with opCount := m.opCount + n } ∧
      (opcode > Opcode.op16 → n = 1 ∧ m.opCount + n ≤ maxOpCount) := by
  obtain ⟨-, hcounted⟩ := screen_eq_ok.mp h
  split at hcounted
  · obtain ⟨hle, rfl⟩ := hcounted
    exact ⟨1, rfl, fun _ => ⟨rfl, hle⟩⟩
  · next hop =>
      obtain rfl := hcounted
      exact ⟨0, rfl, fun hgt => absurd hgt hop⟩

/-! ## What is paid for by counting operations -/

/-- How many operations may still be counted. -/
def opsLeft (opCount : Nat) : Nat := maxOpCount - opCount

section

variable {room : Nat → Nat} (hroom : ∀ a b, room (a + b) ≤ room a)

include hroom

theorem countOps_grows (n : Nat) (m : Machine) : Grows (weight room) 0 (countOps n) m where
  le := by
    have hend : endOf (countOps n m) = { m with opCount := m.opCount + n } := by
      change endOf (demand _ _ { m with opCount := m.opCount + n }) = _
      rw [demand]
      split <;> rfl
    rw [hend, weight, weight]
    exact Nat.add_le_add_left (hroom _ _) _

theorem screen_grows (opcode : UInt8) (m : Machine) : Grows (weight room) 0 (screen opcode) m := by
  refine Grows.ite (fun _ => ?_) fun _ => (Framed.demand _ _).grows m
  exact (countOps_grows hroom 1 m).bind_free fun _ m _ => (Framed.demand _ _).grows m

theorem push_grows {env : Env} (rest : Bytes) (opcode : UInt8) (data : Bytes) (m : Machine) :
    Grows (weight room) 0 (operation env rest (.push opcode data)) m := by
  refine ((Framed.demand _ _).grows m).bind_free fun _ m _ => ?_
  refine (screen_grows hroom opcode m).bind_free fun _ m _ => ?_
  refine Grows.get_bind (Grows.ite (fun _ => ?_) fun _ => Framed.demandStackSize.grows m)
  refine ((Framed.demand _ _).grows m).bind_free fun _ m _ => ?_
  exact ((Framed.push data).grows m).bind_free fun _ m _ => Framed.demandStackSize.grows m

end

theorem opsLeft_add (a b : Nat) : opsLeft (a + b) ≤ opsLeft a := by
  rw [opsLeft, opsLeft]
  omega

theorem weight_of_counted {m : Machine} {n : Nat} (h : m.opCount + n ≤ maxOpCount) :
    weight opsLeft { m with opCount := m.opCount + n } + n ≤ weight opsLeft m := by
  rw [weight, weight, opsLeft, opsLeft]
  dsimp only
  omega

/-- Every key of a multisig check was counted as an operation. -/
theorem checkMultisig_weight (env : Env) (verify : Bool) (m : Machine) :
    Grows (weight opsLeft) 0 (checkMultisig env verify) m := by
  rw [checkMultisig_eq]
  refine ((Framed.require 1).grows m).bind_free fun _ m _ => ?_
  refine ((Framed.count env 1 _ _).grows m).bind_free fun keys m _ => ?_
  refine (countOps_grows opsLeft_add keys m).bind_paid (l := keys) ?_ fun _ m _ =>
    matchKeys_grows verify keys m
  intro _ u hu
  obtain ⟨hle, rfl⟩ := countOps_eq_ok.mp hu
  exact weight_of_counted hle

theorem execute_weight (env : Env) (rest : Bytes) (i : Instruction) (m : Machine) :
    Grows (weight opsLeft) 1 (execute env rest i) m := by
  by_cases hi : ChecksSignatures i
  · cases i with
    | checkSig verify => exact checkSig_grows verify m
    | checkMultisig verify => exact (checkMultisig_weight env verify m).mono (Nat.zero_le 1)
    | _ => exact hi.elim
  · exact (execute_grows rest hi m).mono (Nat.zero_le 1)

/-- An operation adds no check that it has not paid for. -/
theorem operation_weight (env : Env) (rest : Bytes) (op : Op) (m : Machine) :
    Grows (weight opsLeft) 0 (operation env rest op) m := by
  have hsize : ∀ m, Grows (weight opsLeft) 0 demandStackSize m := Framed.demandStackSize.grows
  cases op with
  | invalid opcode => exact Grows.throw _ m
  | push opcode data => exact push_grows opsLeft_add rest opcode data m
  | code opcode =>
      by_cases hi : ChecksSignatures (Instruction.ofOpcode opcode)
      · -- counting the operation pays for one check; a multisig check pays for its own
        refine (screen_grows opsLeft_add opcode m).bind_paid (l := 1) ?_ fun _ m _ => ?_
        · intro _ u hu
          obtain ⟨n, rfl, hcounted⟩ := screen_ok hu
          obtain ⟨rfl, hle⟩ := hcounted (counted_of_checksSignatures hi)
          exact weight_of_counted hle
        · refine Grows.get_bind (Grows.ite (fun _ => ?_) fun _ => (hsize m).mono (Nat.zero_le 1))
          exact (execute_weight env rest _ m).before_free fun _ m _ => hsize m
      · refine (screen_grows opsLeft_add opcode m).bind_free fun _ m _ => ?_
        refine Grows.get_bind (Grows.ite (fun _ => ?_) fun _ => hsize m)
        exact (execute_grows rest hi m).bind_free fun _ m _ => hsize m

theorem operations_weight (env : Env) (fuel : Nat) (bs : Bytes) (m : Machine) :
    Grows (weight opsLeft) 0 (operations env fuel bs) m := by
  induction fuel generalizing bs m with
  | zero => exact Grows.pure _ m
  | succ fuel ih =>
      rw [operations]
      split
      · exact Grows.pure _ m
      · exact (operation_weight env _ _ m).bind_free fun _ m _ => ih _ m

/-! ## What the scan counts -/

/-- After an operation that pushes a number from one to sixteen the number is on top, where the
script runs. -/
def Follows (previous : UInt8) (m : Machine) : Prop :=
  Opcode.op1 ≤ previous → previous ≤ Opcode.op16 → executing m →
    m.stack.head? = some (ScriptNumber.encode ((previous.toNat : Int) - 0x50))

theorem number_ok {env : Env} {item : Bytes} {width : Nat} {v : Int} {m u : Machine}
    (h : number env item width m = .ok v u) :
    ScriptNumber.decode item env.flags.minimalData width = some v := by
  cases hd : ScriptNumber.decode item env.flags.minimalData width with
  | some w =>
      have hw : number env item width = pure w := by rw [number, hd]
      rw [hw] at h
      rw [(pure_eq_ok.mp h).1]
  | none =>
      have hw : number env item width = fail .unknownError := by rw [number, hd]
      rw [hw] at h
      exact absurd h throw_ne_ok

theorem count_ok {env : Env} {place limit n : Nat} {e : ScriptError} {m u : Machine}
    (h : count env (place + 1) limit e m = .ok n u) :
    n ≤ limit ∧ ∃ item, m.stack[place]? = some item ∧
      ScriptNumber.decode item env.flags.minimalData numberWidth = some (n : Int) := by
  obtain ⟨item, _, htop, hrest⟩ := bind_eq_ok.mp h
  obtain ⟨v, _, hnumber, hrange⟩ := bind_eq_ok.mp hrest
  split at hrange
  · exact absurd hrange throw_ne_ok
  · next hv =>
      obtain ⟨rfl, -⟩ := pure_eq_ok.mp hrange
      refine ⟨by omega, item, (top_eq_ok.mp htop).1, ?_⟩
      rw [number_ok hnumber, Int.toNat_of_nonneg (by omega)]

/-- The number of keys is no more than the scan counts for a multisig check. -/
theorem keys_le {env : Env} {opcode previous : UInt8} {keys : Nat} {m u : Machine}
    (hop : opcode = Opcode.checkMultisig ∨ opcode = Opcode.checkMultisigVerify)
    (hf : Follows previous m) (hm : executing m)
    (h : count env 1 maxKeysPerMultisig .pubkeyCount m = .ok keys u) :
    keys ≤ Script.opSigCount true previous opcode := by
  obtain ⟨hle, item, hhead, hdecode⟩ := count_ok h
  rw [← List.head?_eq_getElem?] at hhead
  have hcount : Script.opSigCount true previous opcode =
      if Opcode.op1 ≤ previous ∧ previous ≤ Opcode.op16 then
        (Opcode.smallInt? previous).getD 0 else maxKeysPerMultisig := by
    have hsingle : ¬ (opcode = Opcode.checkSig ∨ opcode = Opcode.checkSigVerify) := by
      rcases hop with rfl | rfl <;> decide
    simp only [Script.opSigCount, if_neg hsingle, if_pos hop, true_and]
  rw [hcount]
  split
  · next hsmall =>
      obtain ⟨n, hpos, hn, hint, hencode⟩ := Script.exists_smallInt hsmall.1 hsmall.2
      have hitem := hf hsmall.1 hsmall.2 hm
      rw [hhead, hencode] at hitem
      obtain rfl := Option.some.inj hitem
      have hkeys := Script.eq_of_decode_encode hpos hn hdecode
      rw [hint, Option.getD_some]
      omega
  · exact hle

/-- A multisig check makes as many checks as the scan counts for it, at most. -/
theorem checkMultisig_counted (env : Env) (verify : Bool) {opcode previous : UInt8} {m : Machine}
    (hop : opcode = Opcode.checkMultisig ∨ opcode = Opcode.checkMultisigVerify)
    (hf : Follows previous m) (hm : executing m) :
    Grows (weight fun _ => 0) (Script.opSigCount true previous opcode)
      (checkMultisig env verify) m := by
  rw [checkMultisig_eq]
  refine ((Framed.require 1).grows m).bind_free fun _ u hu => ?_
  obtain ⟨-, rfl⟩ := require_eq_ok.mp hu
  refine ((Framed.count env 1 _ _).grows u).bind_free fun keys w hw => ?_
  refine (countOps_grows (fun _ _ => Nat.le_refl 0) keys w).bind_free fun _ w _ => ?_
  exact (matchKeys_grows verify keys w).mono (keys_le hop hf hm hw)

theorem operation_counted (env : Env) (rest : Bytes) {op : Op} {previous : UInt8} {m : Machine}
    (hf : Follows previous m) :
    Grows (weight fun _ => 0) (Script.opSigCount true previous op.opcode)
      (operation env rest op) m := by
  have hroom : ∀ a b : Nat, (fun _ => 0) (a + b) ≤ (fun _ => 0) a := fun _ _ => Nat.le_refl 0
  have hsize : ∀ m k, Grows (weight fun _ => 0) k demandStackSize m := fun m k =>
    (Framed.demandStackSize.grows m).mono (Nat.zero_le k)
  cases op with
  | invalid opcode => exact Grows.throw _ m
  | push opcode data => exact (push_grows hroom rest opcode data m).mono (Nat.zero_le _)
  | code opcode =>
      refine (screen_grows hroom opcode m).bind_free fun _ u hu => ?_
      obtain ⟨n, rfl, -⟩ := screen_ok hu
      refine Grows.get_bind (Grows.ite (fun hruns => ?_) fun _ => hsize _ _)
      refine Grows.before_free ?_ fun _ m _ => hsize m 0
      cases hi : Instruction.ofOpcode opcode with
      | checkSig verify =>
          have hone : Script.opSigCount true previous opcode = 1 :=
            if_pos (opcode_of_checkSig hi)
          exact hone ▸ checkSig_grows verify _
      | checkMultisig verify =>
          have hop := opcode_of_checkMultisig hi
          have hbranches : isOnBranches opcode = false := by
            rcases hop with rfl | rfl <;> rfl
          rw [hbranches, Bool.or_false] at hruns
          exact checkMultisig_counted env verify hop hf hruns
      | _ => exact (execute_grows rest (by exact fun h => h) _).mono (Nat.zero_le _)

/-- What a push leaves, where the script runs. -/
theorem operation_push_ok {env : Env} {rest data : Bytes} {opcode : UInt8} {m u : Machine}
    {a : Unit} (h : operation env rest (.push opcode data) m = .ok a u) (hm : executing m) :
    u.branches = m.branches ∧ u.stack = data :: m.stack := by
  obtain ⟨_, _, hsize, h₁⟩ := bind_eq_ok.mp h
  obtain ⟨_, _, hscreen, h₂⟩ := bind_eq_ok.mp h₁
  obtain ⟨_, _, hget, h₃⟩ := bind_eq_ok.mp h₂
  obtain ⟨-, rfl⟩ := demand_eq_ok.mp hsize
  obtain ⟨n, rfl, -⟩ := screen_ok hscreen
  obtain ⟨rfl, rfl⟩ := get_eq_ok.mp hget
  rw [if_pos (by exact hm)] at h₃
  obtain ⟨_, _, hminimal, h₄⟩ := bind_eq_ok.mp h₃
  obtain ⟨_, _, hpush, h₅⟩ := bind_eq_ok.mp h₄
  obtain ⟨-, rfl⟩ := demand_eq_ok.mp hminimal
  obtain rfl := modify_eq_ok.mp hpush
  obtain ⟨-, rfl⟩ := demandStackSize_eq_ok.mp h₅
  exact ⟨rfl, rfl⟩

theorem ofOpcode_of_le {opcode : UInt8} (h : opcode ≤ Opcode.op16) :
    (∃ n, Script.IsSmall n ∧ Instruction.ofOpcode opcode = .small n) ∨
      Instruction.ofOpcode opcode = .unknown := by
  by_cases hsmall : opcode = Opcode.negative1 ∨ (Opcode.op1 ≤ opcode ∧ opcode ≤ Opcode.op16)
  · refine .inl ⟨(opcode.toNat : Int) - 0x50, ?_, if_pos hsmall⟩
    rcases hsmall with rfl | ⟨hlow, hhigh⟩
    · exact .inl rfl
    · obtain ⟨n, hpos, hle, -, hn⟩ := Script.exists_smallInt hlow hhigh
      exact .inr (by omega)
  · right
    by_contra hunknown
    rw [Instruction.ofOpcode, if_neg hsmall] at hunknown
    have htable : ∀ e ∈ Instruction.table, ¬ e.1 ≤ Opcode.op16 := by decide
    exact htable _ (mem_of_lookup rfl hunknown) h

/-- What an operation up to `OP_16` that is no push of data leaves. -/
theorem operation_code_ok {env : Env} {rest : Bytes} {opcode : UInt8} {m u : Machine} {a : Unit}
    (hle : opcode ≤ Opcode.op16) (h : operation env rest (.code opcode) m = .ok a u) :
    u.branches = m.branches ∧ (executing m → ∃ n, Script.IsSmall n ∧
      Instruction.ofOpcode opcode = .small n ∧ u.stack = ScriptNumber.encode n :: m.stack) := by
  have hbelow : ¬ Opcode.ifTrue ≤ opcode := fun h => absurd (UInt8.le_trans h hle) (by decide)
  have hbranches : isOnBranches opcode = false := by
    rw [isOnBranches, decide_eq_false hbelow, Bool.false_and]
  obtain ⟨_, _, hscreen, h⟩ := bind_eq_ok.mp h
  obtain ⟨n, rfl, -⟩ := screen_ok hscreen
  obtain ⟨_, _, hget, h⟩ := bind_eq_ok.mp h
  obtain ⟨rfl, rfl⟩ := get_eq_ok.mp hget
  rw [hbranches, Bool.or_false] at h
  split at h
  · obtain ⟨_, _, hexecute, h⟩ := bind_eq_ok.mp h
    obtain ⟨-, rfl⟩ := demandStackSize_eq_ok.mp h
    rcases ofOpcode_of_le hle with ⟨k, hk, hsmall⟩ | hunknown
    · rw [hsmall, execute, pushNumber] at hexecute
      split at hexecute
      · obtain rfl := modify_eq_ok.mp hexecute
        exact ⟨rfl, fun _ => ⟨k, hk, hsmall, rfl⟩⟩
      · exact absurd hexecute throw_ne_ok
    · rw [hunknown] at hexecute
      exact absurd hexecute throw_ne_ok
  · next hskip =>
      obtain ⟨-, rfl⟩ := demandStackSize_eq_ok.mp h
      exact ⟨rfl, fun hexec => absurd hexec hskip⟩

theorem operation_follows {env : Env} {bs rest : Bytes} {op : Op} {m u : Machine} {a : Unit}
    (hop : Op.decode bs = some (op, rest)) (h : operation env rest op m = .ok a u) :
    Follows op.opcode u := by
  intro hlow hhigh hexec
  cases op with
  | invalid opcode => exact absurd h throw_ne_ok
  | push opcode data =>
      have hpush := UInt8.le_trans hlow (Op.decode_push hop)
      exact absurd hpush (by decide)
  | code opcode =>
      dsimp only [Op.opcode] at hlow hhigh ⊢
      obtain ⟨hbranches, hpushed⟩ := operation_code_ok hhigh h
      rw [executing, hbranches] at hexec
      obtain ⟨n, -, hn, hstack⟩ := hpushed hexec
      have hsmall : Instruction.ofOpcode opcode = .small ((opcode.toNat : Int) - 0x50) :=
        if_pos (.inr ⟨hlow, hhigh⟩)
      rw [hsmall] at hn
      cases hn
      rw [hstack]
      rfl

/-- No more signatures are checked than the scan counts from the operation before on. -/
theorem operations_counted (env : Env) (fuel : Nat) (bs : Bytes) {previous : UInt8} {m : Machine}
    (hf : Follows previous m) :
    Grows (weight fun _ => 0) (Script.sigOpsFrom true previous 0 (Script.opsWithin fuel bs))
      (operations env fuel bs) m := by
  induction fuel generalizing bs previous m with
  | zero => exact Grows.pure _ m
  | succ fuel ih =>
      rw [operations, Script.opsWithin]
      cases hop : Op.decode bs with
      | none => exact Grows.pure _ m
      | some next =>
          obtain ⟨op, rest⟩ := next
          dsimp only
          cases hvalid : op.isValid with
          | true =>
              rw [Script.sigOpsFrom_cons hvalid]
              exact (operation_counted env rest hf).bind fun _ u hu =>
                ih rest (operation_follows hop hu)
          | false =>
              cases op with
              | invalid opcode => exact Grows.throw _ m
              | push opcode data | code opcode => cases hvalid

theorem script_weight (env : Env) (s : Script) (m : Machine) :
    Grows (weight opsLeft) 0 (script env s) m := by
  refine ((Framed.demand _ _).grows m).bind_free fun _ m _ => ?_
  refine (operations_weight env _ _ m).bind_free fun _ m _ => ?_
  exact Grows.get_bind ((Framed.demand _ _).grows m)

theorem script_counted (env : Env) (s : Script) (m : Machine) :
    Grows (weight fun _ => 0) (s.sigOpCount true) (script env s) m := by
  refine ((Framed.demand _ _).grows m).bind_free fun _ m _ => ?_
  refine Grows.before_free ?_ fun _ m _ => Grows.get_bind ((Framed.demand _ _).grows m)
  rw [Script.sigOpCount, Script.ops_eq]
  exact operations_counted env _ _ fun _ hhigh => absurd hhigh (by decide)

end Step

/-- However a run ends, on any stack and under any flags, it checks no more signatures than the
scan of its script counts, and no more than operations may be counted. -/
theorem run_grows (env : Env) (s : Script) (stack : List Bytes) (trace : List Event) :
    signatureChecks (endOf (run env s stack trace)).trace ≤
      signatureChecks trace + min maxOpCount (s.sigOpCount true) := by
  have hpaid := (Step.script_weight env s (Machine.start stack s trace)).le
  have hcounted := (Step.script_counted env s (Machine.start stack s trace)).le
  rw [← Nat.add_min_add_left]
  exact Nat.le_min.mpr ⟨Nat.le_trans (Nat.le_add_right _ _) hpaid, hcounted⟩

end StakeChain.Eval
