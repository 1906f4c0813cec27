/-
More flags accept less.

Two evaluations of one script, or two verifications of one spend, run side
by side, one under few flags and one under more. Step by step the first
goes through wherever the second does, and both leave the same stack. Only
what they ask the checker may differ: under fewer flags an operation that
asks may do nothing at all. So the machines of the two are compared up to
their traces.
-/
import StakeChain.Eval.Verify
import StakeChain.Proofs.Frame

namespace StakeChain

/-- A number that is read in its shortest form only is also read when that is not asked for. -/
theorem ScriptNumber.decode_of_minimal {bs : Bytes} {width : Nat} {n : Int} {lax strict : Bool}
    (hlax : lax → strict) (h : decode bs strict width = some n) :
    decode bs lax width = some n := by
  cases lax with
  | true =>
      rw [hlax rfl] at h
      exact h
  | false =>
      rw [decode] at h ⊢
      split at h
      · cases h
      · split at h
        · cases h
        · next hlong _ => exact (if_neg hlong).trans h

/-! ## Sets of flags -/

namespace Flags

/-- Every flag of `f` is one of `g`. -/
def Within (f g : Flags) : Prop := f.union g = g

/-- The flags that need others come with them: a witness may hide behind a script hash, and a
clean stack only makes sense once everything is run. -/
structure Coherent (f : Flags) : Prop where
  p2sh_of_witness : f.witness → f.p2sh
  p2sh_of_cleanStack : f.cleanStack → f.p2sh
  witness_of_cleanStack : f.cleanStack → f.witness

/-- The operations that were once kept for upgrades mean the same under both. -/
structure SameNops (f g : Flags) : Prop where
  checkLockTimeVerify : f.checkLockTimeVerify = g.checkLockTimeVerify
  checkSequenceVerify : f.checkSequenceVerify = g.checkSequenceVerify
  checkColdStakeVerify : f.checkColdStakeVerify = g.checkColdStakeVerify

instance (f g : Flags) : Decidable (f.Within g) := inferInstanceAs (Decidable (_ = _))

variable {f g : Flags}

/-- A flag that is set in a set of flags is set in a larger one. -/
theorem Within.keeps (h : f.Within g) (flag : Flags → Bool)
    (hunion : ∀ f g, flag (f.union g) = (flag f || flag g)) : flag f → flag g := by
  intro hf
  rw [← h, hunion, hf, Bool.true_or]

/-- What one of the flags demands is demanded under the larger set too. -/
theorem Within.relaxes (h : f.Within g) (flag : Flags → Bool)
    (hunion : ∀ f g, flag (f.union g) = (flag f || flag g)) {condition : Bool}
    (hg : !flag g || condition) : !flag f || condition := by
  have hfg := h.keeps flag hunion
  revert hg hfg
  cases flag f <;> cases flag g <;> simp

end Flags

namespace Eval

open Stateful

/-- The same machine, whatever was traced. -/
def Machine.Alike (m m' : Machine) : Prop := ∃ trace, m' = { m with trace := trace }

namespace Step

variable {α β : Type}

/-- Wherever `s` goes through, `t` does so as well, with the same result in a machine alike. -/
abbrev Laxer (t s : Step α) : Prop := Stateful.Laxer Machine.Alike Eq t s

/-- A step that changes nothing but the trace. -/
abbrev Still (s : Step α) : Prop := Stateful.Still Machine.Alike s

theorem Framed.laxer {t : Step α} (h : Framed t) : Laxer t t where
  run_ok := by
    rintro m _ a n ⟨trace, rfl⟩ ht
    have hcount := h.endOf_eq (m := m)
    rw [ht] at hcount
    refine ⟨a, _, h.ok ht m.opCount trace, rfl, trace, ?_⟩
    rw [← show n.opCount = m.opCount from hcount.1]
    rfl

theorem demand_laxer {c d : Bool} (h : d → c) (e : ScriptError) :
    Laxer (demand c e) (demand d e) := by
  cases d with
  | true =>
      rw [h rfl]
      exact (Framed.demand true e).laxer
  | false => exact Laxer.throw

theorem note_laxer (e : Event) : Laxer (note e) (note e) :=
  Laxer.modify fun _ _ ⟨trace, hm⟩ => ⟨e :: trace, by rw [hm]⟩

theorem countOps_laxer (n : Nat) : Laxer (countOps n) (countOps n) := by
  refine (Laxer.modify ?_).bind_eq fun _ => Laxer.get_bind ?_
  · rintro m _ ⟨trace, rfl⟩
    exact ⟨trace, rfl⟩
  · rintro m _ ⟨trace, rfl⟩
    exact (Framed.demand _ _).laxer

theorem screen_laxer (opcode : UInt8) : Laxer (screen opcode) (screen opcode) := by
  have hrest := (Framed.demand (!Opcode.isDisabled opcode) .disabledOpcode).laxer
  rw [screen]
  dsimp only
  split
  · exact (countOps_laxer 1).bind_eq fun _ => hrest
  · exact hrest

theorem askSignature_laxer (f g : Flags) (v : HashVersion) (c : Checker) (sig key : Bytes)
    (code : Script) :
    Laxer (askSignature ⟨f, v, c⟩ sig key code) (askSignature ⟨g, v, c⟩ sig key code) :=
  (note_laxer _).bind_eq fun _ => (Framed.answered _).laxer

/-! ## Steps that only look -/

theorem demand_still (c : Bool) (e : ScriptError) : Still (demand c e) :=
  Still.ite (.pure ()) .throw

theorem note_still (e : Event) : Still (note e) where
  run_ok := by
    rintro m _ _ n ⟨trace, rfl⟩ hs
    obtain rfl := modify_eq_ok.mp hs
    exact ⟨trace, rfl⟩

theorem answered_still (a : Answer) : Still (answered a) := by
  cases a with
  | ok b => exact .pure b
  | error e => exact .throw

theorem stack_still : Still stack := Still.get_bind fun _ => .pure _

theorem require_still (n : Nat) : Still (require n) :=
  stack_still.bind fun _ => demand_still _ _

theorem top_still (depth : Nat) : Still (top depth) := by
  refine Still.ite .throw (stack_still.bind fun items => ?_)
  split
  · exact .pure _
  · exact .throw

theorem number_still (env : Env) (item : Bytes) (width : Nat) : Still (number env item width) := by
  rw [number]
  split
  · exact .pure _
  · exact .throw

/-! ## Steps under two sets of flags -/

section

variable {f g : Flags} (h : f.Within g) (v : HashVersion) (c : Checker)

include h

/-- A demand that one of the flags makes. -/
theorem demand_flag (flag : Flags → Bool) (hflag : ∀ f g, flag (f.union g) = (flag f || flag g))
    (condition : Bool) (e : ScriptError) :
    Laxer (demand (!flag f || condition) e) (demand (!flag g || condition) e) :=
  demand_laxer (h.relaxes flag hflag) e

theorem number_laxer (item : Bytes) (width : Nat) :
    Laxer (number ⟨f, v, c⟩ item width) (number ⟨g, v, c⟩ item width) := by
  dsimp only [number]
  cases hn : ScriptNumber.decode item g.minimalData width with
  | some n =>
      rw [ScriptNumber.decode_of_minimal (h.keeps Flags.minimalData fun _ _ => rfl) hn]
      exact Laxer.pure rfl
  | none => exact Laxer.throw

theorem demandSignatureEncoding_laxer (sig : Bytes) :
    Laxer (demandSignatureEncoding ⟨f, v, c⟩ sig) (demandSignatureEncoding ⟨g, v, c⟩ sig) := by
  refine Laxer.ite (Laxer.pure rfl) ?_
  have hder := demand_flag h (fun f => f.derSignatures || f.lowS || f.strictEncoding)
    (fun f g => by grind [Flags.union]) (Key.isStrictSignature sig) .sigDer
  refine hder.bind_eq fun _ => ?_
  refine (demand_flag h Flags.lowS (fun _ _ => rfl) _ _).bind_eq fun _ => ?_
  exact demand_flag h Flags.strictEncoding (fun _ _ => rfl) _ _

theorem demandKeyEncoding_laxer (key : Bytes) :
    Laxer (demandKeyEncoding ⟨f, v, c⟩ key) (demandKeyEncoding ⟨g, v, c⟩ key) := by
  refine (demand_flag h Flags.strictEncoding (fun _ _ => rfl) _ _).bind_eq fun _ => ?_
  exact demand_flag h (fun f => f.witnessPubkeyType && v == .witnessV0)
    (fun f g => by simp [Flags.union, Bool.and_or_distrib_right]) _ _

theorem checkSig_laxer (verify : Bool) :
    Laxer (checkSig ⟨f, v, c⟩ verify) (checkSig ⟨g, v, c⟩ verify) := by
  refine (Framed.require 2).laxer.bind_eq fun _ => ?_
  refine (Framed.top 2).laxer.bind_eq fun sig => ?_
  refine (Framed.top 1).laxer.bind_eq fun key => ?_
  refine (Framed.scriptCode ⟨f, v, c⟩ [sig]).laxer.bind_eq fun code => ?_
  refine (demandSignatureEncoding_laxer h v c sig).bind_eq fun _ => ?_
  refine (demandKeyEncoding_laxer h v c key).bind_eq fun _ => ?_
  refine (askSignature_laxer f g v c sig key code).bind_eq fun valid => ?_
  refine (demand_laxer ?_ _).bind_eq fun _ => ?_
  · have := h.keeps Flags.nullFail fun _ _ => rfl
    grind
  · exact (Framed.dropTop 2).laxer.bind_eq fun _ => (Framed.pushBool _).laxer.bind_eq fun _ =>
      (Framed.verified _ _ _).laxer

theorem matchSigs_laxer (code : Script) (keys keyAt sigAt sigs : Nat) :
    Laxer (matchSigs ⟨f, v, c⟩ code keys keyAt sigAt sigs)
      (matchSigs ⟨g, v, c⟩ code keys keyAt sigAt sigs) := by
  induction keys generalizing keyAt sigAt sigs with
  | zero =>
      cases sigs with
      | zero => exact Laxer.pure rfl
      | succ sigs => exact Laxer.throw
  | succ keys ih =>
      cases sigs with
      | zero => exact Laxer.pure rfl
      | succ sigs =>
          refine (Framed.top sigAt).laxer.bind_eq fun sig => ?_
          refine (Framed.top keyAt).laxer.bind_eq fun key => ?_
          refine (demandSignatureEncoding_laxer h v c sig).bind_eq fun _ => ?_
          refine (demandKeyEncoding_laxer h v c key).bind_eq fun _ => ?_
          refine (askSignature_laxer f g v c sig key code).bind_eq fun valid => ?_
          exact Laxer.ite (Laxer.pure rfl) (ih _ _ _)

/-- An empty signature may be demanded of a failed check under more flags only. -/
theorem dropArguments_laxer (valid : Bool) (count beforeSigs : Nat) :
    Laxer (dropArguments ⟨f, v, c⟩ valid count beforeSigs)
      (dropArguments ⟨g, v, c⟩ valid count beforeSigs) := by
  induction count generalizing beforeSigs with
  | zero => exact Laxer.pure rfl
  | succ count ih =>
      have hrest := Framed.discard.laxer.bind_eq fun _ => ih (beforeSigs - 1)
      have hnull := h.keeps Flags.nullFail fun _ _ => rfl
      rw [dropArguments, dropArguments]
      dsimp only
      split
      · rw [if_pos (by grind)]
        exact (Framed.top 1).laxer.bind_eq fun _ => (Framed.demand _ _).laxer.bind_eq fun _ => hrest
      · split
        · exact (top_still 1).left_out fun _ => (demand_still _ _).left_out fun _ => hrest
        · exact hrest

theorem count_laxer (depth limit : Nat) (e : ScriptError) :
    Laxer (count ⟨f, v, c⟩ depth limit e) (count ⟨g, v, c⟩ depth limit e) :=
  (Framed.top depth).laxer.bind_eq fun _ => (number_laxer h v c _ _).bind_eq fun _ =>
    Laxer.ite Laxer.throw (Laxer.pure rfl)

theorem checkMultisig_laxer (verify : Bool) :
    Laxer (checkMultisig ⟨f, v, c⟩ verify) (checkMultisig ⟨g, v, c⟩ verify) := by
  refine (Framed.require 1).laxer.bind_eq fun _ => ?_
  refine (count_laxer h v c 1 maxKeysPerMultisig .pubkeyCount).bind_eq fun keys => ?_
  refine (countOps_laxer keys).bind_eq fun _ => ?_
  refine (Framed.require _).laxer.bind_eq fun _ => ?_
  refine (count_laxer h v c (keys + 2) keys .sigCount).bind_eq fun sigs => ?_
  refine (Framed.require _).laxer.bind_eq fun _ => ?_
  refine (Framed.items _ sigs).laxer.bind_eq fun items => ?_
  refine (Framed.scriptCode ⟨f, v, c⟩ items).laxer.bind_eq fun code => ?_
  refine (matchSigs_laxer h v c code keys 2 _ sigs).bind_eq fun valid => ?_
  refine (dropArguments_laxer h v c valid _ _).bind_eq fun _ => ?_
  refine (Framed.require 1).laxer.bind_eq fun _ => ?_
  refine (Framed.top 1).laxer.bind_eq fun extra => ?_
  refine (demand_flag h Flags.nullDummy (fun _ _ => rfl) _ _).bind_eq fun _ => ?_
  exact Framed.discard.laxer.bind_eq fun _ => (Framed.pushBool _).laxer.bind_eq fun _ =>
    (Framed.verified _ _ _).laxer

theorem conditional_laxer (negated : Bool) :
    Laxer (conditional ⟨f, v, c⟩ negated) (conditional ⟨g, v, c⟩ negated) := by
  refine Laxer.get_bind ?_
  rintro m _ ⟨trace, rfl⟩
  refine Laxer.ite ?_ (Framed.openBranch false).laxer
  refine Framed.stack.laxer.bind_eq fun _ => (Framed.demand _ _).laxer.bind_eq fun _ => ?_
  refine (Framed.top 1).laxer.bind_eq fun item => ?_
  have hminimal := demand_flag h (fun f => v == .witnessV0 && f.minimalIf)
    (fun f g => by simp [Flags.union, Bool.and_or_distrib_left]) (isMinimalCondition item)
    .minimalIf
  refine hminimal.bind_eq fun _ => Framed.discard.laxer.bind_eq fun _ => ?_
  exact (note_laxer _).bind_eq fun _ => (Framed.openBranch _).laxer

/-! ## Operations once kept for upgrades -/

theorem upgradable_laxer : Laxer (upgradable ⟨f, v, c⟩) (upgradable ⟨g, v, c⟩) := by
  refine demand_laxer (fun hg => ?_) _
  have := h.keeps Flags.discourageUpgradableNops fun _ _ => rfl
  grind

end

/-- An operation that a flag gives a meaning. The meaning changes nothing but the trace, so that
without the flag the operation may as well do nothing, unless that is discouraged. -/
theorem given_meaning {f g : Flags} (h : f.Within g) (v : HashVersion) (c : Checker)
    {flag : Flags → Bool} (hflag : ∀ f g, flag (f.union g) = (flag f || flag g))
    (hnop : f.discourageUpgradableNops → flag f = flag g) {t s : Step Unit}
    (hts : Laxer t s) (hs : Still s) :
    Laxer (if flag f then t else upgradable ⟨f, v, c⟩)
      (if flag g then s else upgradable ⟨g, v, c⟩) := by
  cases hf : flag f with
  | true =>
      rw [h.keeps flag hflag hf]
      exact hts
  | false =>
      cases hg : flag g with
      | true =>
          have hquiet : f.discourageUpgradableNops = false := by grind
          have hpure : upgradable ⟨f, v, c⟩ = pure () := by rw [upgradable, hquiet]; rfl
          rw [hpure]
          exact hs.laxer fun _ => rfl
      | false => exact upgradable_laxer h v c

section

variable {f g : Flags} (h : f.Within g) (hnops : f.discourageUpgradableNops → f.SameNops g)
  (v : HashVersion) (c : Checker)

include h hnops

theorem checkLockTime_laxer : Laxer (checkLockTime ⟨f, v, c⟩) (checkLockTime ⟨g, v, c⟩) := by
  refine given_meaning h v c (fun _ _ => rfl) (fun hf => (hnops hf).checkLockTimeVerify) ?_ ?_
  · refine (Framed.require 1).laxer.bind_eq fun _ => (Framed.top 1).laxer.bind_eq fun _ => ?_
    refine (number_laxer h v c _ _).bind_eq fun n => ?_
    refine (Framed.demand _ _).laxer.bind_eq fun _ => ?_
    have hask : Laxer (askLockTime ⟨f, v, c⟩ n) (askLockTime ⟨g, v, c⟩ n) :=
      (note_laxer _).bind_eq fun _ => (Framed.answered _).laxer
    exact hask.bind_eq fun _ => (Framed.demand _ _).laxer
  · refine (require_still 1).bind fun _ => (top_still 1).bind fun _ => ?_
    refine (number_still ..).bind fun n => (demand_still _ _).bind fun _ => ?_
    have hask : Still (askLockTime ⟨g, v, c⟩ n) := (note_still _).bind fun _ => answered_still _
    exact hask.bind fun _ => demand_still _ _

theorem checkSequence_laxer : Laxer (checkSequence ⟨f, v, c⟩) (checkSequence ⟨g, v, c⟩) := by
  refine given_meaning h v c (fun _ _ => rfl) (fun hf => (hnops hf).checkSequenceVerify) ?_ ?_
  · refine (Framed.require 1).laxer.bind_eq fun _ => (Framed.top 1).laxer.bind_eq fun _ => ?_
    refine (number_laxer h v c _ _).bind_eq fun n => ?_
    refine (Framed.demand _ _).laxer.bind_eq fun _ => Laxer.ite ?_ (Laxer.pure rfl)
    have hask : Laxer (askSequence ⟨f, v, c⟩ n) (askSequence ⟨g, v, c⟩ n) :=
      (note_laxer _).bind_eq fun _ => (Framed.answered _).laxer
    exact hask.bind_eq fun _ => (Framed.demand _ _).laxer
  · refine (require_still 1).bind fun _ => (top_still 1).bind fun _ => ?_
    refine (number_still ..).bind fun n => (demand_still _ _).bind fun _ => ?_
    have hask : Still (askSequence ⟨g, v, c⟩ n) := (note_still _).bind fun _ => answered_still _
    exact Still.ite (hask.bind fun _ => demand_still _ _) (.pure ())

theorem checkColdStake_laxer : Laxer (checkColdStake ⟨f, v, c⟩) (checkColdStake ⟨g, v, c⟩) := by
  refine given_meaning h v c (fun _ _ => rfl) (fun hf => (hnops hf).checkColdStakeVerify) ?_ ?_
  · have hask : Laxer (askColdStake ⟨f, v, c⟩) (askColdStake ⟨g, v, c⟩) :=
      (note_laxer _).bind_eq fun _ => Laxer.pure rfl
    exact hask.bind_eq fun _ => (Framed.demand _ _).laxer
  · have hask : Still (askColdStake ⟨g, v, c⟩) := (note_still _).bind fun _ => .pure _
    exact hask.bind fun _ => demand_still _ _

/-! ## Instructions, operations, scripts -/

theorem execute_laxer (rest : Bytes) (i : Instruction) :
    Laxer (execute ⟨f, v, c⟩ rest i) (execute ⟨g, v, c⟩ rest i) := by
  cases i with
  | checkLockTime => exact checkLockTime_laxer h hnops v c
  | checkSequence => exact checkSequence_laxer h hnops v c
  | checkColdStake => exact checkColdStake_laxer h hnops v c
  | upgradableNop => exact upgradable_laxer h v c
  | conditional negated => exact conditional_laxer h v c negated
  | fetch move =>
      refine (Framed.require 2).laxer.bind_eq fun _ => (Framed.top 1).laxer.bind_eq fun _ => ?_
      refine (number_laxer h v c _ _).bind_eq fun n => Framed.discard.laxer.bind_eq fun _ => ?_
      refine Framed.stack.laxer.bind_eq fun _ => (Framed.demand _ _).laxer.bind_eq fun _ => ?_
      exact (Framed.ite (Framed.moveUp _ 1) (Framed.copyUp _ 1)).laxer
  | unary op =>
      refine (Framed.require 1).laxer.bind_eq fun _ => (Framed.top 1).laxer.bind_eq fun _ => ?_
      exact (number_laxer h v c _ _).bind_eq fun _ => Framed.discard.laxer.bind_eq fun _ =>
        (Framed.pushNumber _).laxer
  | binary op verify =>
      refine (Framed.require 2).laxer.bind_eq fun _ => (Framed.top 2).laxer.bind_eq fun _ => ?_
      refine (number_laxer h v c _ _).bind_eq fun a => (Framed.top 1).laxer.bind_eq fun _ => ?_
      refine (number_laxer h v c _ _).bind_eq fun b => (Framed.dropTop 2).laxer.bind_eq fun _ => ?_
      refine (Framed.pushNumber _).laxer.bind_eq fun _ => Laxer.ite ?_ (Laxer.pure rfl)
      exact (Framed.top 1).laxer.bind_eq fun _ => (Framed.demand _ _).laxer.bind_eq fun _ =>
        Framed.discard.laxer
  | within =>
      refine (Framed.require 3).laxer.bind_eq fun _ => (Framed.top 3).laxer.bind_eq fun _ => ?_
      refine (number_laxer h v c _ _).bind_eq fun x => (Framed.top 2).laxer.bind_eq fun _ => ?_
      refine (number_laxer h v c _ _).bind_eq fun a => (Framed.top 1).laxer.bind_eq fun _ => ?_
      exact (number_laxer h v c _ _).bind_eq fun b => (Framed.dropTop 3).laxer.bind_eq fun _ =>
        (Framed.pushBool _).laxer
  | codeSeparator =>
      refine (Laxer.modify ?_).bind_eq fun _ => note_laxer _
      rintro m _ ⟨trace, rfl⟩
      exact ⟨trace, rfl⟩
  | checkSig verify => exact checkSig_laxer h v c verify
  | checkMultisig verify => exact checkMultisig_laxer h v c verify
  | small | nop | otherwise | endIf | verify | halt | toAltStack | fromAltStack | drop2 | dup2
  | dup3 | over2 | rot2 | swap2 | ifDup | depth | drop | dup | nip | over1 | rot | swap | tuck
  | size | equal | hashing | unknown =>
      -- no flag is looked at, so both sides are one framed step
      exact (Framed.execute ⟨f, v, c⟩ rest (by trivial)).laxer

/-- One operation goes through under fewer flags wherever it does under more. -/
theorem operation_laxer (rest : Bytes) (op : Op) :
    Laxer (operation ⟨f, v, c⟩ rest op) (operation ⟨g, v, c⟩ rest op) := by
  have hsize := Framed.demandStackSize.laxer
  cases op with
  | invalid opcode => exact Laxer.throw
  | push opcode data =>
      refine (Framed.demand _ _).laxer.bind_eq fun _ => (screen_laxer opcode).bind_eq fun _ => ?_
      refine Laxer.get_bind ?_
      rintro m _ ⟨trace, rfl⟩
      refine Laxer.ite ?_ hsize
      refine (demand_flag h Flags.minimalData (fun _ _ => rfl) _ _).bind_eq fun _ => ?_
      exact (Framed.push data).laxer.bind_eq fun _ => hsize
  | code opcode =>
      refine (screen_laxer opcode).bind_eq fun _ => Laxer.get_bind ?_
      rintro m _ ⟨trace, rfl⟩
      refine Laxer.ite ?_ hsize
      exact (execute_laxer h hnops v c rest _).bind_eq fun _ => hsize

theorem operations_laxer (fuel : Nat) (bs : Bytes) :
    Laxer (operations ⟨f, v, c⟩ fuel bs) (operations ⟨g, v, c⟩ fuel bs) := by
  induction fuel generalizing bs with
  | zero => exact Laxer.pure rfl
  | succ fuel ih =>
      rw [operations, operations]
      split
      · exact Laxer.pure rfl
      · exact (operation_laxer h hnops v c _ _).bind_eq fun _ => ih _

theorem script_laxer (s : Script) : Laxer (script ⟨f, v, c⟩ s) (script ⟨g, v, c⟩ s) := by
  refine (Framed.demand _ _).laxer.bind_eq fun _ => ?_
  refine (operations_laxer h hnops v c _ _).bind_eq fun _ => Laxer.get_bind ?_
  rintro m _ ⟨trace, rfl⟩
  exact (Framed.demand _ _).laxer

end

end Step

namespace Verification

variable {α β : Type}

/-- Wherever `s` goes through, `t` does so as well, with related results. -/
abbrev Laxer (S : α → α → Prop) (t s : Verification α) : Prop :=
  Stateful.Laxer (fun _ _ => True) S t s

theorem demand_laxer {c d : Bool} (h : d → c) (e : ScriptError) :
    Laxer Eq (demand c e) (demand d e) := by
  cases d with
  | true =>
      rw [h rfl]
      exact Laxer.pure rfl
  | false => exact Laxer.throw

theorem still (s : Verification α) : Still (fun _ _ => True) s := ⟨fun _ _ => trivial⟩

theorem witnessScript_laxer (witness : Witness) (program : Bytes) :
    Laxer Eq (witnessScript witness program) (witnessScript witness program) := by
  refine Laxer.ite ?_ ?_
  · split
    · exact Laxer.throw
    · exact (demand_laxer id _).bind_eq fun _ => Laxer.pure rfl
  · split
    · exact (demand_laxer id _).bind_eq fun _ => Laxer.pure rfl
    · exact Laxer.throw

section

variable {f g : Flags} (h : f.Within g) (hnops : f.discourageUpgradableNops → f.SameNops g)
  (c : Checker)

include h

theorem demand_flag (flag : Flags → Bool) (hflag : ∀ f g, flag (f.union g) = (flag f || flag g))
    (condition : Bool) (e : ScriptError) :
    Laxer Eq (demand (!flag f || condition) e) (demand (!flag g || condition) e) :=
  demand_laxer (h.relaxes flag hflag) e

include hnops

theorem run_laxer (v : HashVersion) (s : Script) (stack : List Bytes) :
    Laxer Eq (run ⟨f, c⟩ v s stack) (run ⟨g, c⟩ v s stack) where
  run_ok {trace trace' left n} _ hg := by
    rw [run] at hg
    split at hg
    · next u m hm =>
        cases hg
        have halike : (Machine.start stack s trace).Alike (Machine.start stack s trace') :=
          ⟨trace', rfl⟩
        obtain ⟨_, _, hf, rfl, trace'', rfl⟩ :=
          (Step.script_laxer h hnops v c s).run_ok halike hm
        refine ⟨m.stack, trace'', ?_, rfl, trivial⟩
        rw [run, Eval.run]
        dsimp only
        rw [hf]
    · cases hg

theorem witnessProgram_laxer (witness : Witness) (version : Nat) (program : Bytes) :
    Laxer Eq (witnessProgram ⟨f, c⟩ witness version program)
      (witnessProgram ⟨g, c⟩ witness version program) := by
  refine Laxer.ite ?_ ?_
  · refine (witnessScript_laxer witness program).bind_eq fun ⟨code, stack⟩ => ?_
    refine (demand_laxer id _).bind_eq fun _ => ?_
    refine (run_laxer h hnops c .witnessV0 code stack).bind_eq fun stack => ?_
    exact (demand_laxer id _).bind_eq fun _ => demand_laxer id _
  · refine demand_laxer (fun hg => ?_) _
    have := h.keeps Flags.discourageUpgradableWitnessProgram fun _ _ => rfl
    grind

/-- Without the witness flag the outcomes may differ, and need not be compared. -/
def Comparable (f : Flags) (strict lax : Outcome) : Prop := f.witness → strict = lax

theorem witnessStage_laxer (locking : Script) (witness : Witness) (bare : Bool) (e : ScriptError)
    {o o' : Outcome} (ho : Comparable f o o') :
    Laxer (Comparable f) (witnessStage ⟨f, c⟩ locking witness bare e o')
      (witnessStage ⟨g, c⟩ locking witness bare e o) := by
  rw [witnessStage, witnessStage]
  split
  · next version program _ =>
      dsimp only
      cases hf : f.witness with
      | true =>
          obtain rfl := ho hf
          rw [h.keeps Flags.witness (fun _ _ => rfl) hf]
          exact (demand_laxer id _).bind_eq fun _ =>
            (witnessProgram_laxer h hnops c witness version program).bind_eq fun _ =>
              Laxer.pure fun _ => rfl
      | false => exact (still _).laxer fun _ hw => nomatch hf.symm.trans hw
  · exact Laxer.pure ho

theorem redeemStage_laxer (scriptSig : Script) (witness : Witness) (left : List Bytes)
    {o o' : Outcome} (ho : Comparable f o o') :
    Laxer (Comparable f) (redeemStage ⟨f, c⟩ scriptSig witness left o')
      (redeemStage ⟨g, c⟩ scriptSig witness left o) := by
  refine (demand_laxer id _).bind_eq fun _ => ?_
  split
  · exact Laxer.throw
  · refine (run_laxer h hnops c .legacy _ _).bind_eq fun stack => ?_
    refine (demand_laxer id _).bind_eq fun _ => ?_
    exact witnessStage_laxer h hnops c _ witness _ _ fun hw => by rw [ho hw]

/-- The script behind a script hash may be run under more flags only; what follows then finds a
stack of its own, which without the witness flag is as good. -/
theorem hashed_laxer (hf : f.Coherent) (scriptSig locking : Script) (witness : Witness)
    (left : List Bytes) {o o' : Outcome} (ho : Comparable f o o')
    {k k' : Outcome → Verification Unit}
    (hk : ∀ o o', Comparable f o o' → Laxer Eq (k' o') (k o)) :
    Laxer Eq
      (if f.p2sh && locking.isScriptHash then
        redeemStage ⟨f, c⟩ scriptSig witness left o' >>= k' else pure o' >>= k')
      (if g.p2sh && locking.isScriptHash then
        redeemStage ⟨g, c⟩ scriptSig witness left o >>= k else pure o >>= k) := by
  cases hp : f.p2sh with
  | true =>
      rw [h.keeps Flags.p2sh (fun _ _ => rfl) hp]
      refine Laxer.ite ?_ ((Laxer.pure ho).bind hk)
      exact (redeemStage_laxer h hnops c scriptSig witness left ho).bind hk
  | false =>
      have hw : ∀ o, Comparable f o o' := fun o hw =>
        nomatch hp.symm.trans (hf.p2sh_of_witness hw)
      rw [Bool.false_and, if_neg Bool.false_ne_true]
      split
      · exact ((still _).laxer hw).bind hk
      · exact (Laxer.pure ho).bind hk

/-- A spend verifies under fewer flags wherever it does under more. -/
theorem spends_laxer (hf : f.Coherent) (scriptSig locking : Script) (witness : Witness) :
    Laxer Eq (spends ⟨f, c⟩ scriptSig locking witness)
      (spends ⟨g, c⟩ scriptSig locking witness) := by
  refine (demand_flag h Flags.sigPushOnly (fun _ _ => rfl) _ _).bind_eq fun _ => ?_
  refine (run_laxer h hnops c .legacy scriptSig []).bind_eq fun left => ?_
  refine (run_laxer h hnops c .legacy locking left).bind_eq fun stack => ?_
  refine (demand_laxer id _).bind_eq fun _ => ?_
  have hfirst : Comparable f ⟨stack, false⟩ ⟨stack, false⟩ := fun _ => rfl
  refine (witnessStage_laxer h hnops c locking witness _ _ hfirst).bind fun o o' ho => ?_
  refine hashed_laxer h hnops c hf scriptSig locking witness left ho fun o o' ho => ?_
  refine (demand_laxer (fun hg => ?_) _).bind_eq fun _ => demand_laxer (fun hg => ?_) _
  · have hclean := h.keeps Flags.cleanStack fun _ _ => rfl
    have hwitness := hf.witness_of_cleanStack
    grind [Comparable]
  · have hwitness := h.keeps Flags.witness fun _ _ => rfl
    grind [Comparable]

end

end Verification

/-- Flags only tighten: what holds under more of them holds under fewer. A spend that verifies
still does, and a script that runs through still does and leaves the same stack, on any stack and
under either scheme of signatures. The trace may differ in the questions that the flags add.
Nothing is asked of how the flags of `g` depend on each other. -/
theorem accepts_under_fewer_flags {f g : Flags} (h : f.Within g) (hf : f.Coherent)
    (hnops : f.discourageUpgradableNops → f.SameNops g) (c : Checker) :
    (∀ scriptSig locking witness trace,
      verifyScript ⟨g, c⟩ scriptSig locking witness = .ok () trace →
        ∃ trace', verifyScript ⟨f, c⟩ scriptSig locking witness = .ok () trace') ∧
    ∀ v s stack trace m, run ⟨g, v, c⟩ s stack trace = .ok () m →
      ∃ m', run ⟨f, v, c⟩ s stack trace = .ok () m' ∧ m'.stack = m.stack := by
  refine ⟨fun scriptSig locking witness trace hg => ?_, fun v s stack trace m hg => ?_⟩
  · have hspends := Verification.spends_laxer h hnops c hf scriptSig locking witness
    obtain ⟨_, trace', hok, -⟩ := hspends.run_ok trivial hg
    exact ⟨trace', hok⟩
  · have halike : (Machine.start stack s trace).Alike (Machine.start stack s trace) := ⟨trace, rfl⟩
    obtain ⟨_, _, hok, -, trace', rfl⟩ := (Step.script_laxer h hnops v c s).run_ok halike hg
    exact ⟨_, hok, rfl⟩

/-- A lock time that relay demands and a block may not know about yet. -/
theorem accepts_under_mandatory_flags :
    let c : Checker := { Checker.null with lockTime := fun n => .ok (n ≤ 20) }
    let locking : Script := ⟨[0x01, 0x11, Opcode.checkLockTimeVerify]⟩
    (∃ trace, verifyScript ⟨.standard, c⟩ ⟨[]⟩ locking [] = .ok () trace) ∧
    (∃ trace, verifyScript ⟨.mandatory, c⟩ ⟨[]⟩ locking [] = .ok () trace) ∧
    ∃ m, run ⟨.mandatory, .legacy, c⟩ locking [] [] = .ok () m ∧ m.stack = [[0x11]] := by
  intro c locking
  have htightens := accepts_under_fewer_flags (f := .mandatory) (g := .standard) (by decide)
    ⟨by decide, by decide, by decide⟩ (fun hd => nomatch hd) c
  have hverify : ∃ trace, verifyScript ⟨.standard, c⟩ ⟨[]⟩ locking [] = .ok () trace := ⟨_, rfl⟩
  have hrun : ∃ m, run ⟨.standard, .legacy, c⟩ locking [] [] = .ok () m ∧ m.stack = [[0x11]] :=
    ⟨_, rfl, rfl⟩
  refine ⟨hverify, ?_, ?_⟩
  · obtain ⟨trace, ht⟩ := hverify
    exact htightens.1 _ _ _ trace ht
  · obtain ⟨m, hm, hstack⟩ := hrun
    obtain ⟨m', hm', hsame⟩ := htightens.2 .legacy locking [] [] m hm
    exact ⟨m', hm', hsame.trans hstack⟩

end Eval

end StakeChain
