/-
What instructions do not touch.

Which conditionals are open is the business of three operations, and how many
operations were counted that of one more. All other instructions change stacks,
the part of the script that is signed, and the trace. A step that keeps the rest is
put together from steps that keep it, so the instructions are gone through once.
-/
import StakeChain.Proofs.Execution

namespace StakeChain.Eval

open Stateful

/-- The same conditionals are open as before, and operations were only counted within the
limit. -/
structure Machine.KeptFrom (u m : Machine) : Prop where
  branches : u.branches = m.branches
  le_opCount : m.opCount ≤ u.opCount
  opCount_le : m.opCount ≤ maxOpCount → u.opCount ≤ maxOpCount

theorem Machine.KeptFrom.refl (m : Machine) : m.KeptFrom m :=
  ⟨rfl, Nat.le_refl _, id⟩

namespace Step

variable {α : Type} {env : Env}

/-- A step that, where it goes through, keeps the open conditionals and the limit on
operations. -/
abbrev Keeps (t : Step α) : Prop := Stateful.Still Machine.KeptFrom t

theorem Keeps.ok {t : Step α} (h : Keeps t) {m u : Machine} {a : α} (ht : t m = .ok a u) :
    u.KeptFrom m :=
  h.run_ok (.refl m) ht

theorem Looks.keeps {t : Step α} (h : Looks t) : Keeps t where
  run_ok hm ht := by
    obtain rfl := h.run_ok rfl ht
    exact hm

theorem keeps_modify {k : Machine → Machine} (hbranches : ∀ m, (k m).branches = m.branches)
    (hcount : ∀ m, (k m).opCount = m.opCount) : Keeps (modify k) where
  run_ok hm ht := by
    obtain rfl := modify_eq_ok.mp ht
    refine ⟨(hbranches _).trans hm.branches, ?_, ?_⟩
    · rw [hcount]
      exact hm.le_opCount
    · rw [hcount]
      exact hm.opCount_le

/-! ## Parts of instructions -/

theorem keeps_setStack (items : List Bytes) : Keeps (setStack items) :=
  keeps_modify (fun _ => rfl) fun _ => rfl

theorem keeps_push (item : Bytes) : Keeps (push item) :=
  keeps_modify (fun _ => rfl) fun _ => rfl

theorem keeps_discard : Keeps discard :=
  keeps_modify (fun _ => rfl) fun _ => rfl

theorem keeps_note (e : Event) : Keeps (note e) :=
  keeps_modify (fun _ => rfl) fun _ => rfl

theorem keeps_require (n : Nat) : Keeps (require n) :=
  (looks_require n).keeps

theorem keeps_top (depth : Nat) : Keeps (top depth) :=
  (looks_top depth).keeps

theorem keeps_demand (condition : Bool) (e : ScriptError) : Keeps (demand condition e) :=
  (looks_demand condition e).keeps

theorem keeps_stack : Keeps stack :=
  looks_stack.keeps

theorem keeps_pop : Keeps pop := by
  refine keeps_stack.bind fun items => ?_
  split
  · exact (keeps_setStack _).bind fun _ => .pure _
  · exact .throw

theorem keeps_dropTop (n : Nat) : Keeps (dropTop n) :=
  keeps_stack.bind fun _ => .ite .throw (keeps_setStack _)

theorem keeps_removeAt (depth : Nat) : Keeps (removeAt depth) :=
  (keeps_top depth).bind fun _ => keeps_stack.bind fun _ => (keeps_setStack _).bind fun _ =>
    .pure _

theorem keeps_insertBelow (above : Nat) (item : Bytes) : Keeps (insertBelow above item) :=
  keeps_stack.bind fun _ => .ite .throw (keeps_setStack _)

theorem keeps_swapAt (d e : Nat) : Keeps (swapAt d e) :=
  (keeps_top d).bind fun _ => (keeps_top e).bind fun _ => keeps_stack.bind fun _ =>
    keeps_setStack _

theorem looks_number (env : Env) (item : Bytes) (width : Nat) : Looks (number env item width) := by
  rw [number]
  split
  · exact .pure _
  · exact .throw

theorem keeps_number (item : Bytes) (width : Nat) : Keeps (number env item width) :=
  (looks_number env item width).keeps

theorem keeps_pushNumber (n : Int) : Keeps (pushNumber n) :=
  .ite (keeps_push _) .throw

theorem keeps_copyUp (depth count : Nat) : Keeps (copyUp depth count) := by
  induction count with
  | zero => exact .pure ()
  | succ count ih => exact (keeps_top depth).bind fun _ => (keeps_push _).bind fun _ => ih

theorem keeps_moveUp (depth count : Nat) : Keeps (moveUp depth count) := by
  induction count with
  | zero => exact .pure ()
  | succ count ih => exact (keeps_removeAt depth).bind fun _ => (keeps_push _).bind fun _ => ih

theorem looks_items (depth count : Nat) : Looks (items depth count) := by
  induction count generalizing depth with
  | zero => exact .pure []
  | succ count ih => exact (looks_top depth).bind fun _ => (ih _).bind fun _ => .pure _

theorem keeps_countOps (n : Nat) : Keeps (countOps n) where
  run_ok hm ht := by
    obtain ⟨hle, rfl⟩ := countOps_eq_ok.mp ht
    exact ⟨hm.branches, hm.le_opCount.trans (Nat.le_add_right _ _), fun _ => hle⟩

theorem keeps_screen (opcode : UInt8) : Keeps (screen opcode) :=
  .ite ((keeps_countOps 1).bind fun _ => keeps_demand _ _) (keeps_demand _ _)

theorem keeps_demandStackSize : Keeps demandStackSize :=
  .get_bind fun _ => keeps_demand _ _

/-! ## Questions and signature checks -/

theorem looks_answered (a : Answer) : Looks (answered a) := by
  cases a with
  | ok b => exact .pure b
  | error f => exact .throw

theorem keeps_askSignature (sig key : Bytes) (code : Script) :
    Keeps (askSignature env sig key code) :=
  (keeps_note _).bind fun _ => (looks_answered _).keeps

theorem keeps_askLockTime (demanded : Int) : Keeps (askLockTime env demanded) :=
  (keeps_note _).bind fun _ => (looks_answered _).keeps

theorem keeps_askSequence (demanded : Int) : Keeps (askSequence env demanded) :=
  (keeps_note _).bind fun _ => (looks_answered _).keeps

theorem keeps_askColdStake : Keeps (askColdStake env) :=
  (keeps_note _).bind fun _ => .pure _

/-- The end of an instruction that pushes a truth value and may demand it. -/
theorem keeps_result (b verify condition : Bool) (e : ScriptError) :
    Keeps (pushBool b >>= fun _ =>
      if verify then demand condition e >>= fun _ => discard else pure ()) :=
  (keeps_push _).bind fun _ => .ite ((keeps_demand _ _).bind fun _ => keeps_discard) (.pure ())

theorem keeps_checkSig (verify : Bool) : Keeps (checkSig env verify) := by
  refine (keeps_require 2).bind fun _ => (keeps_top 2).bind fun sig => ?_
  refine (keeps_top 1).bind fun key => (looks_scriptCode env [sig]).keeps.bind fun code => ?_
  refine (looks_demandSignatureEncoding env sig).keeps.bind fun _ => ?_
  refine (looks_demandKeyEncoding env key).keeps.bind fun _ => ?_
  refine (keeps_askSignature sig key code).bind fun valid => (keeps_demand _ _).bind fun _ => ?_
  exact (keeps_dropTop 2).bind fun _ => keeps_result _ _ _ _

theorem keeps_matchSigs (code : Script) (keys keyAt sigAt sigs : Nat) :
    Keeps (matchSigs env code keys keyAt sigAt sigs) := by
  induction keys generalizing keyAt sigAt sigs with
  | zero =>
      cases sigs with
      | zero => exact .pure true
      | succ sigs => exact .throw
  | succ keys ih =>
      cases sigs with
      | zero => exact .pure true
      | succ sigs =>
          refine (keeps_top sigAt).bind fun sig => (keeps_top keyAt).bind fun key => ?_
          refine (looks_demandSignatureEncoding env sig).keeps.bind fun _ => ?_
          refine (looks_demandKeyEncoding env key).keeps.bind fun _ => ?_
          exact (keeps_askSignature sig key code).bind fun _ => .ite (.pure false) (ih _ _ _)

theorem keeps_dropArguments (valid : Bool) (count beforeSigs : Nat) :
    Keeps (dropArguments env valid count beforeSigs) := by
  induction count generalizing beforeSigs with
  | zero => exact .pure ()
  | succ count ih =>
      have hrest := keeps_discard.bind fun _ => ih (beforeSigs - 1)
      exact .ite ((keeps_top 1).bind fun _ => (keeps_demand _ _).bind fun _ => hrest) hrest

theorem looks_count (env : Env) (depth limit : Nat) (e : ScriptError) :
    Looks (count env depth limit e) :=
  (looks_top depth).bind fun _ => (looks_number ..).bind fun _ => .ite .throw (.pure _)

theorem keeps_checkMultisig (verify : Bool) : Keeps (checkMultisig env verify) := by
  refine (keeps_require 1).bind fun _ => (looks_count ..).keeps.bind fun keys => ?_
  refine (keeps_countOps keys).bind fun _ => (keeps_require _).bind fun _ => ?_
  refine (looks_count ..).keeps.bind fun sigs => (keeps_require _).bind fun _ => ?_
  refine (looks_items _ sigs).keeps.bind fun items => ?_
  refine (looks_scriptCode env items).keeps.bind fun code => ?_
  refine (keeps_matchSigs code keys 2 _ sigs).bind fun valid => ?_
  refine (keeps_dropArguments valid _ _).bind fun _ => (keeps_require 1).bind fun _ => ?_
  refine (keeps_top 1).bind fun _ => (keeps_demand _ _).bind fun _ => ?_
  exact keeps_discard.bind fun _ => keeps_result _ _ _ _

/-! ## Instructions -/

theorem keeps_upgradable : Keeps (upgradable env) :=
  keeps_demand _ _

theorem keeps_checkLockTime : Keeps (checkLockTime env) := by
  refine .ite ((keeps_require 1).bind fun _ => (keeps_top 1).bind fun _ => ?_) keeps_upgradable
  refine (keeps_number _ _).bind fun _ => (keeps_demand _ _).bind fun _ => ?_
  exact (keeps_askLockTime _).bind fun _ => keeps_demand _ _

theorem keeps_checkSequence : Keeps (checkSequence env) := by
  refine .ite ((keeps_require 1).bind fun _ => (keeps_top 1).bind fun _ => ?_) keeps_upgradable
  refine (keeps_number _ _).bind fun _ => (keeps_demand _ _).bind fun _ => ?_
  exact .ite ((keeps_askSequence _).bind fun _ => keeps_demand _ _) (.pure ())

theorem keeps_checkColdStake : Keeps (checkColdStake env) :=
  .ite (keeps_askColdStake.bind fun _ => keeps_demand _ _) keeps_upgradable

theorem keeps_fetch (move : Bool) : Keeps (fetch env move) := by
  refine (keeps_require 2).bind fun _ => (keeps_top 1).bind fun _ => ?_
  refine (keeps_number _ _).bind fun _ => keeps_discard.bind fun _ => ?_
  refine keeps_stack.bind fun _ => (keeps_demand _ _).bind fun _ => ?_
  exact .ite (keeps_moveUp _ 1) (keeps_copyUp _ 1)

theorem keeps_binary (f : Binary) (verify : Bool) : Keeps (binary env f verify) := by
  refine (keeps_require 2).bind fun _ => (keeps_top 2).bind fun _ => ?_
  refine (keeps_number _ _).bind fun _ => (keeps_top 1).bind fun _ => ?_
  refine (keeps_number _ _).bind fun _ => (keeps_dropTop 2).bind fun _ => ?_
  refine (keeps_pushNumber _).bind fun _ => .ite ?_ (.pure ())
  exact (keeps_top 1).bind fun _ => (keeps_demand _ _).bind fun _ => keeps_discard

theorem keeps_within : Keeps (within env) := by
  refine (keeps_require 3).bind fun _ => (keeps_top 3).bind fun _ => ?_
  refine (keeps_number _ _).bind fun _ => (keeps_top 2).bind fun _ => ?_
  refine (keeps_number _ _).bind fun _ => (keeps_top 1).bind fun _ => ?_
  exact (keeps_number _ _).bind fun _ => (keeps_dropTop 3).bind fun _ => keeps_push _

/-- The instructions that open, turn or close a conditional. -/
def IsConditional : Instruction → Prop
  | .conditional _ | .otherwise | .endIf => True
  | _ => False

theorem keeps_execute (rest : Bytes) {i : Instruction} (hi : ¬ IsConditional i) :
    Keeps (execute env rest i) := by
  cases i with
  | conditional _ | otherwise | endIf => exact (hi trivial).elim
  | small n => exact keeps_pushNumber _
  | nop => exact .pure ()
  | checkLockTime => exact keeps_checkLockTime
  | checkSequence => exact keeps_checkSequence
  | checkColdStake => exact keeps_checkColdStake
  | upgradableNop => exact keeps_upgradable
  | verify =>
      exact (keeps_require 1).bind fun _ => (keeps_top 1).bind fun _ =>
        (keeps_demand _ _).bind fun _ => keeps_discard
  | halt | unknown => exact .throw
  | toAltStack => exact keeps_pop.bind fun _ => keeps_modify (fun _ => rfl) fun _ => rfl
  | fromAltStack =>
      refine .get_bind fun m => ?_
      split
      · exact .bind (keeps_modify (fun _ => rfl) fun _ => rfl) fun _ => keeps_push _
      · exact .throw
  | drop2 => exact (keeps_require 2).bind fun _ => keeps_dropTop 2
  | dup2 => exact (keeps_require 2).bind fun _ => keeps_copyUp 2 2
  | dup3 => exact (keeps_require 3).bind fun _ => keeps_copyUp 3 3
  | over2 => exact (keeps_require 4).bind fun _ => keeps_copyUp 4 2
  | rot2 => exact (keeps_require 6).bind fun _ => keeps_moveUp 6 2
  | swap2 =>
      exact (keeps_require 4).bind fun _ => (keeps_swapAt 4 2).bind fun _ => keeps_swapAt 3 1
  | ifDup =>
      exact (keeps_require 1).bind fun _ => (keeps_top 1).bind fun _ =>
        .ite (keeps_push _) (.pure ())
  | depth => exact keeps_stack.bind fun _ => keeps_push _
  | drop => exact keeps_pop.bind fun _ => .pure ()
  | dup => exact (keeps_require 1).bind fun _ => keeps_copyUp 1 1
  | nip => exact (keeps_require 2).bind fun _ => (keeps_removeAt 2).bind fun _ => .pure ()
  | over1 => exact (keeps_require 2).bind fun _ => keeps_copyUp 2 1
  | fetch move => exact keeps_fetch move
  | rot =>
      exact (keeps_require 3).bind fun _ => (keeps_swapAt 3 2).bind fun _ => keeps_swapAt 2 1
  | swap => exact (keeps_require 2).bind fun _ => keeps_swapAt 2 1
  | tuck => exact (keeps_require 2).bind fun _ => (keeps_top 1).bind fun _ => keeps_insertBelow 2 _
  | size => exact (keeps_require 1).bind fun _ => (keeps_top 1).bind fun _ => keeps_push _
  | equal verify =>
      exact (keeps_require 2).bind fun _ => keeps_pop.bind fun _ => keeps_pop.bind fun _ =>
        keeps_result _ _ _ _
  | unary f =>
      exact (keeps_require 1).bind fun _ => (keeps_top 1).bind fun _ =>
        (keeps_number _ _).bind fun _ => keeps_discard.bind fun _ => keeps_pushNumber _
  | binary f verify => exact keeps_binary f verify
  | within => exact keeps_within
  | hashing h => exact keeps_pop.bind fun _ => keeps_push _
  | codeSeparator => exact .bind (keeps_modify (fun _ => rfl) fun _ => rfl) fun _ => keeps_note _
  | checkSig verify => exact keeps_checkSig verify
  | checkMultisig verify => exact keeps_checkMultisig verify

end Step

end StakeChain.Eval
