/-
What most steps of an evaluation leave alone.

A step is `Framed` if it neither looks at the count of operations and the
trace nor touches them. All instructions are, but those that ask the
checker or note an event. Where two evaluations differ in their traces
only, or where events are counted, framed steps need no further thought.
-/
import StakeChain.Eval.Step
import StakeChain.Proofs.Stateful

namespace StakeChain.Eval

open Stateful

/-- The same machine with another count of operations and another trace. -/
def Machine.reframed (m : Machine) (opCount : Nat) (trace : List Event) : Machine :=
  { m with opCount := opCount, trace := trace }

/-- An outcome with its machine changed. -/
def mapMachine {α : Type} (k : Machine → Machine) :
    EStateM.Result Halt Machine α → EStateM.Result Halt Machine α
  | .ok a m => .ok a (k m)
  | .error e m => .error e (k m)

/-- A step that neither looks at the count of operations and the trace nor touches them. -/
structure Step.Framed {α : Type} (t : Step α) : Prop where
  run_reframed : ∀ m opCount trace,
    t (m.reframed opCount trace) = mapMachine (·.reframed opCount trace) (t m)

namespace Step.Framed

variable {α β : Type} {t : Step α} {m n : Machine}

theorem ok (h : Framed t) {a : α} (ht : t m = .ok a n) (opCount : Nat) (trace : List Event) :
    t (m.reframed opCount trace) = .ok a (n.reframed opCount trace) := by
  rw [h.run_reframed, ht]
  rfl

/-- A framed step ends with the count of operations and the trace that it started with. -/
theorem endOf_eq (h : Framed t) :
    (endOf (t m)).opCount = m.opCount ∧ (endOf (t m)).trace = m.trace := by
  have hm := h.run_reframed m m.opCount m.trace
  change t m = _ at hm
  cases ht : t m with
  | ok a n =>
      rw [ht] at hm
      rw [hm]
      exact ⟨rfl, rfl⟩
  | error e n =>
      rw [ht] at hm
      rw [hm]
      exact ⟨rfl, rfl⟩

/-! ## Ways of putting steps together -/

theorem pure (a : α) : Framed (Pure.pure a : Step α) := ⟨fun _ _ _ => rfl⟩

theorem fail (e : ScriptError) : Framed (Step.fail e : Step α) := ⟨fun _ _ _ => rfl⟩

theorem fault (f : Fault) : Framed (Step.fault f : Step α) := ⟨fun _ _ _ => rfl⟩

theorem bind {f : α → Step β} (ht : Framed t) (hf : ∀ a, Framed (f a)) : Framed (t >>= f) where
  run_reframed m opCount trace := by
    cases h : t m with
    | ok a n =>
        rw [bind_of_ok (ht.ok h opCount trace), bind_of_ok h, (hf a).run_reframed]
    | error e n =>
        have h' := ht.run_reframed m opCount trace
        rw [h] at h'
        rw [bind_of_error h', bind_of_error h]
        rfl

/-- A step that looks at the machine, but not at the count of operations or the trace. -/
theorem get_bind {f : Machine → Step α} (hf : ∀ m, Framed (f m))
    (hsame : ∀ m opCount trace, f (m.reframed opCount trace) = f m) :
    Framed (get >>= f) where
  run_reframed m opCount trace := by
    change f (m.reframed opCount trace) (m.reframed opCount trace) = mapMachine _ (f m m)
    rw [hsame, (hf m).run_reframed]

theorem modify {k : Machine → Machine}
    (h : ∀ m opCount trace, k (m.reframed opCount trace) = (k m).reframed opCount trace) :
    Framed (modify k) where
  run_reframed m opCount trace := congrArg (EStateM.Result.ok PUnit.unit) (h m opCount trace)

theorem ite {c : Prop} [Decidable c] {t s : Step α} (ht : Framed t) (hs : Framed s) :
    Framed (if c then t else s) := by
  split
  · exact ht
  · exact hs

theorem demand (condition : Bool) (e : ScriptError) : Framed (Step.demand condition e) :=
  ite (pure ()) (fail e)

theorem answered (a : Answer) : Framed (Step.answered a) := by
  cases a with
  | ok b => exact pure b
  | error e => exact fault e

/-! ## The stack -/

theorem stack : Framed Step.stack := get_bind (fun _ => pure _) fun _ _ _ => rfl

theorem setStack (items : List Bytes) : Framed (Step.setStack items) := modify fun _ _ _ => rfl

theorem require (n : Nat) : Framed (Step.require n) := stack.bind fun _ => demand _ _

theorem top (depth : Nat) : Framed (Step.top depth) := by
  refine ite (fault _) (stack.bind fun items => ?_)
  split
  · exact pure _
  · exact fault _

theorem push (item : Bytes) : Framed (Step.push item) := modify fun _ _ _ => rfl

theorem pop : Framed Step.pop := by
  refine stack.bind fun items => ?_
  split
  · exact (setStack _).bind fun _ => pure _
  · exact fail _

theorem discard : Framed Step.discard := modify fun _ _ _ => rfl

theorem dropTop (n : Nat) : Framed (Step.dropTop n) :=
  stack.bind fun _ => ite (fault _) (setStack _)

theorem removeAt (depth : Nat) : Framed (Step.removeAt depth) :=
  (top depth).bind fun _ => stack.bind fun _ => (setStack _).bind fun _ => pure _

theorem insertBelow (above : Nat) (item : Bytes) : Framed (Step.insertBelow above item) :=
  stack.bind fun _ => ite (fault _) (setStack _)

theorem swapAt (d e : Nat) : Framed (Step.swapAt d e) :=
  (top d).bind fun _ => (top e).bind fun _ => stack.bind fun _ => setStack _

theorem number (env : Env) (item : Bytes) (width : Nat) :
    Framed (Step.number env item width) := by
  rw [Step.number]
  split
  · exact pure _
  · exact fail _

theorem pushNumber (n : Int) : Framed (Step.pushNumber n) := ite (push _) (fault _)

theorem pushBool (b : Bool) : Framed (Step.pushBool b) := push _

theorem copyUp (depth count : Nat) : Framed (Step.copyUp depth count) := by
  induction count with
  | zero => exact pure ()
  | succ count ih => exact (top depth).bind fun _ => (push _).bind fun _ => ih

theorem moveUp (depth count : Nat) : Framed (Step.moveUp depth count) := by
  induction count with
  | zero => exact pure ()
  | succ count ih => exact (removeAt depth).bind fun _ => (push _).bind fun _ => ih

theorem items (depth count : Nat) : Framed (Step.items depth count) := by
  induction count generalizing depth with
  | zero => exact pure []
  | succ count ih => exact (top depth).bind fun _ => (ih _).bind fun _ => pure _

theorem scriptCode (env : Env) (sigs : List Bytes) : Framed (Step.scriptCode env sigs) := by
  refine get_bind (fun m => ?_) fun _ _ _ => rfl
  dsimp only
  split
  · exact pure _
  · exact pure _

/-! ## Parts of the signature checks -/

theorem demandSignatureEncoding (env : Env) (sig : Bytes) :
    Framed (Step.demandSignatureEncoding env sig) :=
  ite (pure ()) ((demand _ _).bind fun _ => (demand _ _).bind fun _ => demand _ _)

theorem demandKeyEncoding (env : Env) (key : Bytes) : Framed (Step.demandKeyEncoding env key) :=
  (demand _ _).bind fun _ => demand _ _

theorem count (env : Env) (depth limit : Nat) (e : ScriptError) :
    Framed (Step.count env depth limit e) :=
  (top depth).bind fun _ => (number ..).bind fun _ => ite (fail e) (pure _)

theorem dropArguments (env : Env) (valid : Bool) (count beforeSigs : Nat) :
    Framed (Step.dropArguments env valid count beforeSigs) := by
  induction count generalizing beforeSigs with
  | zero => exact pure ()
  | succ count ih =>
      have hrest := discard.bind fun _ => ih (beforeSigs - 1)
      exact ite ((top 1).bind fun _ => (demand _ _).bind fun _ => hrest) hrest

/-! ## Instructions -/

theorem upgradable (env : Env) : Framed (Step.upgradable env) := demand _ _

theorem openBranch (taken : Bool) : Framed (Step.openBranch taken) := modify fun _ _ _ => rfl

theorem otherwise : Framed Step.otherwise := by
  refine get_bind (fun m => ?_) fun _ _ _ => rfl
  split
  · exact modify fun _ _ _ => rfl
  · exact fail _

theorem endIf : Framed Step.endIf := by
  refine get_bind (fun m => ?_) fun _ _ _ => rfl
  split
  · exact modify fun _ _ _ => rfl
  · exact fail _

theorem fetch (env : Env) (move : Bool) : Framed (Step.fetch env move) :=
  (require 2).bind fun _ => (top 1).bind fun _ => (number ..).bind fun _ => discard.bind fun _ =>
    stack.bind fun _ => (demand _ _).bind fun _ => ite (moveUp _ _) (copyUp _ _)

/-- The end of an instruction that may demand its own result. -/
theorem verified (verify condition : Bool) (e : ScriptError) :
    Framed (if verify then Step.demand condition e >>= fun _ => Step.discard
      else Pure.pure () : Step Unit) :=
  ite ((demand _ _).bind fun _ => discard) (pure ())

theorem equal (verify : Bool) : Framed (Step.equal verify) :=
  (require 2).bind fun _ => pop.bind fun _ => pop.bind fun _ => (pushBool _).bind fun _ =>
    verified verify _ _

theorem binary (env : Env) (f : Binary) (verify : Bool) : Framed (Step.binary env f verify) :=
  (require 2).bind fun _ => (top 2).bind fun _ => (number ..).bind fun _ => (top 1).bind fun _ =>
    (number ..).bind fun _ => (dropTop 2).bind fun _ => (pushNumber _).bind fun _ =>
      ite ((top 1).bind fun _ => (demand _ _).bind fun _ => discard) (pure ())

theorem within (env : Env) : Framed (Step.within env) :=
  (require 3).bind fun _ => (top 3).bind fun _ => (number ..).bind fun _ => (top 2).bind fun _ =>
    (number ..).bind fun _ => (top 1).bind fun _ => (number ..).bind fun _ =>
      (dropTop 3).bind fun _ => pushBool _

/-- The instructions that ask the checker nothing and note no event. -/
def IsPlain : Instruction → Prop
  | .checkLockTime | .checkSequence | .checkColdStake | .conditional _ | .codeSeparator
  | .checkSig _ | .checkMultisig _ => False
  | _ => True

theorem execute (env : Env) (rest : Bytes) {i : Instruction} (hi : IsPlain i) :
    Framed (Step.execute env rest i) := by
  cases i with
  | checkLockTime | checkSequence | checkColdStake | codeSeparator => exact hi.elim
  | conditional _ | checkSig _ | checkMultisig _ => exact hi.elim
  | small n => exact pushNumber _
  | nop => exact pure ()
  | upgradableNop => exact upgradable env
  | otherwise => exact otherwise
  | endIf => exact endIf
  | verify =>
      exact (require 1).bind fun _ => (top 1).bind fun _ => (demand _ _).bind fun _ => discard
  | halt => exact fail _
  | toAltStack => exact pop.bind fun _ => modify fun _ _ _ => rfl
  | fromAltStack =>
      refine get_bind (fun m => ?_) fun _ _ _ => rfl
      split
      · exact (modify fun _ _ _ => rfl).bind fun _ => push _
      · exact fail _
  | drop2 => exact (require 2).bind fun _ => dropTop 2
  | dup2 => exact (require 2).bind fun _ => copyUp 2 2
  | dup3 => exact (require 3).bind fun _ => copyUp 3 3
  | over2 => exact (require 4).bind fun _ => copyUp 4 2
  | rot2 => exact (require 6).bind fun _ => moveUp 6 2
  | swap2 => exact (require 4).bind fun _ => (swapAt 4 2).bind fun _ => swapAt 3 1
  | ifDup => exact (require 1).bind fun _ => (top 1).bind fun _ => ite (push _) (pure ())
  | depth => exact stack.bind fun _ => push _
  | drop => exact pop.bind fun _ => pure ()
  | dup => exact (require 1).bind fun _ => copyUp 1 1
  | nip => exact (require 2).bind fun _ => (removeAt 2).bind fun _ => pure ()
  | over1 => exact (require 2).bind fun _ => copyUp 2 1
  | fetch move => exact fetch env move
  | rot => exact (require 3).bind fun _ => (swapAt 3 2).bind fun _ => swapAt 2 1
  | swap => exact (require 2).bind fun _ => swapAt 2 1
  | tuck => exact (require 2).bind fun _ => (top 1).bind fun _ => insertBelow 2 _
  | size => exact (require 1).bind fun _ => (top 1).bind fun _ => push _
  | equal verify => exact equal verify
  | unary f =>
      exact (require 1).bind fun _ => (top 1).bind fun _ => (number ..).bind fun _ =>
        discard.bind fun _ => pushNumber _
  | binary f verify => exact binary env f verify
  | within => exact within env
  | hashing h => exact pop.bind fun _ => push _
  | unknown => exact fail _

theorem demandStackSize : Framed Step.demandStackSize :=
  get_bind (fun _ => demand _ _) fun _ _ _ => rfl

end Step.Framed

end StakeChain.Eval
