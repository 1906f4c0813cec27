/-
What an evaluation notes, and over which script signatures are checked.

Only a code separator changes the part of the script that signatures commit
to. So between two separators all signatures are over the same script, and
what a step notes can be told from the machine before it, however it ends:
the instructions are gone through once, each of them with the kind of events
that it may note.
-/
import StakeChain.Proofs.SigBound

namespace StakeChain.Eval

open Stateful

/-- However the step ends, the part of the script that is signed is still the one before it, and
all that was noted is of a kind, which may depend on that part. -/
structure Step.Notes {α : Type} (kind : Bytes → Event → Prop) (t : Step α) : Prop where
  code_eq : ∀ m, (endOf (t m)).code = m.code
  trace_eq : ∀ m, ∃ noted, (endOf (t m)).trace = noted ++ m.trace ∧ ∀ e ∈ noted, kind m.code e

/-- A signature is over what is signed of some part of the script, in the version of the
evaluation. Of other events nothing is said. -/
def Event.Over (version : HashVersion) (part : Bytes) : Event → Prop
  | .signature _ _ code v _ => v = version ∧ ∃ sigs, code = Step.signedCode version part sigs
  | _ => True

namespace Step.Notes

variable {α β : Type} {kind : Bytes → Event → Prop} {t : Step α} {env : Env}

theorem of_unchanged (hcode : ∀ m, (endOf (t m)).code = m.code)
    (htrace : ∀ m, (endOf (t m)).trace = m.trace) : Notes kind t :=
  ⟨hcode, fun m => ⟨[], htrace m, nofun⟩⟩

/-! ## Ways of putting steps together -/

theorem pure (a : α) : Notes kind (Pure.pure a : Step α) :=
  of_unchanged (fun _ => rfl) fun _ => rfl

theorem throw (e : Halt) : Notes kind (throw e : Step α) :=
  of_unchanged (fun _ => rfl) fun _ => rfl

theorem bind {f : α → Step β} (ht : Notes kind t) (hf : ∀ a, Notes kind (f a)) :
    Notes kind (t >>= f) where
  code_eq m := by
    have hfirst := ht.code_eq m
    cases h : t m with
    | ok a n =>
        rw [h] at hfirst
        rw [bind_of_ok h, (hf a).code_eq]
        exact hfirst
    | error e n =>
        rw [h] at hfirst
        rw [bind_of_error h]
        exact hfirst
  trace_eq m := by
    have hcode := ht.code_eq m
    obtain ⟨noted, hnoted, hkind⟩ := ht.trace_eq m
    cases h : t m with
    | ok a n =>
        rw [h] at hcode hnoted
        change n.code = m.code at hcode
        change n.trace = _ at hnoted
        obtain ⟨later, hlater, hkind'⟩ := (hf a).trace_eq n
        refine ⟨later ++ noted, ?_, fun e he => ?_⟩
        · rw [bind_of_ok h, hlater, hnoted, List.append_assoc]
        · rcases List.mem_append.mp he with he | he
          · exact hcode ▸ hkind' e he
          · exact hkind e he
    | error e n =>
        rw [h] at hnoted
        rw [bind_of_error h]
        exact ⟨noted, hnoted, hkind⟩

theorem get_bind {f : Machine → Step α} (hf : ∀ m, Notes kind (f m)) :
    Notes kind (get >>= f) where
  code_eq m := (hf m).code_eq m
  trace_eq m := (hf m).trace_eq m

theorem modify {k : Machine → Machine} (hcode : ∀ m, (k m).code = m.code)
    (htrace : ∀ m, (k m).trace = m.trace) : Notes kind (modify k) :=
  of_unchanged hcode htrace

theorem ite {c : Prop} [Decidable c] {s : Step α} (ht : Notes kind t) (hs : Notes kind s) :
    Notes kind (if c then t else s) := by
  split
  · exact ht
  · exact hs

theorem note {e : Event} (he : ∀ code, kind code e) : Notes kind (Step.note e) where
  code_eq _ := rfl
  trace_eq m := ⟨[e], rfl, by simpa using he m.code⟩

theorem demand (condition : Bool) (e : ScriptError) : Notes kind (Step.demand condition e) :=
  ite (pure ()) (throw _)

theorem answered (a : Answer) : Notes kind (Step.answered a) := by
  cases a with
  | ok b => exact pure b
  | error f => exact throw _

/-! ## The stack -/

theorem stack : Notes kind Step.stack := get_bind fun _ => pure _

theorem setStack (items : List Bytes) : Notes kind (Step.setStack items) :=
  modify (fun _ => rfl) fun _ => rfl

theorem require (n : Nat) : Notes kind (Step.require n) := stack.bind fun _ => demand _ _

theorem top (depth : Nat) : Notes kind (Step.top depth) := by
  refine ite (throw _) (stack.bind fun items => ?_)
  split
  · exact pure _
  · exact throw _

theorem push (item : Bytes) : Notes kind (Step.push item) :=
  modify (fun _ => rfl) fun _ => rfl

theorem pop : Notes kind Step.pop := by
  refine stack.bind fun items => ?_
  split
  · exact (setStack _).bind fun _ => pure _
  · exact throw _

theorem discard : Notes kind Step.discard := modify (fun _ => rfl) fun _ => rfl

theorem dropTop (n : Nat) : Notes kind (Step.dropTop n) :=
  stack.bind fun _ => ite (throw _) (setStack _)

theorem removeAt (depth : Nat) : Notes kind (Step.removeAt depth) :=
  (top depth).bind fun _ => stack.bind fun _ => (setStack _).bind fun _ => pure _

theorem insertBelow (above : Nat) (item : Bytes) : Notes kind (Step.insertBelow above item) :=
  stack.bind fun _ => ite (throw _) (setStack _)

theorem swapAt (d e : Nat) : Notes kind (Step.swapAt d e) :=
  (top d).bind fun _ => (top e).bind fun _ => stack.bind fun _ => setStack _

theorem number (item : Bytes) (width : Nat) : Notes kind (Step.number env item width) := by
  rw [Step.number]
  split
  · exact pure _
  · exact throw _

theorem pushNumber (n : Int) : Notes kind (Step.pushNumber n) := ite (push _) (throw _)

theorem pushBool (b : Bool) : Notes kind (Step.pushBool b) := push _

theorem copyUp (depth count : Nat) : Notes kind (Step.copyUp depth count) := by
  induction count with
  | zero => exact pure ()
  | succ count ih => exact (top depth).bind fun _ => (push _).bind fun _ => ih

theorem moveUp (depth count : Nat) : Notes kind (Step.moveUp depth count) := by
  induction count with
  | zero => exact pure ()
  | succ count ih => exact (removeAt depth).bind fun _ => (push _).bind fun _ => ih

theorem items (depth count : Nat) : Notes kind (Step.items depth count) := by
  induction count generalizing depth with
  | zero => exact pure []
  | succ count ih => exact (top depth).bind fun _ => (ih _).bind fun _ => pure _

theorem countOps (n : Nat) : Notes kind (Step.countOps n) :=
  .bind (modify (fun _ => rfl) fun _ => rfl) fun _ => get_bind fun _ => demand _ _

theorem screen (opcode : UInt8) : Notes kind (Step.screen opcode) :=
  ite ((countOps 1).bind fun _ => demand _ _) (demand _ _)

theorem demandStackSize : Notes kind Step.demandStackSize := get_bind fun _ => demand _ _

theorem upgradable : Notes kind (Step.upgradable env) := demand _ _

theorem openBranch (taken : Bool) : Notes kind (Step.openBranch taken) :=
  modify (fun _ => rfl) fun _ => rfl

theorem fetch (move : Bool) : Notes kind (Step.fetch env move) := by
  refine (require 2).bind fun _ => (top 1).bind fun _ => (number _ _).bind fun _ => ?_
  refine discard.bind fun _ => stack.bind fun _ => (demand _ _).bind fun _ => ?_
  exact ite (moveUp _ 1) (copyUp _ 1)

/-- The end of an instruction that may demand its own result. -/
theorem verified (verify condition : Bool) (e : ScriptError) :
    Notes kind (if verify then Step.demand condition e >>= fun _ => Step.discard
      else Pure.pure () : Step Unit) :=
  ite ((demand _ _).bind fun _ => discard) (pure ())

theorem binary (f : Binary) (verify : Bool) : Notes kind (Step.binary env f verify) := by
  refine (require 2).bind fun _ => (top 2).bind fun _ => (number _ _).bind fun _ => ?_
  refine (top 1).bind fun _ => (number _ _).bind fun _ => (dropTop 2).bind fun _ => ?_
  refine (pushNumber _).bind fun _ => ite ?_ (pure ())
  exact (top 1).bind fun _ => (demand _ _).bind fun _ => discard

theorem within : Notes kind (Step.within env) := by
  refine (require 3).bind fun _ => (top 3).bind fun _ => (number _ _).bind fun _ => ?_
  refine (top 2).bind fun _ => (number _ _).bind fun _ => (top 1).bind fun _ => ?_
  exact (number _ _).bind fun _ => (dropTop 3).bind fun _ => pushBool _

/-! ## Instructions that note nothing -/

theorem execute_plain (rest : Bytes) {i : Instruction} (hi : Framed.IsPlain i) :
    Notes kind (Step.execute env rest i) := by
  cases i with
  | checkLockTime | checkSequence | checkColdStake | codeSeparator => exact hi.elim
  | conditional _ | checkSig _ | checkMultisig _ => exact hi.elim
  | small n => exact pushNumber _
  | nop => exact pure ()
  | upgradableNop => exact upgradable
  | otherwise | endIf =>
      refine get_bind fun m => ?_
      split
      · exact modify (fun _ => rfl) fun _ => rfl
      · exact throw _
  | verify =>
      exact (require 1).bind fun _ => (top 1).bind fun _ => (demand _ _).bind fun _ => discard
  | halt | unknown => exact throw _
  | toAltStack => exact pop.bind fun _ => modify (fun _ => rfl) fun _ => rfl
  | fromAltStack =>
      refine get_bind fun m => ?_
      split
      · exact .bind (modify (fun _ => rfl) fun _ => rfl) fun _ => push _
      · exact throw _
  | drop2 => exact (require 2).bind fun _ => dropTop 2
  | dup2 => exact (require 2).bind fun _ => copyUp 2 2
  | dup3 => exact (require 3).bind fun _ => copyUp 3 3
  | over2 => exact (require 4).bind fun _ => copyUp 4 2
  | rot2 => exact (require 6).bind fun _ => moveUp 6 2
  | swap2 => exact (require 4).bind fun _ => (swapAt 4 2).bind fun _ => swapAt 3 1
  | ifDup => exact (require 1).bind fun _ => (top 1).bind fun _ => ite (push _) (pure ())
  | depth => exact stack.bind fun _ => push _
  | drop => exact pop.bind fun _ => pure ()
  | dup => exact (require 1).bind fun _ => copyUp 1 1
  | nip => exact (require 2).bind fun _ => (removeAt 2).bind fun _ => pure ()
  | over1 => exact (require 2).bind fun _ => copyUp 2 1
  | fetch move => exact fetch move
  | rot => exact (require 3).bind fun _ => (swapAt 3 2).bind fun _ => swapAt 2 1
  | swap => exact (require 2).bind fun _ => swapAt 2 1
  | tuck => exact (require 2).bind fun _ => (top 1).bind fun _ => insertBelow 2 _
  | size => exact (require 1).bind fun _ => (top 1).bind fun _ => push _
  | equal verify =>
      exact (require 2).bind fun _ => pop.bind fun _ => pop.bind fun _ =>
        (pushBool _).bind fun _ => verified verify _ _
  | unary f =>
      exact (require 1).bind fun _ => (top 1).bind fun _ => (number _ _).bind fun _ =>
        discard.bind fun _ => pushNumber _
  | binary f verify => exact binary f verify
  | within => exact within
  | hashing h => exact pop.bind fun _ => push _

/-! ## Questions and signature checks -/

/-- What is signed is fixed once it is read, so it is known in what follows. -/
theorem scriptCode_bind {f : Script → Step α} {sigs : List Bytes}
    (hf : ∀ part, Notes (fun c e => c = part → kind c e) (f (signedCode env.version part sigs))) :
    Notes kind (Step.scriptCode env sigs >>= f) where
  code_eq m := by
    rw [bind_of_ok (scriptCode_eq sigs)]
    exact (hf m.code).code_eq m
  trace_eq m := by
    obtain ⟨noted, hnoted, hkind⟩ := (hf m.code).trace_eq m
    rw [bind_of_ok (scriptCode_eq sigs)]
    exact ⟨noted, hnoted, fun e he => hkind e he rfl⟩

theorem demandSignatureEncoding (sig : Bytes) :
    Notes kind (Step.demandSignatureEncoding env sig) :=
  ite (pure ()) ((demand _ _).bind fun _ => (demand _ _).bind fun _ => demand _ _)

theorem demandKeyEncoding (key : Bytes) : Notes kind (Step.demandKeyEncoding env key) :=
  (demand _ _).bind fun _ => demand _ _

theorem askSignature (sig key : Bytes) {part : Bytes} {sigs : List Bytes} :
    Notes (fun c e => c = part → Event.Over env.version c e)
      (Step.askSignature env sig key (signedCode env.version part sigs)) := by
  refine bind (note ?_) fun _ => answered _
  rintro code rfl
  exact ⟨rfl, sigs, rfl⟩

theorem checkSig (verify : Bool) : Notes (Event.Over env.version) (Step.checkSig env verify) := by
  refine (require 2).bind fun _ => (top 2).bind fun sig => (top 1).bind fun key => ?_
  refine scriptCode_bind fun part => ?_
  refine (demandSignatureEncoding sig).bind fun _ => (demandKeyEncoding key).bind fun _ => ?_
  refine (askSignature sig key).bind fun valid => (demand _ _).bind fun _ => ?_
  exact (dropTop 2).bind fun _ => (pushBool valid).bind fun _ => verified _ _ _

theorem matchSigs {part : Bytes} {signed : List Bytes} (keys keyAt sigAt sigs : Nat) :
    Notes (fun c e => c = part → Event.Over env.version c e)
      (Step.matchSigs env (signedCode env.version part signed) keys keyAt sigAt sigs) := by
  induction keys generalizing keyAt sigAt sigs with
  | zero =>
      cases sigs with
      | zero => exact pure true
      | succ sigs => exact throw _
  | succ keys ih =>
      cases sigs with
      | zero => exact pure true
      | succ sigs =>
          refine (top sigAt).bind fun sig => (top keyAt).bind fun key => ?_
          refine (demandSignatureEncoding sig).bind fun _ => (demandKeyEncoding key).bind fun _ => ?_
          exact (askSignature sig key).bind fun _ => ite (pure false) (ih _ _ _)

theorem count (depth limit : Nat) (e : ScriptError) : Notes kind (Step.count env depth limit e) :=
  (top depth).bind fun _ => (number _ _).bind fun _ => ite (throw _) (pure _)

theorem dropArguments (valid : Bool) (count beforeSigs : Nat) :
    Notes kind (Step.dropArguments env valid count beforeSigs) := by
  induction count generalizing beforeSigs with
  | zero => exact pure ()
  | succ count ih =>
      have hrest := discard.bind fun _ => ih (beforeSigs - 1)
      exact ite ((top 1).bind fun _ => (demand _ _).bind fun _ => hrest) hrest

theorem checkMultisig (verify : Bool) :
    Notes (Event.Over env.version) (Step.checkMultisig env verify) := by
  refine (require 1).bind fun _ => (count _ _ _).bind fun keys => (countOps keys).bind fun _ => ?_
  refine (require _).bind fun _ => (count _ _ _).bind fun sigs => (require _).bind fun _ => ?_
  refine (items _ sigs).bind fun signed => scriptCode_bind fun part => ?_
  refine (matchSigs keys 2 _ sigs).bind fun valid => (dropArguments valid _ _).bind fun _ => ?_
  refine (require 1).bind fun _ => (top 1).bind fun _ => (demand _ _).bind fun _ => ?_
  exact discard.bind fun _ => (pushBool valid).bind fun _ => verified _ _ _

/-- Any instruction but a separator checks signatures over the part that it found. -/
theorem execute (rest : Bytes) {i : Instruction} (hi : i ≠ .codeSeparator) :
    Notes (Event.Over env.version) (Step.execute env rest i) := by
  cases i with
  | codeSeparator => exact (hi rfl).elim
  | checkLockTime =>
      refine ite ((require 1).bind fun _ => (top 1).bind fun _ => ?_) upgradable
      refine (number _ _).bind fun _ => (demand _ _).bind fun _ => ?_
      exact ((note fun _ => trivial).bind fun _ => answered _).bind fun _ => demand _ _
  | checkSequence =>
      refine ite ((require 1).bind fun _ => (top 1).bind fun _ => ?_) upgradable
      refine (number _ _).bind fun _ => (demand _ _).bind fun _ => ite ?_ (pure ())
      exact ((note fun _ => trivial).bind fun _ => answered _).bind fun _ => demand _ _
  | checkColdStake =>
      refine ite (.bind ?_ fun _ => demand _ _) upgradable
      exact (note fun _ => trivial).bind fun _ => pure _
  | conditional negated =>
      refine get_bind fun _ => ite (stack.bind fun _ => (demand _ _).bind fun _ => ?_) (openBranch _)
      refine (top 1).bind fun _ => (demand _ _).bind fun _ => discard.bind fun _ => ?_
      exact (note fun _ => trivial).bind fun _ => openBranch _
  | checkSig verify => exact checkSig verify
  | checkMultisig verify => exact checkMultisig verify
  | small | nop | upgradableNop | otherwise | endIf | verify | halt | toAltStack | fromAltStack
  | drop2 | dup2 | dup3 | over2 | rot2 | swap2 | ifDup | depth | drop | dup | nip | over1 | fetch
  | rot | swap | tuck | size | equal | unary | binary | within | hashing | unknown =>
      exact execute_plain rest (by trivial)

/-! ## Operations -/

/-- An operation notes what its instruction notes. -/
theorem operation {rest : Bytes} {op : Op} (h : ∀ opcode, op = .code opcode →
      Notes kind (Step.execute env rest (Instruction.ofOpcode opcode))) :
    Notes kind (Step.operation env rest op) := by
  cases op with
  | invalid opcode => exact throw _
  | push opcode data =>
      refine (demand _ _).bind fun _ => (screen opcode).bind fun _ => get_bind fun m => ?_
      refine ite ?_ demandStackSize
      exact (demand _ _).bind fun _ => (push data).bind fun _ => demandStackSize
  | code opcode =>
      refine (screen opcode).bind fun _ => get_bind fun m => ?_
      exact ite ((h opcode rfl).bind fun _ => demandStackSize) demandStackSize

/-- Operations of plain instructions, and all pushes. -/
def IsPlainOp : Op → Prop
  | .code opcode => Framed.IsPlain (Instruction.ofOpcode opcode)
  | _ => True

/-- A script of plain operations notes nothing. -/
theorem operations_plain {fuel : Nat} {bs : Bytes}
    (h : ∀ op ∈ Script.opsWithin fuel bs, IsPlainOp op) : Notes kind (operations env fuel bs) := by
  induction fuel generalizing bs with
  | zero => exact pure ()
  | succ fuel ih =>
      rw [Step.operations]
      rw [Script.opsWithin] at h
      cases hop : Op.decode bs with
      | none => exact pure ()
      | some next =>
          obtain ⟨op, rest⟩ := next
          rw [hop] at h
          obtain ⟨hfirst, hothers⟩ := List.forall_mem_cons.mp h
          refine (operation ?_).bind fun _ => ih hothers
          rintro opcode rfl
          exact execute_plain rest hfirst

theorem script_plain {s : Script} (h : ∀ op ∈ s.ops, IsPlainOp op) :
    Notes kind (script env s) := by
  rw [Script.ops_eq] at h
  exact (demand _ _).bind fun _ => (operations_plain h).bind fun _ => get_bind fun _ => demand _ _

end Step.Notes

/-! ## Up to the first separator -/

/-- As long as no code separator was executed, all that happened is of a kind. -/
def UpToSeparator (kind : Event → Prop) (trace : List Event) : Prop :=
  ∀ e earlier, e :: earlier <:+ trace → .codeSeparator ∉ earlier → kind e

namespace UpToSeparator

variable {kind : Event → Prop} {trace noted : List Event}

theorem nil : UpToSeparator kind [] := by
  intro e earlier h
  cases List.eq_nil_of_suffix_nil h

theorem append (h : UpToSeparator kind trace)
    (hnoted : .codeSeparator ∉ trace → ∀ e ∈ noted, kind e) :
    UpToSeparator kind (noted ++ trace) := by
  induction noted with
  | nil => exact h
  | cons first noted ih =>
      intro e earlier hsuffix hsep
      rcases List.suffix_cons_iff.mp hsuffix with heq | hsuffix
      · cases heq
        have htrace : .codeSeparator ∉ trace := fun h => hsep (List.mem_append_right _ h)
        exact hnoted htrace _ List.mem_cons_self
      · refine ih ?_ e earlier hsuffix hsep
        exact fun htrace e he => hnoted htrace e (List.mem_cons_of_mem _ he)

end UpToSeparator

/-- As long as no code separator was executed, the whole script is signed, and signatures were
checked over it. -/
structure Machine.SignsWhole (version : HashVersion) (s : Script) (m : Machine) : Prop where
  checked : UpToSeparator (Event.Over version s.bytes) m.trace
  whole : .codeSeparator ∉ m.trace → m.code = s.bytes

namespace Step

variable {α : Type} {env : Env} {s : Script}

/-- A step that checks signatures over the part that it found keeps this up. -/
theorem Notes.signsWhole {t : Step α} (ht : Notes (Event.Over env.version) t) :
    Preserves (Machine.SignsWhole env.version s) t where
  endOf {m} hm := by
    obtain ⟨noted, htrace, hkind⟩ := ht.trace_eq m
    constructor
    · rw [htrace]
      refine hm.checked.append fun hsep e he => ?_
      rw [← hm.whole hsep]
      exact hkind e he
    · intro hsep
      rw [htrace, List.mem_append, not_or] at hsep
      rw [ht.code_eq]
      exact hm.whole hsep.2

/-- After a separator nothing is said any more. -/
theorem signsWhole_codeSeparator (rest : Bytes) :
    Preserves (Machine.SignsWhole env.version s) (execute env rest .codeSeparator) where
  endOf {m} hm := by
    have hchecked : UpToSeparator (Event.Over env.version s.bytes) ([.codeSeparator] ++ m.trace) :=
      hm.checked.append fun _ e he => by
        obtain rfl := List.mem_singleton.mp he
        trivial
    exact ⟨hchecked, fun hsep => absurd List.mem_cons_self hsep⟩

theorem signsWhole_operation (rest : Bytes) (op : Op) :
    Preserves (Machine.SignsWhole env.version s) (operation env rest op) := by
  by_cases hsep : ∃ opcode, op = .code opcode ∧ Instruction.ofOpcode opcode = .codeSeparator
  · obtain ⟨opcode, rfl, hsep⟩ := hsep
    have hsize : Preserves (Machine.SignsWhole env.version s) demandStackSize :=
      Notes.demandStackSize.signsWhole
    refine (Notes.screen opcode).signsWhole.bind fun _ _ _ _ => .get_bind fun m => ?_
    rw [hsep]
    exact .ite (fun _ => (signsWhole_codeSeparator rest).bind fun _ _ _ _ => hsize) fun _ => hsize
  · refine (Notes.operation fun opcode hop => ?_).signsWhole
    exact Notes.execute rest fun hi => hsep ⟨opcode, hop, hi⟩

theorem signsWhole_operations (fuel : Nat) (bs : Bytes) :
    Preserves (Machine.SignsWhole env.version s) (operations env fuel bs) := by
  induction fuel generalizing bs with
  | zero => exact .pure ()
  | succ fuel ih =>
      rw [operations]
      cases Op.decode bs with
      | none => exact .pure ()
      | some next => exact (signsWhole_operation next.2 next.1).bind fun _ _ _ _ => ih next.2

theorem signsWhole_script (r : Script) :
    Preserves (Machine.SignsWhole env.version s) (script env r) :=
  (Notes.demand _ _).signsWhole.bind fun _ _ _ _ =>
    (signsWhole_operations _ _).bind fun _ _ _ _ =>
      .get_bind fun _ => (Notes.demand _ _).signsWhole

end Step

/-! ## Runs -/

namespace Verification

variable {spend : Spend} {version : HashVersion} {s : Script} {stack : List Bytes}
  {I : List Event → Prop}

/-- Nothing happens while a script of plain operations runs. -/
theorem preserves_run_plain (h : ∀ op ∈ s.ops, Step.Notes.IsPlainOp op) :
    Preserves I (run spend version s stack) where
  endOf {trace} htrace := by
    have hscript : Step.Notes (fun _ _ => False)
        (Step.script ⟨spend.flags, version, spend.checker⟩ s) := .script_plain h
    obtain ⟨noted, hnoted, hnone⟩ := hscript.trace_eq (Machine.start stack s trace)
    obtain rfl : noted = [] := List.eq_nil_iff_forall_not_mem.mpr hnone
    rw [endOf_run]
    exact hnoted ▸ htrace

/-- Up to its first separator a script checks signatures over all of it, in the version in which it
is run. -/
theorem preserves_run : Preserves (UpToSeparator (Event.Over version s.bytes))
    (run spend version s stack) where
  endOf {trace} htrace := by
    rw [endOf_run]
    exact ((Step.signsWhole_script s).endOf
      (s := Machine.start stack s trace) ⟨htrace, fun _ => rfl⟩).checked

end Verification

end StakeChain.Eval
