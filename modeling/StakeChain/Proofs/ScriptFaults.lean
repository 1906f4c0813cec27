/-
Every script comes to an end, and to no fault of its own.

Whatever lies on the stack, and however much of it, a run ends with the script or
with a verdict about it. The instructions were gone through for this: each asks
for the items that it reaches for, and a multisig check asks for keys and
signatures before it walks down both. What is left is that the run does end, since
every operation takes at least a byte off the script, and that an operation is
looked for only where the script still has its bytes.

A checker may have faults to give for answers. These are passed on, and there
are no others.
-/
import StakeChain.Proofs.Limits
import StakeChain.Proofs.ScriptCuts

namespace StakeChain

/-- Some question is answered with this fault. -/
inductive Checker.Gives (c : Checker) (f : Fault) : Prop
  | signature {sig key : Bytes} {code : Script} {version : HashVersion} :
      c.signature sig key code version = .error f → Gives c f
  | lockTime {demanded : Int} : c.lockTime demanded = .error f → Gives c f
  | sequence {demanded : Int} : c.sequence demanded = .error f → Gives c f

theorem Checker.answers_gives (c : Checker) : c.Answers c.Gives :=
  ⟨.signature, .lockTime, .sequence⟩

/-! ## Operations take bytes off the script -/

theorem Script.within_of_mem_opsOnto {fuel offset : Nat} {bs : Bytes} {p : Nat × Op}
    (h : p ∈ opsOnto [] fuel offset bs) : p.1 + p.2.width ≤ offset + bs.length := by
  induction fuel generalizing offset bs with
  | zero => cases h
  | succ fuel ih =>
      cases hbs : Op.decode bs with
      | none =>
          rw [opsOnto, hbs] at h
          cases h
      | some next =>
          obtain ⟨op, rest⟩ := next
          have hle := Op.width_add_length_le hbs
          rw [opsOnto_of_decode hbs] at h
          rcases List.mem_cons.mp h with rfl | h
          · dsimp only
            omega
          · have hrest := ih h
            omega

namespace Eval

namespace Step

/-- Fuel beyond the number of bytes is never used. -/
theorem operations_of_le (env : Env) {fuel : Nat} {bs : Bytes} (h : bs.length ≤ fuel) :
    operations env fuel bs = operations env bs.length bs := by
  induction fuel using Nat.strong_induction_on generalizing bs with
  | h fuel ih =>
      cases hbs : Op.decode bs with
      | none =>
          obtain rfl := Op.eq_nil_of_decode_none hbs
          cases fuel <;> rfl
      | some next =>
          obtain ⟨op, rest⟩ := next
          have hlt := Op.length_lt_of_decode hbs
          obtain ⟨k, hk⟩ := Nat.exists_eq_succ_of_ne_zero (Nat.ne_zero_of_lt hlt)
          obtain ⟨n, rfl⟩ := Nat.exists_eq_succ_of_ne_zero (Nat.ne_zero_of_lt (hlt.trans_le h))
          rw [hk, operations, operations, hbs]
          dsimp only
          rw [ih n (Nat.lt_succ_self n) (by omega), ih k (by omega) (by omega)]

end Step

/-- A script runs to its end or to a verdict about it, on any stack and under any flags; a fault
is one that the checker gave for an answer. The run is over after no more operations than the
script has bytes, each of which lies within the script, and the numbers that are read on the way
fit 64 bits. -/
theorem run_settles (env : Env) (s : Script) (stack : List Bytes) (trace : List Event) :
    ((∃ m, run env s stack trace = .ok () m) ∨
      (∃ e m, run env s stack trace = .error (.error e) m) ∨
      ∃ f m, run env s stack trace = .error (.fault f) m ∧ env.checker.Gives f) ∧
    (∀ fuel m, s.size ≤ fuel →
      Step.operations env fuel s.bytes m = Step.operations env s.size s.bytes m) ∧
    (∀ p ∈ s.opsWithOffsets, p.1 + p.2.width ≤ s.size) ∧
    ∀ item minimal n, ScriptNumber.decode item minimal lockTimeWidth = some n → fitsInt64 n := by
  refine ⟨?_, fun fuel m hle => ?_, fun p hp => ?_, fun item minimal n hn => ?_⟩
  · have hstart : (Machine.start stack s trace).Bounded (fun _ => True)
        (max maxStackSize stack.length) :=
      Machine.bounded_start (Nat.le_max_right _ _) (fun _ _ => trivial) s trace
    have hends := Step.ends_script env.checker.answers_gives (closed_true _) hstart
      (Nat.le_max_left _ _) s
    change Ends _ _ (run env s stack trace) at hends
    cases hrun : run env s stack trace with
    | ok a m => exact .inl ⟨m, rfl⟩
    | error e m =>
        cases e with
        | error e => exact .inr (.inl ⟨e, m, rfl⟩)
        | fault f => exact .inr (.inr ⟨f, m, rfl, hends.of_fault hrun⟩)
  · exact congrFun (Step.operations_of_le env hle) m
  · have hwithin := Script.within_of_mem_opsOnto hp
    rwa [Nat.zero_add] at hwithin
  · exact fitsInt64_of_natAbs_lt ((ScriptNumber.natAbs_lt_of_decode hn).trans (by decide))

end Eval

end StakeChain
