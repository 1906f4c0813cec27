/-
What a check that went through has found.

Rules are sequences of steps that may end early. Each lemma here says, for
one way of putting steps together, when the whole goes through; a rule is
opened with them once and not unfolded again.
-/
import StakeChain.Proofs.Stateful
import StakeChain.Validation.Candidate

namespace StakeChain

namespace Verdict

/-! ## Checks of a candidate -/

theorem bind_eq_ok {ε α β : Type} {x : Except ε α} {f : α → Except ε β} {b : β} :
    x >>= f = .ok b ↔ ∃ a, x = .ok a ∧ f a = .ok b := by
  cases x with
  | error e => exact ⟨nofun, fun ⟨_, h, _⟩ => nomatch h⟩
  | ok a =>
      constructor
      · exact fun h => ⟨a, rfl, h⟩
      · rintro ⟨a', h, hf⟩
        cases h
        exact hf

theorem bind_eq_error {ε α β : Type} {x : Except ε α} {f : α → Except ε β} {e : ε} :
    x >>= f = .error e ↔ x = .error e ∨ ∃ a, x = .ok a ∧ f a = .error e := by
  cases x with
  | error e' =>
      constructor
      · intro h
        cases h
        exact .inl rfl
      · rintro (h | ⟨_, h, _⟩)
        · cases h
          rfl
        · cases h
  | ok a =>
      constructor
      · exact fun h => .inr ⟨a, rfl, h⟩
      · rintro (h | ⟨a', h, hf⟩)
        · cases h
        · cases h
          exact hf

/-- What was computed to go through. -/
theorem exists_ok_of_isSome {ε α : Type} {x : Except ε α} (h : x.toOption.isSome) :
    ∃ a, x = .ok a := by
  cases x with
  | error e => cases h
  | ok a => exact ⟨a, rfl⟩

/-- What was computed to go through, and something that was computed of its result. -/
theorem exists_ok_of_map {ε α β : Type} {x : Except ε α} {f : α → β} {b : β}
    (h : x.toOption.map f = some b) : ∃ a, x = .ok a ∧ f a = b := by
  cases x with
  | error e => cases h
  | ok a => exact ⟨a, rfl, Option.some.inj h⟩

theorem demand_eq_ok {condition : Bool} {e : ConsensusError} :
    demand condition e = .ok () ↔ condition = true := by
  cases condition <;> simp [demand]

theorem demand_eq_error {condition : Bool} {e : ConsensusError} {r : Rejection} :
    demand condition e = .error r ↔ condition = false ∧ r = .consensus e := by
  cases condition <;> simp [demand, eq_comm]

theorem mapError_eq_ok {ε ε' α : Type} {x : Except ε α} {f : ε → ε'} {a : α} :
    x.mapError f = .ok a ↔ x = .ok a := by
  cases x with
  | ok b =>
      change Except.ok b = .ok a ↔ _
      simp
  | error e =>
      change Except.error (f e) = .ok a ↔ _
      simp

theorem mapError_eq_error {ε ε' α : Type} {x : Except ε α} {f : ε → ε'} {e' : ε'} :
    x.mapError f = .error e' ↔ ∃ e, x = .error e ∧ f e = e' := by
  cases x with
  | ok b =>
      change Except.ok b = .error e' ↔ _
      simp
  | error e =>
      change Except.error (f e) = .error e' ↔ _
      simp

/-- A check of every member goes through exactly if it does for each. -/
theorem forM_eq_ok {α : Type} {f : α → Verdict} {l : List α} :
    l.forM f = .ok () ↔ ∀ a ∈ l, f a = .ok () := by
  induction l with
  | nil => exact ⟨fun _ _ h => absurd h List.not_mem_nil, fun _ => rfl⟩
  | cons a rest ih =>
      change (f a >>= fun _ => rest.forM f) = .ok () ↔ _
      rw [bind_eq_ok, List.forall_mem_cons, ← ih]
      exact ⟨fun ⟨_, ha, hr⟩ => ⟨ha, hr⟩, fun ⟨ha, hr⟩ => ⟨(), ha, hr⟩⟩

/-! Which reason a check never gives. -/

theorem ok_ne_error {ε α : Type} {a : α} {e : ε} : (Except.ok a : Except ε α) ≠ .error e := by
  intro h
  cases h

theorem error_ne_error {α : Type} {e e' : ConsensusError} (h : e ≠ e') :
    (Except.error (.consensus e) : Except Rejection α) ≠ .error (.consensus e') := by
  intro he
  cases he
  exact h rfl

theorem bind_ne_error {ε α β : Type} {x : Except ε α} {f : α → Except ε β} {e : ε}
    (hx : x ≠ .error e) (hf : ∀ a, f a ≠ .error e) : x >>= f ≠ .error e := by
  rw [ne_eq, bind_eq_error]
  rintro (h | ⟨a, _, h⟩)
  · exact hx h
  · exact hf a h

theorem demand_ne_error {condition : Bool} {e e' : ConsensusError} (h : e ≠ e') :
    demand condition e ≠ .error (.consensus e') := by
  rw [ne_eq, demand_eq_error]
  rintro ⟨_, he⟩
  cases he
  exact h rfl

theorem fault_ne_error {α : Type} {x : Except Fault α} {e : ConsensusError} :
    x.mapError Rejection.fault ≠ .error (.consensus e) := by
  rw [ne_eq, mapError_eq_error]
  rintro ⟨_, _, h⟩
  cases h

end Verdict

/-- A number that was kept within 64 bits is the number itself. -/
theorem fitAmount_eq_ok {n m : Int} : fitAmount n = .ok m ↔ fitsInt64 n = true ∧ m = n := by
  cases h : fitsInt64 n <;> simp [fitAmount, h, eq_comm]

theorem Params.inMoneyRange_iff {p : Params} {value : Int} :
    p.inMoneyRange value = true ↔ 0 ≤ value ∧ value ≤ p.maxMoney.toInt := by
  rw [inMoneyRange, Bool.and_eq_true, decide_eq_true_eq, decide_eq_true_eq]

namespace Validation

/-! ## Rules about coins -/

open Stateful

variable {α : Type} {p q : Progress}

theorem ofExcept_eq_ok {x : Except Rejection α} {a : α} :
    ofExcept x p = .ok a q ↔ x = .ok a ∧ q = p := by
  cases x with
  | ok b => simp only [ofExcept, pure_eq_ok, Except.ok.injEq, eq_comm]
  | error e => exact ⟨fun h => absurd h throw_ne_ok, fun ⟨h, _⟩ => nomatch h⟩

theorem ofExcept_eq_error {x : Except Rejection α} {e : Rejection} :
    ofExcept x p = .error e q ↔ x = .error e ∧ q = p := by
  cases x with
  | ok b => exact ⟨nofun, fun ⟨h, _⟩ => nomatch h⟩
  | error e' =>
      change EStateM.Result.error e' p = .error e q ↔ _
      simp [eq_comm]

theorem demand_eq_ok {condition : Bool} {e : ConsensusError} :
    demand condition e p = .ok () q ↔ condition = true ∧ q = p := by
  cases condition with
  | true => simp [demand, pure_eq_ok]
  | false => exact ⟨fun h => absurd h throw_ne_ok, fun ⟨h, _⟩ => nomatch h⟩

theorem checkCancelled_eq_ok {s : Surroundings} :
    checkCancelled s p = .ok () q ↔ s.cancelled p.lookups = false ∧ q = p := by
  simp only [checkCancelled, bind_eq_ok, get_eq_ok]
  constructor
  · rintro ⟨a, q', ⟨rfl, rfl⟩, h⟩
    cases hc : s.cancelled q'.lookups with
    | true =>
        rw [if_pos hc] at h
        exact absurd h throw_ne_ok
    | false =>
        rw [hc] at h
        exact ⟨rfl, (pure_eq_ok.mp h).2⟩
  · rintro ⟨hc, rfl⟩
    exact ⟨q, q, ⟨rfl, rfl⟩, by rw [hc]; rfl⟩

/-- A lookup gives what the surroundings hold at that time, and is noted. -/
theorem lookup_eq_ok {s : Surroundings} {o : OutPoint} {found : Option Coin} :
    lookup s o p = .ok found q ↔
      found = s.find p.lookups o ∧ q = { p with lookups := o :: p.lookups } := by
  change EStateM.Result.ok (s.find p.lookups o) { p with lookups := o :: p.lookups } =
    .ok found q ↔ _
  simp [eq_comm]

end Validation

end StakeChain
