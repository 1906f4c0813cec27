/-
Steps that carry a state and may end early.

Reading from a stream, carrying out an operation and verifying a spend are
all of this one kind. The lemmas say when a step put together from others
goes through, and with which state, and when it ends early; how two steps fare
side by side; by how much a measure of the state can grow; and what stays,
however a step ends.
-/

namespace StakeChain.Stateful

variable {ε σ α β : Type} {s t : σ}

theorem bind_of_ok {m : EStateM ε σ α} {f : α → EStateM ε σ β} {a : α}
    (h : m s = .ok a t) : (m >>= f) s = f a t := by
  simp only [bind, EStateM.bind, h]

theorem bind_of_error {m : EStateM ε σ α} {f : α → EStateM ε σ β} {e : ε}
    (h : m s = .error e t) : (m >>= f) s = .error e t := by
  simp only [bind, EStateM.bind, h]

theorem bind_eq_ok {m : EStateM ε σ α} {f : α → EStateM ε σ β} {b : β} :
    (m >>= f) s = .ok b t ↔ ∃ a u, m s = .ok a u ∧ f a u = .ok b t := by
  cases h : m s with
  | ok a u =>
      rw [bind_of_ok h]
      constructor
      · intro hf
        exact ⟨a, u, rfl, hf⟩
      · rintro ⟨a', u', hm, hf⟩
        cases hm
        exact hf
  | error e u =>
      rw [bind_of_error h]
      exact ⟨nofun, fun ⟨_, _, hm, _⟩ => nomatch hm⟩

theorem bind_eq_error {m : EStateM ε σ α} {f : α → EStateM ε σ β} {e : ε} :
    (m >>= f) s = .error e t ↔
      m s = .error e t ∨ ∃ a u, m s = .ok a u ∧ f a u = .error e t := by
  cases h : m s with
  | ok a u =>
      rw [bind_of_ok h]
      constructor
      · intro hf
        exact .inr ⟨a, u, rfl, hf⟩
      · rintro (hm | ⟨a', u', hm, hf⟩)
        · cases hm
        · cases hm
          exact hf
  | error e' u =>
      rw [bind_of_error h]
      constructor
      · intro he
        cases he
        exact .inl rfl
      · rintro (hm | ⟨_, _, hm, _⟩)
        · cases hm
          rfl
        · cases hm

theorem pure_eq_ok {a b : α} :
    (pure a : EStateM ε σ α) s = .ok b t ↔ b = a ∧ t = s := by
  change EStateM.Result.ok a s = .ok b t ↔ _
  simp [eq_comm]

theorem map_eq_ok {m : EStateM ε σ α} {f : α → β} {b : β} :
    (f <$> m) s = .ok b t ↔ ∃ a, m s = .ok a t ∧ b = f a := by
  cases h : m s with
  | ok a u =>
      simp only [Functor.map, EStateM.map, h, EStateM.Result.ok.injEq]
      grind
  | error e u =>
      simp only [Functor.map, EStateM.map, h]
      exact ⟨nofun, fun ⟨_, hm, _⟩ => nomatch hm⟩

theorem get_eq_ok {a : σ} :
    (get : EStateM ε σ σ) s = .ok a t ↔ a = s ∧ t = s := by
  change EStateM.Result.ok s s = .ok a t ↔ _
  simp [eq_comm]

theorem modify_eq_ok {f : σ → σ} {u : PUnit} :
    (modify f : EStateM ε σ PUnit) s = .ok u t ↔ t = f s := by
  change EStateM.Result.ok PUnit.unit (f s) = .ok u t ↔ _
  simp [eq_comm]

/-- What goes through on a condition and leaves the state as it was, before other steps. -/
theorem bind_eq_ok_of_looks {m : EStateM ε σ Unit} {f : Unit → EStateM ε σ β} {p : Prop} {b : β}
    (hm : ∀ {a : Unit} {u : σ}, m s = .ok a u ↔ p ∧ u = s) :
    (m >>= f) s = .ok b t ↔ p ∧ f () s = .ok b t := by
  rw [bind_eq_ok]
  constructor
  · rintro ⟨_, u, hu, hf⟩
    obtain ⟨hp, rfl⟩ := hm.mp hu
    exact ⟨hp, hf⟩
  · rintro ⟨hp, hf⟩
    exact ⟨(), s, hm.mpr ⟨hp, rfl⟩, hf⟩

theorem throw_ne_ok {e : ε} {a : α} : (throw e : EStateM ε σ α) s ≠ .ok a t :=
  fun h => nomatch (h : EStateM.Result.error e s = .ok a t)

/-! ## Steps that go through wherever others do -/

section

variable {R : σ → σ → Prop}

/-- Wherever `s` goes through, `t` does so as well, with related results in related states. -/
structure Laxer (R : σ → σ → Prop) (S : α → α → Prop) (t s : EStateM ε σ α) : Prop where
  run_ok : ∀ {m m' a n}, R m m' → s m = .ok a n → ∃ a' n', t m' = .ok a' n' ∧ S a a' ∧ R n n'

namespace Laxer

variable {S : α → α → Prop} {T : β → β → Prop} {t s : EStateM ε σ α}

theorem pure {a a' : α} (h : S a a') :
    Laxer R S (Pure.pure a' : EStateM ε σ α) (Pure.pure a) where
  run_ok {m m' b n} hm hs := by
    obtain ⟨rfl, rfl⟩ := pure_eq_ok.mp hs
    exact ⟨a', m', rfl, h, hm⟩

theorem throw {e : ε} : Laxer R S t (throw e) where
  run_ok _ hs := absurd hs throw_ne_ok

theorem bind {f g : α → EStateM ε σ β} (h : Laxer R S t s)
    (hf : ∀ a a', S a a' → Laxer R T (f a') (g a)) : Laxer R T (t >>= f) (s >>= g) where
  run_ok {m m' b n} hm hs := by
    obtain ⟨a, u, hsm, hg⟩ := bind_eq_ok.mp hs
    obtain ⟨a', u', htm, ha, hu⟩ := h.run_ok hm hsm
    obtain ⟨b', n', hb, hrest⟩ := (hf a a' ha).run_ok hu hg
    exact ⟨b', n', (bind_of_ok htm).trans hb, hrest⟩

theorem bind_eq {f g : α → EStateM ε σ β} (h : Laxer R Eq t s)
    (hf : ∀ a, Laxer R T (f a) (g a)) : Laxer R T (t >>= f) (s >>= g) :=
  h.bind fun a _ ha => ha ▸ hf a

/-- Two steps that start with a look at the state. -/
theorem get_bind {f g : σ → EStateM ε σ β} (hf : ∀ m m', R m m' → Laxer R T (f m') (g m)) :
    Laxer R T (get >>= f) (get >>= g) where
  run_ok hm hs := (hf _ _ hm).run_ok hm hs

theorem modify {k l : σ → σ} (h : ∀ m m', R m m' → R (k m) (l m')) :
    Laxer R Eq (modify l : EStateM ε σ PUnit) (modify k) where
  run_ok hm hs := by
    obtain rfl := modify_eq_ok.mp hs
    exact ⟨_, _, rfl, rfl, h _ _ hm⟩

theorem ite {c : Prop} [Decidable c] {t' s' : EStateM ε σ α} (ht : Laxer R S t s)
    (ht' : Laxer R S t' s') : Laxer R S (if c then t else t') (if c then s else s') := by
  split
  · exact ht
  · exact ht'

end Laxer

/-- A step that, where it goes through, leaves the state as it was. -/
structure Still (R : σ → σ → Prop) (s : EStateM ε σ α) : Prop where
  run_ok : ∀ {m m' a n}, R m m' → s m = .ok a n → R n m'

namespace Still

variable {S : β → β → Prop} {s : EStateM ε σ α} {f : α → EStateM ε σ β}

theorem pure (a : α) : Still R (Pure.pure a : EStateM ε σ α) where
  run_ok hm hs := by
    obtain ⟨-, rfl⟩ := pure_eq_ok.mp hs
    exact hm

theorem throw {e : ε} : Still R (throw e : EStateM ε σ α) where
  run_ok _ hs := absurd hs throw_ne_ok

theorem bind (h : Still R s) (hf : ∀ a, Still R (f a)) : Still R (s >>= f) where
  run_ok {m m' b n} hm hs := by
    obtain ⟨a, u, hsm, hfa⟩ := bind_eq_ok.mp hs
    exact (hf a).run_ok (h.run_ok hm hsm) hfa

theorem get_bind {f : σ → EStateM ε σ β} (hf : ∀ m, Still R (f m)) : Still R (get >>= f) where
  run_ok hm hs := (hf _).run_ok hm hs

theorem ite {c : Prop} [Decidable c] {s' : EStateM ε σ α} (hs : Still R s) (hs' : Still R s') :
    Still R (if c then s else s') := by
  split
  · exact hs
  · exact hs'

/-- What leaves the state as it was may be left out. -/
theorem left_out {t : EStateM ε σ β} (h : Still R s) (hf : ∀ a, Laxer R S t (f a)) :
    Laxer R S t (s >>= f) where
  run_ok {m m' b n} hm hs := by
    obtain ⟨a, u, hsm, hfa⟩ := bind_eq_ok.mp hs
    exact (hf a).run_ok (h.run_ok hm hsm) hfa

/-- A step that is all looking may be left out altogether. -/
theorem laxer {s : EStateM ε σ α} {a' : α} {S : α → α → Prop} (h : Still R s) (hS : ∀ a, S a a') :
    Laxer R S (Pure.pure a') s where
  run_ok {_ m' a _} hm hs := ⟨a', m', rfl, hS a, h.run_ok hm hs⟩

end Still

end

/-! ## What a measure grows by -/

/-- The state at the end of a step, however it ends. -/
def endOf : EStateM.Result ε σ α → σ
  | .ok _ s => s
  | .error _ s => s

/-- However a step from a state ends, the measure has grown by at most `k`. -/
structure Grows (measure : σ → Nat) (k : Nat) (m : EStateM ε σ α) (s : σ) : Prop where
  le : measure (endOf (m s)) ≤ measure s + k

namespace Grows

variable {measure : σ → Nat} {k l : Nat} {m : EStateM ε σ α} {f : α → EStateM ε σ β}

theorem mono (h : Grows measure k m s) (hkl : k ≤ l) : Grows measure l m s :=
  ⟨Nat.le_trans h.le (Nat.add_le_add_left hkl _)⟩

theorem pure (a : α) (s : σ) : Grows measure k (Pure.pure a : EStateM ε σ α) s :=
  ⟨Nat.le_add_right _ _⟩

theorem throw (e : ε) (s : σ) : Grows measure k (throw e : EStateM ε σ α) s :=
  ⟨Nat.le_add_right _ _⟩

/-- What follows is charged from the state and with the result that the first step left. -/
theorem bind (hm : Grows measure k m s)
    (hf : ∀ a t, m s = .ok a t → Grows measure l (f a) t) :
    Grows measure (k + l) (m >>= f) s where
  le := by
    have hfirst := hm.le
    cases h : m s with
    | ok a t =>
        rw [h] at hfirst
        rw [bind_of_ok h]
        have hsecond := (hf a t h).le
        change measure t ≤ _ at hfirst
        omega
    | error e t =>
        rw [h] at hfirst
        rw [bind_of_error h]
        change measure t ≤ _ at hfirst ⊢
        omega

/-- What follows is charged no more than the first step has paid off. -/
theorem bind_paid (hm : Grows measure k m s)
    (hpaid : ∀ a t, m s = .ok a t → measure t + l ≤ measure s + k)
    (hf : ∀ a t, m s = .ok a t → Grows measure l (f a) t) : Grows measure k (m >>= f) s where
  le := by
    cases h : m s with
    | ok a t =>
        rw [bind_of_ok h]
        exact Nat.le_trans (hf a t h).le (hpaid a t h)
    | error e t =>
        have hfirst := hm.le
        rw [h] at hfirst
        rw [bind_of_error h]
        exact hfirst

/-- After a step that is free of charge. -/
theorem bind_free (hm : Grows measure 0 m s)
    (hf : ∀ a t, m s = .ok a t → Grows measure k (f a) t) : Grows measure k (m >>= f) s :=
  (hm.bind hf).mono (Nat.le_of_eq (Nat.zero_add k))

/-- Before steps that are free of charge. -/
theorem before_free (hm : Grows measure k m s)
    (hf : ∀ a t, m s = .ok a t → Grows measure 0 (f a) t) : Grows measure k (m >>= f) s :=
  hm.bind hf

theorem get_bind {f : σ → EStateM ε σ β} (h : Grows measure k (f s) s) :
    Grows measure k (get >>= f) s := ⟨h.le⟩

theorem ite {c : Prop} [Decidable c] {m' : EStateM ε σ α} (h : c → Grows measure k m s)
    (h' : ¬ c → Grows measure k m' s) : Grows measure k (if c then m else m') s := by
  split
  · next hc => exact h hc
  · next hc => exact h' hc

end Grows

/-! ## What stays however a step ends -/

/-- However a step ends that starts in a state of some kind, it ends in one of that kind. -/
structure Preserves (I : σ → Prop) (m : EStateM ε σ α) : Prop where
  endOf : ∀ {s}, I s → I (endOf (m s))

namespace Preserves

variable {I : σ → Prop} {t : EStateM ε σ α}

theorem pure (a : α) : Preserves I (Pure.pure a : EStateM ε σ α) := ⟨id⟩

theorem throw (e : ε) : Preserves I (throw e : EStateM ε σ α) := ⟨id⟩

/-- What follows may rely on the first step having gone through with its result. -/
theorem bind {f : α → EStateM ε σ β} (ht : Preserves I t)
    (hf : ∀ a s u, t s = .ok a u → Preserves I (f a)) : Preserves I (t >>= f) where
  endOf {s} hs := by
    have hfirst := ht.endOf hs
    cases h : t s with
    | ok a u =>
        rw [h] at hfirst
        rw [bind_of_ok h]
        exact (hf a s u h).endOf hfirst
    | error e u =>
        rw [h] at hfirst
        rw [bind_of_error h]
        exact hfirst

theorem get_bind {f : σ → EStateM ε σ β} (hf : ∀ s, Preserves I (f s)) :
    Preserves I (get >>= f) where
  endOf hs := (hf _).endOf hs

theorem ite {c : Prop} [Decidable c] {t' : EStateM ε σ α} (ht : c → Preserves I t)
    (ht' : ¬ c → Preserves I t') : Preserves I (if c then t else t') := by
  split
  · next h => exact ht h
  · next h => exact ht' h

end Preserves

end StakeChain.Stateful
