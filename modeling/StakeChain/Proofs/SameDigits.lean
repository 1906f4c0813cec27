/-
No five bytes stand for the number that they look like.

Take five bytes whose hexadecimal digits are all decimal, and read them in two ways: the
number that the digits show, most significant first, and the number that the bytes hold,
least significant first. Small numbers are left to fewer bytes; for the others the two never
agree. Ten digits show no number whose last byte is above two. The last two bytes then nearly
fix how the number begins, and so the first byte, but they also end what is shown and fix the
lowest bits. Few last bytes meet both, and for those all third bytes are tried.
-/
import Mathlib.Data.Nat.Basic

namespace StakeChain.SameDigits

/-- The byte that is written in hexadecimal like a number below a hundred in decimal. -/
def asByte (n : Nat) : Nat :=
  16 * (n / 10) + n % 10

theorem le_asByte (n : Nat) : n ≤ asByte n := by
  rw [asByte]
  omega

theorem asByte_le {n : Nat} (h : n < 100) : asByte n ≤ 153 := by
  rw [asByte]
  omega

/-- What the last three bytes hold, less what their digits show. The first two bytes have to make
up for it. -/
def excess (c d e : Nat) : Nat :=
  65536 * asByte c + 16777216 * asByte d + 4294967296 * asByte e - (10000 * c + 100 * d + e)

/-- What the last two bytes ask of a number that is held and shown alike. It is not one that has a
place in four bytes; and its lowest four bits are the second digit, where the first two digits are
known but for what the third byte adds. -/
def Possible (d e : Nat) : Prop :=
  (e = 0 → 80 ≤ d) ∧ ((e + 4 * d) % 16 = excess 0 d e / 100000000 % 10 ∨
    (e + 4 * d) % 16 = (excess 0 d e + 10100000) / 100000000 % 10)

instance (d e : Nat) : Decidable (Possible d e) :=
  inferInstanceAs (Decidable (_ ∧ _))

/-- The number that the first four digits have to show. -/
def start (c d e : Nat) : Nat :=
  (excess c d e + 39321) / 1000000

/-- The first two bytes make up for what the others hold in excess. -/
def Agrees (c d e : Nat) : Prop :=
  1000000 * start c d e =
    asByte (start c d e / 100) + 256 * asByte (start c d e % 100) + excess c d e

instance (c d e : Nat) : Decidable (Agrees c d e) :=
  inferInstanceAs (Decidable (_ = _))

theorem not_agrees : ∀ e < 3, ∀ d < 100, ¬ Possible d e ∨ ∀ c < 100, ¬ Agrees c d e := by
  decide +kernel

variable {a b c d e : Nat}

/-- What is shown is not what is held, first byte `a` to last byte `e`. -/
theorem shown_ne_held (ha : a < 100) (hb : b < 100) (hc : c < 100) (hd : d < 100) (he : e < 100)
    (hlow : 2147483648 ≤ 100000000 * a + 1000000 * b + 10000 * c + 100 * d + e) :
    100000000 * a + 1000000 * b + 10000 * c + 100 * d + e ≠
      asByte a + 256 * asByte b + 65536 * asByte c + 16777216 * asByte d +
        4294967296 * asByte e := by
  intro h
  have hA := asByte_le ha
  have hB := asByte_le hb
  have hC := asByte_le hc
  have hlast : e < 3 := by
    have hE := le_asByte e
    omega
  have hfourth : e = 0 → 80 ≤ d := by
    rintro rfl
    by_contra hlt
    have hD : asByte d ≤ 121 := by
      rw [asByte]
      omega
    have hE : asByte 0 = 0 := rfl
    omega
  have hexcess : 1000000 * (100 * a + b) = asByte a + 256 * asByte b + excess c d e := by
    have hC := le_asByte c
    have hD := le_asByte d
    have hE := le_asByte e
    rw [excess]
    omega
  have hrange : excess 0 d e ≤ excess c d e ∧ excess c d e ≤ excess 0 d e + 10027008 := by
    have hC' := le_asByte c
    have hD := le_asByte d
    have hE := le_asByte e
    have hzero : asByte 0 = 0 := rfl
    rw [excess, excess, hzero]
    omega
  have hstart : start c d e = 100 * a + b := by
    rw [start]
    omega
  have hfirst : a = excess 0 d e / 100000000 ∨ a = (excess 0 d e + 10100000) / 100000000 := by
    omega
  have hnibble : (e + 4 * d) % 16 = a % 10 := by
    have hA' : asByte a = 16 * (a / 10) + a % 10 := rfl
    have hsixteens : e + 4 * d + 16 * (6250000 * a + 62500 * b + 625 * c + 6 * d) =
        a % 10 + 16 * (a / 10 + 16 * asByte b + 4096 * asByte c + 1048576 * asByte d +
          268435456 * asByte e) := by
      omega
    have hmod := congrArg (· % 16) hsixteens
    rw [Nat.add_mul_mod_self_left, Nat.add_mul_mod_self_left] at hmod
    omega
  have hpossible : Possible d e := by
    refine ⟨hfourth, ?_⟩
    rw [hnibble]
    exact hfirst.imp (congrArg (· % 10)) (congrArg (· % 10))
  refine (not_agrees e hlast d hd).elim (fun hnot => hnot hpossible) fun hnot => hnot c hc ?_
  rw [Agrees, hstart, show (100 * a + b) / 100 = a by omega,
    show (100 * a + b) % 100 = b by omega]
  exact hexcess

end StakeChain.SameDigits
