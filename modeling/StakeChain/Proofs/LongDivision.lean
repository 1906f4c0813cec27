/-
Numbers of several words are compared and divided as numbers are.

As many words are in the order of their numbers when they are compared from the
high end, and a number has as many bits as its highest word that is not zero, and
all of those below. With that the loop of the long division keeps an invariant: the
divisor stands shifted without having lost a bit, the rest is less than twice that,
and the quotient accounts for what was taken away. At the end the rest is less than
the divisor itself.
-/
import Mathlib.Data.Nat.Size
import StakeChain.Proofs.Limbs

namespace StakeChain.Limbs

variable {a b : Limbs}

/-! ## Order -/

/-- Of two digits in front of others the latter decide first. -/
theorem compare_digit {base v w : Nat} (hv : v < base) (hw : w < base) (m n : Nat) :
    compare (v + base * m) (w + base * n) = (compare m n).then (compare v w) := by
  rcases Nat.lt_trichotomy m n with h | rfl | h
  · have hle : base * m + base ≤ base * n := by
      rw [← Nat.mul_add_one]
      exact Nat.mul_le_mul_left base h
    rw [Nat.compare_eq_lt.mpr h, Nat.compare_eq_lt.mpr (by omega)]
    rfl
  · rw [Nat.compare_eq_eq.mpr rfl, Ordering.eq_then]
    rcases Nat.lt_trichotomy v w with h | rfl | h
    · rw [Nat.compare_eq_lt.mpr h, Nat.compare_eq_lt.mpr (by omega)]
    · rw [Nat.compare_eq_eq.mpr rfl, Nat.compare_eq_eq.mpr rfl]
    · rw [Nat.compare_eq_gt.mpr h, Nat.compare_eq_gt.mpr (by omega)]
  · have hle : base * n + base ≤ base * m := by
      rw [← Nat.mul_add_one]
      exact Nat.mul_le_mul_left base h
    rw [Nat.compare_eq_gt.mpr h, Nat.compare_eq_gt.mpr (by omega)]
    rfl

theorem compare_concat {α : Type} [Ord α] {a b : List α} (h : a.length = b.length) (v w : α) :
    compare (a ++ [v]) (b ++ [w]) = (compare a b).then (compare v w) := by
  rw [List.compare_eq_compareLex]
  induction a generalizing b with
  | nil =>
      obtain rfl := List.eq_nil_of_length_eq_zero h.symm
      rw [List.nil_append, List.nil_append, List.compareLex_cons_cons, List.compareLex_nil_nil,
        Ordering.then_eq, Ordering.eq_then]
  | cons x a ih =>
      cases b with
      | nil => cases h
      | cons y b =>
          rw [List.cons_append, List.cons_append, List.compareLex_cons_cons,
            List.compareLex_cons_cons, ih (Nat.succ.inj h), Ordering.then_assoc]

/-- As many digits, the least significant first, are in the order of their numbers when they are
compared from the other end. -/
theorem compare_reverse {α : Type} [Ord α] {base : Nat} {value : α → Nat}
    (hlt : ∀ d, value d < base) (hvalue : ∀ d e, compare d e = compare (value d) (value e))
    {a b : List α} (h : a.length = b.length) :
    compare a.reverse b.reverse =
      compare (a.foldr (fun d n => value d + base * n) 0)
        (b.foldr (fun d n => value d + base * n) 0) := by
  induction a generalizing b with
  | nil =>
      obtain rfl := List.eq_nil_of_length_eq_zero h.symm
      rfl
  | cons v a ih =>
      cases b with
      | nil => cases h
      | cons w b =>
          have hlength : a.reverse.length = b.reverse.length := by
            rw [List.length_reverse, List.length_reverse]
            exact Nat.succ.inj h
          rw [List.reverse_cons, List.reverse_cons, compare_concat hlength, ih (Nat.succ.inj h),
            List.foldr_cons, List.foldr_cons, compare_digit (hlt v) (hlt w), hvalue]

theorem order_eq (h : a.length = b.length) : order a b = compare (toNat a) (toNat b) := by
  refine compare_reverse word_lt (fun v w => ?_) h
  simp only [compare, compareOfLessAndEq, UInt64.lt_iff_toNat_lt, UInt64.toNat_inj]

/-! ## Lengths -/

theorem wordLength_le_iff (w : UInt64) (k : Nat) : wordLength w ≤ k ↔ w.toNat < 2 ^ k := by
  rw [wordLength]
  split
  · next h =>
      rw [h]
      exact iff_of_true (Nat.zero_le k) (Nat.two_pow_pos k)
  · next h => exact Nat.log2_lt fun hzero => h (UInt64.toNat_inj.mp hzero)

/-- So many bits are needed as the number has. -/
theorem bitLength_le_iff (a : Limbs) (k : Nat) : bitLength a ≤ k ↔ toNat a < 2 ^ k := by
  induction a generalizing k with
  | nil => exact iff_of_true (Nat.zero_le k) (Nat.two_pow_pos k)
  | cons w a ih =>
      have hw := word_lt w
      rw [bitLength, toNat_cons]
      split
      · next hzero => rw [isZero_iff.mp hzero, Nat.mul_zero, Nat.add_zero, wordLength_le_iff]
      · next hzero =>
          have hpos : 0 < toNat a := Nat.pos_of_ne_zero fun h => hzero (isZero_iff.mpr h)
          rcases Nat.lt_or_ge k 64 with hk | hk
          · have hle : 2 ^ k ≤ base := base_eq ▸ Nat.pow_le_pow_right Nat.two_pos hk.le
            have hmul : base * 1 ≤ base * toNat a := Nat.mul_le_mul_left base hpos
            exact iff_of_false (by omega) (by omega)
          · obtain ⟨k, rfl⟩ := Nat.exists_eq_add_of_le hk
            rw [Nat.add_le_add_iff_left, ih, pow_add, ← base_eq]
            constructor
            · intro h
              have hle : base * (toNat a + 1) ≤ base * 2 ^ k := Nat.mul_le_mul_left base h
              rw [Nat.mul_add_one] at hle
              omega
            · intro h
              exact Nat.lt_of_mul_lt_mul_left (Nat.lt_of_le_of_lt (Nat.le_add_left _ _) h)

theorem bitLength_eq (a : Limbs) : bitLength a = (toNat a).size :=
  Nat.le_antisymm ((bitLength_le_iff a _).mpr (Nat.lt_size_self _))
    (Nat.size_le.mpr ((bitLength_le_iff a _).mp (Nat.le_refl _)))

/-! ## Quotients -/

theorem length_setBit (a : Limbs) (n : Nat) : (setBit a n).length = a.length :=
  List.length_modify ..

/-- A number by one of its words, with those below and above it. -/
theorem toNat_eq_around {k : Nat} (hk : k < a.length) :
    toNat a = toNat (a.take k) + base ^ k * (a[k].toNat + base * toNat (a.drop (k + 1))) := by
  have hlength : (a.take k).length = k := List.length_take_of_le hk.le
  conv_lhs => rw [← List.take_append_drop k a, toNat_append, hlength,
    List.drop_eq_getElem_cons hk, toNat_cons]

theorem toNat_modify {k : Nat} (hk : k < a.length) (f : UInt64 → UInt64) :
    toNat (a.modify k f) =
      toNat (a.take k) + base ^ k * ((f a[k]).toNat + base * toNat (a.drop (k + 1))) := by
  have hlength : (a.take k).length = k := List.length_take_of_le hk.le
  rw [List.modify_eq_take_cons_drop hk, toNat_append, hlength, toNat_cons]

/-- If no bit is set up to one in a word, the word has none set up to there. -/
theorem dvd_word {k m : Nat} (hk : k < a.length) (hm : m ≤ 64) (h : base ^ k * 2 ^ m ∣ toNat a) :
    2 ^ m ∣ a[k].toNat := by
  have hdrop : 2 ^ m ∣ toNat (a.drop k) := by
    rw [toNat_drop]
    exact Nat.dvd_div_of_mul_dvd h
  rw [List.drop_eq_getElem_cons hk, toNat_cons] at hdrop
  have hbase : 2 ^ m ∣ base * toNat (a.drop (k + 1)) :=
    Nat.dvd_mul_right_of_dvd (base_eq ▸ Nat.pow_dvd_pow 2 hm) _
  exact (Nat.dvd_add_left hbase).mp hdrop

/-- Setting a bit below all that are set adds its value. -/
theorem toNat_setBit {n : Nat} (hn : n < 64 * a.length) (hdvd : 2 ^ (n + 1) ∣ toNat a) :
    toNat (setBit a n) = toNat a + 2 ^ n := by
  have hk : n / 64 < a.length := Nat.div_lt_of_lt_mul hn
  have hbit : n % 64 < 64 := Nat.mod_lt n (by decide)
  have hpow : 2 ^ n = base ^ (n / 64) * 2 ^ (n % 64) := by
    rw [base_pow, ← pow_add, Nat.div_add_mod]
  have hone : (1 <<< UInt64.ofNat (n % 64) : UInt64).toNat = 2 ^ (n % 64) := by
    have hlt : 2 ^ (n % 64) < 2 ^ 64 := Nat.pow_lt_pow_right (by decide) hbit
    rw [toNat_shiftLeft_word 1 hbit, base_eq]
    change 1 * 2 ^ (n % 64) % 2 ^ 64 = _
    rw [Nat.one_mul, Nat.mod_eq_of_lt hlt]
  have hword : 2 ^ (n % 64 + 1) ∣ a[n / 64].toNat := by
    refine dvd_word hk hbit ?_
    rwa [pow_succ, ← Nat.mul_assoc, ← hpow, ← pow_succ]
  have hor : (a[n / 64] ||| 1 <<< UInt64.ofNat (n % 64)).toNat =
      2 ^ (n % 64) + a[n / 64].toNat := by
    rw [UInt64.or_comm, toNat_or_of_lt _ hword, hone]
    rw [hone]
    exact Nat.pow_lt_pow_right (by decide) (Nat.lt_succ_self _)
  rw [setBit, toNat_modify hk, hor, hpow, toNat_eq_around hk]
  ring

/-- What the loop of the division has in hand, in numbers of `count` words: the divisor stands
shifted, the rest is less than twice that, and the quotient has no bit yet at `shift` or below. -/
structure Dividing (count d shift : Nat) (rest divisor quotient : Limbs) : Prop where
  pos : 0 < d
  shift_lt : shift < 64 * count
  length_rest : rest.length = count
  length_divisor : divisor.length = count
  length_quotient : quotient.length = count
  divisor_eq : toNat divisor = d * 2 ^ shift
  rest_lt : toNat rest < d * 2 ^ (shift + 1)
  quotient_dvd : 2 ^ (shift + 1) ∣ toNat quotient

namespace Dividing

variable {count d shift : Nat} {rest divisor quotient : Limbs}

theorem toNat_half (h : Dividing count d (shift + 1) rest divisor quotient) :
    toNat (shiftRight divisor 1) = d * 2 ^ shift := by
  rw [toNat_shiftRight, h.divisor_eq, pow_succ, ← Nat.mul_assoc, pow_one]
  exact Nat.mul_div_cancel _ Nat.two_pos

theorem toNat_set (h : Dividing count d shift rest divisor quotient) :
    toNat (setBit quotient shift) = toNat quotient + 2 ^ shift :=
  toNat_setBit (h.length_quotient ▸ h.shift_lt) h.quotient_dvd

theorem order_eq_lt_iff (h : Dividing count d shift rest divisor quotient) :
    (order rest divisor == .lt) = true ↔ toNat rest < d * 2 ^ shift := by
  rw [order_eq (h.length_rest.trans h.length_divisor.symm), beq_iff_eq, Nat.compare_eq_lt,
    h.divisor_eq]

/-- The shifted divisor is not above the rest: it is taken away, and the quotient has the bit. -/
theorem taken (h : Dividing count d (shift + 1) rest divisor quotient)
    (hle : d * 2 ^ (shift + 1) ≤ toNat rest) :
    Dividing count d shift (sub rest divisor) (shiftRight divisor 1)
      (setBit quotient (shift + 1)) := by
  have hlength : rest.length = divisor.length := h.length_rest.trans h.length_divisor.symm
  have hrest := h.rest_lt
  refine ⟨h.pos, Nat.lt_of_succ_lt h.shift_lt, ?_, ?_, ?_, h.toNat_half, ?_, ?_⟩
  · rw [length_sub hlength, h.length_rest]
  · rw [length_shiftRight, h.length_divisor]
  · rw [length_setBit, h.length_quotient]
  · rw [toNat_sub_of_le hlength (h.divisor_eq ▸ hle), h.divisor_eq]
    rw [pow_succ, ← Nat.mul_assoc] at hrest
    omega
  · rw [h.toNat_set]
    exact Nat.dvd_add ((Nat.pow_dvd_pow 2 (Nat.le_succ _)).trans h.quotient_dvd) (Nat.dvd_refl _)

/-- The shifted divisor is above the rest, which is then small enough for the next bit. -/
theorem passed (h : Dividing count d (shift + 1) rest divisor quotient)
    (hlt : toNat rest < d * 2 ^ (shift + 1)) :
    Dividing count d shift rest (shiftRight divisor 1) quotient where
  pos := h.pos
  shift_lt := Nat.lt_of_succ_lt h.shift_lt
  length_rest := h.length_rest
  length_divisor := (length_shiftRight divisor 1).trans h.length_divisor
  length_quotient := h.length_quotient
  divisor_eq := h.toNat_half
  rest_lt := hlt
  quotient_dvd := (Nat.pow_dvd_pow 2 (Nat.le_succ _)).trans h.quotient_dvd

end Dividing

theorem toNat_divideFrom {count d shift : Nat} {rest divisor quotient : Limbs}
    (h : Dividing count d shift rest divisor quotient) :
    toNat (divideFrom shift rest divisor quotient) = toNat quotient + toNat rest / d := by
  induction shift generalizing rest divisor quotient with
  | zero =>
      have hrest := h.rest_lt
      have hiff := h.order_eq_lt_iff
      rw [pow_zero, Nat.mul_one] at hiff
      rw [divideFrom]
      split
      · next hlt => rw [Nat.div_eq_of_lt (hiff.mp hlt), Nat.add_zero]
      · next hle =>
          have hle : d ≤ toNat rest := Nat.le_of_not_lt fun hlt => hle (hiff.mpr hlt)
          rw [h.toNat_set, pow_zero, Nat.div_eq_of_lt_le (k := 1) (by omega) (by omega)]
  | succ shift ih =>
      rw [divideFrom]
      split
      · next hlt => exact ih (h.passed (h.order_eq_lt_iff.mp hlt))
      · next hle =>
          have hle : d * 2 ^ (shift + 1) ≤ toNat rest :=
            Nat.le_of_not_lt fun hlt => hle (h.order_eq_lt_iff.mpr hlt)
          have hback : toNat rest = toNat rest - d * 2 ^ (shift + 1) + d * 2 ^ (shift + 1) :=
            (Nat.sub_add_cancel hle).symm
          rw [ih (h.taken hle), h.toNat_set,
            toNat_sub_of_le (h.length_rest.trans h.length_divisor.symm) (h.divisor_eq ▸ hle),
            h.divisor_eq, Nat.add_assoc]
          conv_rhs => rw [hback, Nat.add_mul_div_left _ _ h.pos]
          rw [Nat.add_comm (2 ^ (shift + 1))]

/-- The divisor is shifted until it is as long as the number, and loses no bit by that. -/
theorem toNat_shiftLeft_of_bitLength (h : a.length = b.length) (hlong : bitLength b ≤ bitLength a) :
    toNat (shiftLeft b (bitLength a - bitLength b)) =
      toNat b * 2 ^ (bitLength a - bitLength b) := by
  have hfits : toNat b * 2 ^ (bitLength a - bitLength b) < base ^ b.length := by
    calc toNat b * 2 ^ (bitLength a - bitLength b)
      _ < 2 ^ bitLength b * 2 ^ (bitLength a - bitLength b) :=
          Nat.mul_lt_mul_of_pos_right ((bitLength_le_iff b _).mp (Nat.le_refl _))
            (Nat.two_pow_pos _)
      _ = 2 ^ bitLength a := by rw [← pow_add, Nat.add_sub_cancel' hlong]
      _ ≤ 2 ^ (64 * a.length) := by
          refine Nat.pow_le_pow_right Nat.two_pos ((bitLength_le_iff a _).mpr ?_)
          exact base_pow a.length ▸ toNat_lt a
      _ = base ^ b.length := by rw [← base_pow, h]
  rw [toNat_shiftLeft, Nat.mod_eq_of_lt hfits]

/-- The loop starts with the divisor shifted until it is as long as the number. -/
theorem dividing_start (h : a.length = b.length) (hb : toNat b ≠ 0)
    (hlong : bitLength b ≤ bitLength a) :
    Dividing a.length (toNat b) (bitLength a - bitLength b) a
      (shiftLeft b (bitLength a - bitLength b)) (zeros a.length) where
  pos := Nat.pos_of_ne_zero hb
  shift_lt := by
    have hlength : bitLength a ≤ 64 * a.length :=
      (bitLength_le_iff a _).mpr (base_pow a.length ▸ toNat_lt a)
    have hpos : 0 < bitLength b := by
      rw [bitLength_eq]
      exact Nat.size_pos.mpr (Nat.pos_of_ne_zero hb)
    omega
  length_rest := rfl
  length_divisor := (length_shiftLeft _ _).trans h.symm
  length_quotient := length_zeros _
  divisor_eq := toNat_shiftLeft_of_bitLength h hlong
  rest_lt := by
    have hhalf : 2 ^ bitLength b ≤ toNat b * 2 := by
      have hpos : 0 < (toNat b).size := Nat.size_pos.mpr (Nat.pos_of_ne_zero hb)
      obtain ⟨k, hk⟩ := Nat.exists_eq_succ_of_ne_zero hpos.ne'
      have hle : 2 ^ k ≤ toNat b := Nat.lt_size.mp (hk ▸ Nat.lt_succ_self k)
      rw [bitLength_eq, hk, pow_succ]
      exact Nat.mul_le_mul_right 2 hle
    calc toNat a
      _ < 2 ^ bitLength a := (bitLength_le_iff a _).mp (Nat.le_refl _)
      _ = 2 ^ bitLength b * 2 ^ (bitLength a - bitLength b) := by
          rw [← pow_add, Nat.add_sub_cancel' hlong]
      _ ≤ toNat b * 2 * 2 ^ (bitLength a - bitLength b) := Nat.mul_le_mul_right _ hhalf
      _ = toNat b * 2 ^ (bitLength a - bitLength b + 1) := by ring
  quotient_dvd := by
    rw [toNat_zeros]
    exact Nat.dvd_zero _

/-- Long division gives the quotient. -/
theorem divide_eq (h : a.length = b.length) :
    (divide a b).map toNat = if toNat b = 0 then none else some (toNat a / toNat b) := by
  rw [divide]
  simp only [isZero_iff]
  split
  · rfl
  · next hb =>
      split
      · next hshort =>
          have hlt : toNat a < toNat b := by
            have ha : toNat a < 2 ^ bitLength a := (bitLength_le_iff a _).mp (Nat.le_refl _)
            have hle : 2 ^ bitLength a ≤ toNat b := by
              rw [bitLength_eq b] at hshort
              exact Nat.lt_size.mp hshort
            exact ha.trans_le hle
          rw [Option.map_some, toNat_zeros, Nat.div_eq_of_lt hlt]
      · next hlong =>
          rw [Option.map_some, toNat_divideFrom (dividing_start h hb (Nat.le_of_not_lt hlong)),
            toNat_zeros, Nat.zero_add]

end StakeChain.Limbs
