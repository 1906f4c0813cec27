/-
Numbers of several words are added, multiplied and shifted as numbers are.

A word and what is carried on from it stand together for a sum, a product or a
shifted word that may be wider than the word; that is one equation for each
operation. By induction on the words the equation holds of whole numbers. So what
is put out is the result up to a multiple of `2 ^ 64` to the number of words, and
the carry tells whether it is the result itself.
-/
import Mathlib.Tactic.Ring
import StakeChain.Work.Limbs
import StakeChain.Proofs.Numerals

namespace StakeChain.Limbs

variable {a b : Limbs}

/-! ## The number in the words -/

theorem base_eq : base = 2 ^ 64 := rfl

theorem base_pos : 0 < base := by decide

theorem base_pow (k : Nat) : base ^ k = 2 ^ (64 * k) := by
  rw [base_eq, pow_mul]

theorem base_pow_pos (k : Nat) : 0 < base ^ k :=
  Nat.pow_pos base_pos

theorem word_lt (w : UInt64) : w.toNat < base := w.toNat_lt

theorem toNat_cons (w : UInt64) (a : Limbs) : toNat (w :: a) = w.toNat + base * toNat a := rfl

theorem toNat_lt (a : Limbs) : toNat a < base ^ a.length := by
  induction a with
  | nil => exact Nat.one_pos
  | cons w a ih =>
      have hw := word_lt w
      rw [toNat_cons, List.length_cons, pow_succ']
      calc w.toNat + base * toNat a
        _ < base * (toNat a + 1) := by rw [Nat.mul_add_one]; omega
        _ ≤ base * base ^ a.length := Nat.mul_le_mul_left _ ih

theorem toNat_append (a b : Limbs) :
    toNat (a ++ b) = toNat a + base ^ a.length * toNat b := by
  induction a with
  | nil =>
      rw [List.length_nil, pow_zero, Nat.one_mul]
      exact (Nat.zero_add _).symm
  | cons w a ih =>
      rw [List.cons_append, toNat_cons, toNat_cons, ih, List.length_cons, pow_succ', Nat.mul_add,
        Nat.mul_assoc, Nat.add_assoc]

theorem toNat_zeros (k : Nat) : toNat (zeros k) = 0 := by
  induction k with
  | zero => rfl
  | succ k ih =>
      change 0 + base * toNat (zeros k) = 0
      rw [ih, Nat.mul_zero]

theorem length_zeros (k : Nat) : (zeros k).length = k :=
  List.length_replicate

theorem isZero_iff : isZero a = true ↔ toNat a = 0 := by
  induction a with
  | nil => exact iff_of_true rfl rfl
  | cons w a ih =>
      have hbase := base_pos
      have hw : w = 0 ↔ w.toNat = 0 := UInt64.toNat_inj.symm
      have hzero : isZero (w :: a) = (w == 0 && isZero a) := rfl
      rw [hzero, Bool.and_eq_true, beq_iff_eq, ih, hw, toNat_cons, Nat.add_eq_zero_iff,
        Nat.mul_eq_zero, or_iff_right hbase.ne']

theorem toNat_ofNat (k n : Nat) : toNat (ofNat k n) = n % base ^ k := by
  induction k generalizing n with
  | zero => exact (Nat.mod_one n).symm
  | succ k ih =>
      have hw : (UInt64.ofNat n).toNat = n % base := rfl
      rw [ofNat, toNat_cons, ih, hw, pow_succ', Nat.mod_mul]

theorem length_ofNat (k n : Nat) : (ofNat k n).length = k := by
  induction k generalizing n with
  | zero => rfl
  | succ k ih => exact congrArg (· + 1) (ih _)

/-- So many words hold a number in one way. -/
theorem ofNat_toNat (a : Limbs) : ofNat a.length (toNat a) = a := by
  induction a with
  | nil => rfl
  | cons w a ih =>
      have hlow : UInt64.ofNat (w.toNat + base * toNat a) = w := by
        apply UInt64.toNat_inj.mp
        rw [UInt64.toNat_ofNat', ← base_eq, Nat.add_mul_mod_self_left, Nat.mod_eq_of_lt (word_lt w)]
      have hhigh : (w.toNat + base * toNat a) / base = toNat a := by
        rw [Nat.add_mul_div_left _ _ base_pos, Nat.div_eq_of_lt (word_lt w), Nat.zero_add]
      rw [List.length_cons, toNat_cons, ofNat, hlow, hhigh, ih]

theorem toNat_take_lt (k : Nat) (a : Limbs) : toNat (a.take k) < base ^ k :=
  (toNat_lt _).trans_le (Nat.pow_le_pow_right base_pos (List.length_take_le k a))

/-- The low words and the high ones. -/
theorem toNat_take_add_drop (k : Nat) (a : Limbs) :
    toNat (a.take k) + base ^ k * toNat (a.drop k) = toNat a := by
  rcases Nat.le_total k a.length with hk | hk
  · have happend := toNat_append (a.take k) (a.drop k)
    rw [List.take_append_drop, List.length_take_of_le hk] at happend
    exact happend.symm
  · rw [List.take_of_length_le hk, List.drop_of_length_le hk]
    rfl

theorem toNat_take (k : Nat) (a : Limbs) : toNat (a.take k) = toNat a % base ^ k := by
  rw [← toNat_take_add_drop k a, Nat.add_mul_mod_self_left, Nat.mod_eq_of_lt (toNat_take_lt k a)]

theorem toNat_drop (k : Nat) (a : Limbs) : toNat (a.drop k) = toNat a / base ^ k := by
  rw [← toNat_take_add_drop k a, Nat.add_mul_div_left _ _ (base_pow_pos k),
    Nat.div_eq_of_lt (toNat_take_lt k a), Nat.zero_add]

/-! ## The words in some bytes -/

theorem base_eq_bytes : base = 256 ^ 8 := rfl

theorem toNat_ofBytes {count : Nat} {bs : Bytes} (h : bs.length = 8 * count) :
    toNat (ofBytes count bs) = Bytes.toNatLE bs := by
  induction count generalizing bs with
  | zero =>
      obtain rfl := List.eq_nil_of_length_eq_zero h
      rfl
  | succ count ih =>
      have htake : (bs.take 8).length = 8 := by
        rw [List.length_take]
        omega
      have hdrop : (bs.drop 8).length = 8 * count := by
        rw [List.length_drop]
        omega
      have hword : (UInt64.ofNat (Bytes.toNatLE (bs.take 8))).toNat =
          Bytes.toNatLE (bs.take 8) := by
        have hlt := Bytes.toNatLE_lt (bs.take 8)
        rw [htake] at hlt
        exact Nat.mod_eq_of_lt hlt
      conv_rhs => rw [← List.take_append_drop 8 bs, Bytes.toNatLE_append, htake]
      rw [ofBytes, toNat_cons, ih hdrop, hword, base_eq_bytes]

theorem toNatLE_toBytes (a : Limbs) : Bytes.toNatLE (toBytes a) = toNat a := by
  induction a with
  | nil => rfl
  | cons w a ih =>
      have hcons : toBytes (w :: a) = Bytes.ofNatLE 8 w.toNat ++ toBytes a := rfl
      rw [hcons, Bytes.toNatLE_append, Bytes.toNatLE_ofNatLE (word_lt w), Bytes.length_ofNatLE, ih,
        toNat_cons, base_eq_bytes]

/-! ## Sums and differences -/

/-- The sum of two words, and the carry. -/
theorem addWord_eq (v w : UInt64) :
    (addWord v w).1.toNat + base * (addWord v w).2.toNat = v.toNat + w.toNat := by
  have hv := word_lt v
  have hw := word_lt w
  have hcarry : (addWord v w).2 = decide (base ≤ v.toNat + w.toNat) := rfl
  have hsum : (addWord v w).1.toNat = (v.toNat + w.toNat) % base := UInt64.toNat_add v w
  rw [hcarry, hsum]
  by_cases h : base ≤ v.toNat + w.toNat
  · rw [decide_eq_true h, Nat.mod_eq_sub_mod h, Nat.mod_eq_of_lt (by omega)]
    change _ + base * 1 = _
    omega
  · rw [decide_eq_false h, Nat.mod_eq_of_lt (by omega)]
    rfl

/-- The sum of two words and a carry: of the two carries on the way at most one is set. -/
theorem addWord_addWord (v w : UInt64) (carry : Bool) :
    (addWord (addWord v w).1 carry.toUInt64).1.toNat +
        base * ((addWord v w).2 || (addWord (addWord v w).1 carry.toUInt64).2).toNat =
      v.toNat + w.toNat + carry.toNat := by
  have hv := word_lt v
  have hw := word_lt w
  have hfirst := addWord_eq v w
  have hsecond := addWord_eq (addWord v w).1 carry.toUInt64
  have hcarry : carry.toUInt64.toNat = carry.toNat := by cases carry <;> rfl
  have hle : carry.toNat ≤ 1 := carry.toNat_le
  have hbase : base = 18446744073709551616 := rfl
  generalize addWord (addWord v w).1 carry.toUInt64 = second at hsecond ⊢
  generalize addWord v w = first at hfirst hsecond ⊢
  have hlast := word_lt second.1
  obtain ⟨sum, c₁⟩ := first
  obtain ⟨total, c₂⟩ := second
  cases c₁ <;> cases c₂ <;>
    simp only [Bool.toNat_true, Bool.toNat_false, Bool.or_true, Bool.or_false] at * <;> omega

theorem length_add (carry : Bool) (h : a.length = b.length) :
    (add carry a b).1.length = a.length := by
  induction a generalizing b carry with
  | nil => cases b <;> rfl
  | cons v a ih =>
      cases b with
      | nil => cases h
      | cons w b => exact congrArg (· + 1) (ih _ (Nat.succ.inj h))

/-- What is put out and the carry that is left stand together for the sum. -/
theorem add_eq (carry : Bool) (h : a.length = b.length) :
    toNat (add carry a b).1 + base ^ a.length * (add carry a b).2.toNat =
      toNat a + toNat b + carry.toNat := by
  induction a generalizing b carry with
  | nil =>
      obtain rfl := List.eq_nil_of_length_eq_zero h.symm
      change 0 + 1 * carry.toNat = 0 + 0 + carry.toNat
      omega
  | cons v a ih =>
      cases b with
      | nil => cases h
      | cons w b =>
          have hword := addWord_addWord v w carry
          have hrest := ih ((addWord v w).2 || (addWord (addWord v w).1 carry.toUInt64).2)
            (Nat.succ.inj h)
          rw [add, toNat_cons, toNat_cons, toNat_cons, List.length_cons, pow_succ', Nat.mul_assoc,
            Nat.add_assoc, ← Nat.mul_add, hrest]
          simp only [Nat.mul_add]
          omega

theorem toNat_add (carry : Bool) (h : a.length = b.length) :
    toNat (add carry a b).1 = (toNat a + toNat b + carry.toNat) % base ^ a.length := by
  have hlt := toNat_lt (add carry a b).1
  rw [length_add carry h] at hlt
  rw [← add_eq carry h, Nat.add_mul_mod_self_left, Nat.mod_eq_of_lt hlt]

theorem carry_add_iff (carry : Bool) (h : a.length = b.length) :
    (add carry a b).2 = true ↔ base ^ a.length ≤ toNat a + toNat b + carry.toNat := by
  have hlt := toNat_lt (add carry a b).1
  rw [length_add carry h] at hlt
  rw [← add_eq carry h]
  cases (add carry a b).2 with
  | false =>
      refine iff_of_false Bool.false_ne_true ?_
      rw [Bool.toNat_false]
      omega
  | true =>
      refine iff_of_true rfl ?_
      rw [Bool.toNat_true]
      omega

theorem length_complement (a : Limbs) : (complement a).length = a.length :=
  List.length_map ..

theorem toNat_complement (a : Limbs) : toNat (complement a) + toNat a + 1 = base ^ a.length := by
  induction a with
  | nil => rfl
  | cons w a ih =>
      have hw := word_lt w
      have hnot : (~~~w).toNat = base - 1 - w.toNat := UInt64.toNat_not w
      have hcons : toNat (complement (w :: a)) = (~~~w).toNat + base * toNat (complement a) := rfl
      rw [hcons, hnot, toNat_cons, List.length_cons, pow_succ', ← ih]
      simp only [Nat.mul_add]
      omega

theorem length_sub (h : a.length = b.length) : (sub a b).length = a.length := by
  have hone : (complement b).length = (ofNat b.length 1).length := by
    rw [length_complement, length_ofNat]
  rw [sub, length_add]
  rw [length_add _ hone, length_complement, h]

/-- A difference is taken up to a multiple of what the words hold. -/
theorem toNat_sub (h : a.length = b.length) :
    toNat (sub a b) = (toNat a + (base ^ a.length - toNat b)) % base ^ a.length := by
  have hone : (complement b).length = (ofNat b.length 1).length := by
    rw [length_complement, length_ofNat]
  have hnegative : (add false (complement b) (ofNat b.length 1)).1.length = b.length := by
    rw [length_add _ hone, length_complement]
  have hb := toNat_complement b
  have hopposite : toNat (complement b) + 1 = base ^ b.length - toNat b := by omega
  rw [sub, toNat_add _ (h.trans hnegative.symm), toNat_add _ hone, length_complement, toNat_ofNat,
    Bool.toNat_false, Nat.add_zero, Nat.add_zero, Nat.add_mod_mod, hopposite, h, Nat.add_mod_mod]

theorem toNat_sub_of_le (h : a.length = b.length) (hle : toNat b ≤ toNat a) :
    toNat (sub a b) = toNat a - toNat b := by
  have ha := toNat_lt a
  rw [toNat_sub h]
  have hsum : toNat a + (base ^ a.length - toNat b) = toNat a - toNat b + base ^ a.length := by
    omega
  rw [hsum, Nat.add_mod_right, Nat.mod_eq_of_lt (by omega)]

/-! ## Products -/

/-- The product of two words and a carry of less than a word fits 128 bits. -/
theorem toNat_product (w factor : UInt64) {carry : BitVec 128} (h : carry.toNat < base) :
    (w.toBitVec.zeroExtend 128 * factor.toBitVec.zeroExtend 128 + carry).toNat =
      w.toNat * factor.toNat + carry.toNat := by
  have hw : (w.toBitVec.zeroExtend 128).toNat = w.toNat := BitVec.toNat_setWidth_of_le (by decide)
  have hfactor : (factor.toBitVec.zeroExtend 128).toNat = factor.toNat :=
    BitVec.toNat_setWidth_of_le (by decide)
  have hproduct : w.toNat * factor.toNat ≤ (base - 1) * (base - 1) :=
    Nat.mul_le_mul (Nat.le_pred_of_lt (word_lt w)) (Nat.le_pred_of_lt (word_lt factor))
  have hbase : base = 18446744073709551616 := rfl
  have hfits : w.toNat * factor.toNat + carry.toNat < 2 ^ 128 := by
    rw [hbase] at h hproduct
    omega
  rw [BitVec.toNat_add, BitVec.toNat_mul, hw, hfactor, Nat.mod_add_mod, Nat.mod_eq_of_lt hfits]

theorem length_mul (factor : UInt64) (carry : BitVec 128) (a : Limbs) :
    (mul factor carry a).1.length = a.length := by
  induction a generalizing carry with
  | nil => rfl
  | cons w a ih => exact congrArg (· + 1) (ih _)

/-- What is put out and the carry that is left stand together for the product. -/
theorem mul_eq (factor : UInt64) {carry : BitVec 128} (h : carry.toNat < base) (a : Limbs) :
    toNat (mul factor carry a).1 + base ^ a.length * (mul factor carry a).2.toNat =
      toNat a * factor.toNat + carry.toNat := by
  induction a generalizing carry with
  | nil =>
      change 0 + 1 * carry.toNat = 0 * factor.toNat + carry.toNat
      omega
  | cons w a ih =>
      have hproduct := toNat_product w factor h
      generalize hp : w.toBitVec.zeroExtend 128 * factor.toBitVec.zeroExtend 128 + carry = product
        at hproduct
      have hlow : (UInt64.ofBitVec (product.truncate 64)).toNat = product.toNat % base :=
        BitVec.toNat_setWidth 64 product
      have hhigh : (product >>> 64).toNat = product.toNat / base := by
        rw [BitVec.toNat_ushiftRight, Nat.shiftRight_eq_div_pow, ← base_eq]
      have hcarry : (product >>> 64).toNat < base := by
        have hlt := product.isLt
        have hbase : base = 18446744073709551616 := rfl
        rw [hhigh, hbase]
        omega
      have hdivided := Nat.mod_add_div product.toNat base
      rw [mul, hp]
      dsimp only
      rw [toNat_cons, toNat_cons, List.length_cons, pow_succ', Nat.mul_assoc, Nat.add_assoc,
        ← Nat.mul_add, ih hcarry, hlow, hhigh, Nat.mul_add, Nat.add_mul, Nat.mul_assoc]
      omega

/-! ## Shifts -/

/-- Bits below all that are set are added. -/
theorem toNat_or_of_lt {v w : UInt64} {n : Nat} (hv : v.toNat < 2 ^ n) (hw : 2 ^ n ∣ w.toNat) :
    (v ||| w).toNat = v.toNat + w.toNat := by
  obtain ⟨c, hc⟩ := hw
  rw [UInt64.toNat_or, hc, Nat.or_comm, ← Nat.two_pow_add_eq_or_of_lt hv, Nat.add_comm]

theorem toNat_shiftLeft_word (w : UInt64) {n : Nat} (h : n < 64) :
    (w <<< UInt64.ofNat n).toNat = w.toNat * 2 ^ n % base := by
  have hn : (UInt64.ofNat n).toNat % 64 = n := by
    rw [UInt64.toNat_ofNat']
    omega
  rw [UInt64.toNat_shiftLeft, hn, Nat.shiftLeft_eq, ← base_eq]

theorem toNat_shiftRight_word (w : UInt64) {n : Nat} (h : n < 64) :
    (w >>> UInt64.ofNat n).toNat = w.toNat / 2 ^ n := by
  have hn : (UInt64.ofNat n).toNat % 64 = n := by
    rw [UInt64.toNat_ofNat']
    omega
  rw [UInt64.toNat_shiftRight, hn, Nat.shiftRight_eq_div_pow]

/-- A word is split by a number of bits less than a word. -/
theorem base_split {n : Nat} (h : n ≤ 64) : base = 2 ^ (64 - n) * 2 ^ n := by
  rw [← pow_add, Nat.sub_add_cancel h, base_eq]

/-- What leaves a word that is shifted up. -/
theorem toNat_leaving (w : UInt64) {n : Nat} (h : n < 64) :
    (if 0 < n then w >>> UInt64.ofNat (64 - n) else 0).toNat = w.toNat * 2 ^ n / base := by
  rw [base_split h.le, Nat.mul_div_mul_right _ _ (Nat.two_pow_pos n)]
  split
  · next hpos => rw [toNat_shiftRight_word w (by omega)]
  · next hzero =>
      obtain rfl : n = 0 := by omega
      exact (Nat.div_eq_of_lt (word_lt w)).symm

theorem toNat_leaving_lt (w : UInt64) {n : Nat} (h : n < 64) :
    (if 0 < n then w >>> UInt64.ofNat (64 - n) else 0).toNat < 2 ^ n := by
  rw [toNat_leaving w h]
  exact Nat.div_lt_of_lt_mul ((Nat.mul_lt_mul_right (Nat.two_pow_pos n)).mpr (word_lt w))

/-- What stays of a word that is shifted up, with what enters it below. -/
theorem toNat_staying (w : UInt64) {n : Nat} (h : n < 64) {spill : UInt64}
    (hspill : spill.toNat < 2 ^ n) :
    (spill ||| w <<< UInt64.ofNat n).toNat = spill.toNat + w.toNat * 2 ^ n % base := by
  rw [toNat_or_of_lt hspill, toNat_shiftLeft_word w h]
  rw [toNat_shiftLeft_word w h, base_split h.le, Nat.mul_mod_mul_right]
  exact Nat.dvd_mul_left _ _

theorem length_shiftUp (n : Nat) (spill : UInt64) (a : Limbs) :
    (shiftUp n spill a).length = a.length := by
  induction a generalizing spill with
  | nil => rfl
  | cons w a ih => exact congrArg (· + 1) (ih _)

theorem toNat_shiftUp {n : Nat} (h : n < 64) {spill : UInt64} (hspill : spill.toNat < 2 ^ n)
    (a : Limbs) :
    toNat (shiftUp n spill a) = (toNat a * 2 ^ n + spill.toNat) % base ^ a.length := by
  induction a generalizing spill with
  | nil => exact (Nat.mod_one _).symm
  | cons w a ih =>
      have hstaying := toNat_staying w h hspill
      have hlt : spill.toNat + w.toNat * 2 ^ n % base < base := hstaying ▸ word_lt _
      -- the word that is put out is the rest by `base`, and what leaves it the quotient
      have hwhole : (w.toNat + base * toNat a) * 2 ^ n + spill.toNat =
          (spill.toNat + w.toNat * 2 ^ n % base) +
            base * (toNat a * 2 ^ n + w.toNat * 2 ^ n / base) := by
        have hsplit := Nat.mod_add_div (w.toNat * 2 ^ n) base
        rw [Nat.add_mul, Nat.mul_assoc, Nat.mul_add]
        omega
      rw [shiftUp, toNat_cons, ih (toNat_leaving_lt w h), hstaying, toNat_leaving w h, toNat_cons,
        List.length_cons, pow_succ', hwhole, Nat.mod_mul, Nat.add_mul_mod_self_left,
        Nat.mod_eq_of_lt hlt, Nat.add_mul_div_left _ _ base_pos, Nat.div_eq_of_lt hlt,
        Nat.zero_add]

/-- A shift to the left is a product, up to a multiple of what the words hold. -/
theorem toNat_shiftLeft (a : Limbs) (n : Nat) :
    toNat (shiftLeft a n) = toNat a * 2 ^ n % base ^ a.length := by
  rw [shiftLeft]
  split
  · next hout =>
      have hdvd : base ^ a.length ∣ toNat a * 2 ^ n :=
        base_pow a.length ▸ Nat.dvd_mul_left_of_dvd (Nat.pow_dvd_pow 2 hout) _
      rw [toNat_zeros, Nat.mod_eq_zero_of_dvd hdvd]
  · have hpow : 2 ^ n = base ^ (n / 64) * 2 ^ (n % 64) := by
      rw [base_pow, ← pow_add, Nat.div_add_mod]
    have hspill : (0 : UInt64).toNat < 2 ^ (n % 64) := Nat.two_pow_pos _
    rw [toNat_take, toNat_append, toNat_zeros, length_zeros, Nat.zero_add,
      toNat_shiftUp (Nat.mod_lt n (by decide)) hspill, hpow]
    change base ^ (n / 64) * ((toNat a * 2 ^ (n % 64) + 0) % _) % _ = _
    rw [Nat.add_zero, Nat.mul_mod, Nat.mod_mod, ← Nat.mul_mod, Nat.mul_left_comm]

theorem length_shiftLeft (a : Limbs) (n : Nat) : (shiftLeft a n).length = a.length := by
  rw [shiftLeft]
  split
  · exact length_zeros _
  · rw [List.length_take, List.length_append, length_shiftUp]
    omega

theorem length_shiftDown (n : Nat) (a : Limbs) : (shiftDown n a).length = a.length := by
  induction a with
  | nil => rfl
  | cons w a ih => exact congrArg (· + 1) ih

/-- The low bits of a number are those of its first word. -/
theorem toNat_mod_two_pow {n : Nat} (h : n ≤ 64) (a : Limbs) :
    toNat a % 2 ^ n = (a.headD 0).toNat % 2 ^ n := by
  cases a with
  | nil => rfl
  | cons w a =>
      rw [toNat_cons, base_split h, Nat.mul_comm (2 ^ (64 - n)), Nat.mul_assoc,
        Nat.add_mul_mod_self_left]
      rfl

/-- What enters a word from above when it is shifted down. -/
theorem toNat_entering (a : Limbs) {n : Nat} (h : n < 64) :
    (if 0 < n then a.headD 0 <<< UInt64.ofNat (64 - n) else 0).toNat =
      toNat a % 2 ^ n * 2 ^ (64 - n) := by
  split
  · next hpos =>
      rw [toNat_shiftLeft_word _ (by omega), base_split h.le, Nat.mul_comm (2 ^ (64 - n)),
        Nat.mul_mod_mul_right, toNat_mod_two_pow h.le]
  · next hzero =>
      obtain rfl : n = 0 := by omega
      rw [pow_zero, Nat.mod_one, Nat.zero_mul]
      rfl

/-- What stays of a word that is shifted down, with what enters it above. -/
theorem toNat_staying_down (w : UInt64) (a : Limbs) {n : Nat} (h : n < 64) :
    (w >>> UInt64.ofNat n ||| if 0 < n then a.headD 0 <<< UInt64.ofNat (64 - n) else 0).toNat =
      w.toNat / 2 ^ n + toNat a % 2 ^ n * 2 ^ (64 - n) := by
  have hlow : w.toNat / 2 ^ n < 2 ^ (64 - n) := by
    refine Nat.div_lt_of_lt_mul ?_
    rw [Nat.mul_comm, ← base_split h.le]
    exact word_lt w
  rw [toNat_or_of_lt (n := 64 - n), toNat_shiftRight_word w h, toNat_entering a h]
  · rwa [toNat_shiftRight_word w h]
  · rw [toNat_entering a h]
    exact Nat.dvd_mul_left _ _

theorem toNat_shiftDown {n : Nat} (h : n < 64) (a : Limbs) :
    toNat (shiftDown n a) = toNat a / 2 ^ n := by
  induction a with
  | nil => exact (Nat.zero_div _).symm
  | cons w a ih =>
      have hbase := base_split h.le
      have hwhole : w.toNat + base * toNat a = w.toNat + 2 ^ n * (2 ^ (64 - n) * toNat a) := by
        rw [hbase, Nat.mul_comm (2 ^ (64 - n)), Nat.mul_assoc]
      rw [shiftDown, toNat_cons, ih, toNat_staying_down w a h, toNat_cons, hwhole,
        Nat.add_mul_div_left _ _ (Nat.two_pow_pos n), hbase, Nat.add_assoc]
      congr 1
      calc toNat a % 2 ^ n * 2 ^ (64 - n) + 2 ^ (64 - n) * 2 ^ n * (toNat a / 2 ^ n)
        _ = 2 ^ (64 - n) * (toNat a % 2 ^ n + 2 ^ n * (toNat a / 2 ^ n)) := by ring
        _ = 2 ^ (64 - n) * toNat a := by rw [Nat.mod_add_div]

/-- A shift to the right is a quotient. -/
theorem toNat_shiftRight (a : Limbs) (n : Nat) : toNat (shiftRight a n) = toNat a / 2 ^ n := by
  rw [shiftRight]
  split
  · next hout =>
      have hlt : toNat a < 2 ^ n :=
        (toNat_lt a).trans_le (base_pow a.length ▸ Nat.pow_le_pow_right Nat.two_pos hout)
      rw [toNat_zeros, Nat.div_eq_of_lt hlt]
  · have hpow : 2 ^ n = base ^ (n / 64) * 2 ^ (n % 64) := by
      rw [base_pow, ← pow_add, Nat.div_add_mod]
    rw [toNat_append, toNat_zeros, Nat.mul_zero, Nat.add_zero,
      toNat_shiftDown (Nat.mod_lt n (by decide)), toNat_drop, Nat.div_div_eq_div_mul, hpow]

theorem length_shiftRight (a : Limbs) (n : Nat) : (shiftRight a n).length = a.length := by
  rw [shiftRight]
  split
  · exact length_zeros _
  · rw [List.length_append, length_shiftDown, List.length_drop, length_zeros]
    omega

end StakeChain.Limbs
