/-
Numbers in a fixed number of bytes.

Writing and reading are inverse to each other between the byte strings of a
width and the numbers below `256 ^ width`, in either byte order. So a field
of fixed width has one form for each number and stands for one number.
-/
import Mathlib.Algebra.Order.Ring.Nat
import StakeChain.Bytes

namespace StakeChain.Bytes

/-! ## Least significant byte first -/

theorem toNatLE_cons (b : UInt8) (bs : Bytes) :
    toNatLE (b :: bs) = b.toNat + 256 * toNatLE bs := rfl

theorem toNatLE_lt (bs : Bytes) : toNatLE bs < 256 ^ bs.length := by
  induction bs with
  | nil => exact Nat.one_pos
  | cons b rest ih =>
      have hb := b.toNat_lt
      rw [toNatLE_cons, List.length_cons, pow_succ]
      omega

theorem toNatLE_ofNatLE {width n : Nat} (h : n < 256 ^ width) :
    toNatLE (ofNatLE width n) = n := by
  induction width generalizing n with
  | zero =>
      rw [pow_zero] at h
      rw [Nat.lt_one_iff.mp h]
      rfl
  | succ width ih =>
      rw [pow_succ] at h
      have hb : (UInt8.ofNat n).toNat = n % 256 := rfl
      rw [ofNatLE, toNatLE_cons, ih (by omega), hb]
      omega

theorem ofNatLE_toNatLE {width : Nat} {bs : Bytes} (h : bs.length = width) :
    ofNatLE width (toNatLE bs) = bs := by
  induction width generalizing bs with
  | zero => rw [List.eq_nil_of_length_eq_zero h]; rfl
  | succ width ih =>
      cases bs with
      | nil => cases h
      | cons b rest =>
          have hb := b.toNat_lt
          have hlow : UInt8.ofNat (b.toNat + 256 * toNatLE rest) = b := by
            apply UInt8.toNat_inj.mp
            rw [UInt8.toNat_ofNat']
            omega
          have hhigh : (b.toNat + 256 * toNatLE rest) / 256 = toNatLE rest := by omega
          rw [toNatLE_cons, ofNatLE, hlow, hhigh, ih (Nat.succ.inj h)]

theorem toNatLE_append (bs cs : Bytes) :
    toNatLE (bs ++ cs) = toNatLE bs + 256 ^ bs.length * toNatLE cs := by
  induction bs with
  | nil =>
      rw [List.nil_append, List.length_nil, pow_zero, one_mul]
      exact (Nat.zero_add _).symm
  | cons b bs ih =>
      rw [List.cons_append, toNatLE_cons, toNatLE_cons, ih, List.length_cons, pow_succ,
        Nat.mul_comm (256 ^ bs.length) 256, Nat.mul_assoc, Nat.mul_add, Nat.add_assoc]

/-! ## Either order -/

theorem toNatBE_eq (bs : Bytes) : toNatBE bs = toNatLE bs.reverse := by
  rw [toNatLE, List.foldr_reverse, toNatBE]
  congr 1
  funext acc b
  omega

theorem toNat_lt (order : ByteOrder) (bs : Bytes) : toNat order bs < 256 ^ bs.length := by
  cases order with
  | little => exact toNatLE_lt bs
  | big =>
      rw [toNat, toNatBE_eq, ← List.length_reverse]
      exact toNatLE_lt _

theorem toNatBE_lt (bs : Bytes) : toNatBE bs < 256 ^ bs.length :=
  toNat_lt .big bs

theorem toNatBE_cons (b : UInt8) (bs : Bytes) :
    toNatBE (b :: bs) = b.toNat * 256 ^ bs.length + toNatBE bs := by
  have hlast : toNatLE [b] = b.toNat := rfl
  rw [toNatBE_eq, List.reverse_cons, toNatLE_append, List.length_reverse, hlast, ← toNatBE_eq,
    Nat.mul_comm, Nat.add_comm]

theorem toNat_ofNat {order : ByteOrder} {width n : Nat} (h : n < 256 ^ width) :
    toNat order (ofNat order width n) = n := by
  cases order with
  | little => exact toNatLE_ofNatLE h
  | big => rw [toNat, ofNat, toNatBE_eq, ofNatBE, List.reverse_reverse, toNatLE_ofNatLE h]

theorem ofNat_toNat {order : ByteOrder} {width : Nat} {bs : Bytes} (h : bs.length = width) :
    ofNat order width (toNat order bs) = bs := by
  cases order with
  | little => exact ofNatLE_toNatLE h
  | big =>
      rw [toNat, ofNat, toNatBE_eq, ofNatBE, ofNatLE_toNatLE (List.length_reverse.trans h),
        List.reverse_reverse]

/-! ## Splitting -/

theorem splitExact_eq_some {n : Nat} {bs head rest : Bytes} :
    splitExact n bs = some (head, rest) ↔ head.length = n ∧ bs = head ++ rest := by
  rw [splitExact]
  constructor
  · intro h
    split at h
    · rename_i hn
      cases h
      exact ⟨hn, (List.take_append_drop n bs).symm⟩
    · cases h
  · rintro ⟨rfl, rfl⟩
    simp

end StakeChain.Bytes
