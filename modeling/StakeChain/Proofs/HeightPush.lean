/-
The height at the start of a coinbase.

A coinbase has to start with the operation that pushes the height of its
block. Its first byte says how many bytes follow, so no height starts the
script of another one, and a script starts with one height at most.
-/
import StakeChain.Block.Check
import StakeChain.Proofs.Numerals

namespace StakeChain

namespace ScriptNumber

open Bytes (toNatLE toNatLE_cons)

/-! ## The form of a number that is not below zero -/

theorem toNatLE_magnitude (n : Nat) : toNatLE (magnitude n) = n := by
  induction n using Nat.strongRecOn with
  | ind n ih =>
      rw [magnitude]
      by_cases hn : n = 0
      · rw [if_pos hn, hn]
        rfl
      · have hlow : (UInt8.ofNat n).toNat = n % 256 := rfl
        rw [if_neg hn, toNatLE_cons, ih (n / 256) (by omega), hlow]
        omega

theorem length_magnitude_le {n width : Nat} (h : n < 256 ^ width) :
    (magnitude n).length ≤ width := by
  induction width generalizing n with
  | zero =>
      rw [pow_zero] at h
      rw [Nat.lt_one_iff.mp h, magnitude, if_pos rfl]
      exact Nat.le_refl 0
  | succ width ih =>
      rw [pow_succ] at h
      rw [magnitude]
      split
      · exact Nat.zero_le _
      · have hrest := ih (n := n / 256) (by omega)
        rw [List.length_cons]
        omega

/-- The byte that a sign may need is zero where there is none. -/
theorem signed_false (bs : Bytes) : signed false bs = bs ∨ signed false bs = bs ++ [0] := by
  induction bs with
  | nil => exact .inl rfl
  | cons b rest ih =>
      cases rest with
      | nil =>
          rw [signed]
          split
          · exact .inr rfl
          · exact .inl rfl
      | cons c rest =>
          rw [signed]
          rcases ih with ih | ih
          · exact .inl (by rw [ih])
          · exact .inr (by rw [ih]; rfl)

theorem toNatLE_append_zero (bs : Bytes) : toNatLE (bs ++ [0]) = toNatLE bs := by
  have hzero : toNatLE [0] = 0 := rfl
  rw [Bytes.toNatLE_append, hzero, Nat.mul_zero, Nat.add_zero]

theorem encode_natCast (n : Nat) :
    encode n = magnitude n ∨ encode n = magnitude n ++ [0] := by
  have hsign : decide ((n : Int) < 0) = false := by simp
  rw [encode, hsign, Int.natAbs_natCast]
  exact signed_false (magnitude n)

theorem toNatLE_encode (n : Nat) : toNatLE (encode n) = n := by
  rcases encode_natCast n with h | h
  · rw [h, toNatLE_magnitude]
  · rw [h, toNatLE_append_zero, toNatLE_magnitude]

theorem length_encode_le {n width : Nat} (h : n < 256 ^ width) :
    (encode n).length ≤ width + 1 := by
  have hlength := length_magnitude_le h
  rcases encode_natCast n with he | he
  · rw [he]
    omega
  · rw [he, List.length_append]
    exact Nat.succ_le_succ hlength

end ScriptNumber

namespace Script

/-! ## The operation that pushes a height -/

/-- How many bytes follow the first one of a pushed height. -/
def bytesAfter (b : UInt8) : Nat :=
  if b.toNat ≤ 5 then b.toNat else 0

/-- The height that is pushed by a first byte and those after it. -/
def heightOf (b : UInt8) (data : Bytes) : Nat :=
  if b.toNat ≤ 5 then Bytes.toNatLE data else b.toNat - 0x50

theorem exists_pushInt {n : Nat} (hn : n < 2 ^ 32) :
    ∃ b data, pushInt n = b :: data ∧ data.length = bytesAfter b ∧ heightOf b data = n := by
  by_cases hzero : n = 0
  · subst hzero
    exact ⟨0, [], rfl, rfl, rfl⟩
  have hpos : ¬(n : Int) = 0 := by omega
  have hnonneg : ¬(n : Int) = -1 := by omega
  by_cases hsmall : n ≤ 16
  · have hbyte : (Opcode.ofSmallInt n).toNat = 0x50 + n := by
      rw [Opcode.ofSmallInt, if_neg hzero, UInt8.toNat_ofNat']
      omega
    refine ⟨Opcode.ofSmallInt n, [], ?_, ?_, ?_⟩
    · rw [pushInt, if_neg hpos, if_neg hnonneg, if_pos (by omega)]
      rfl
    · rw [bytesAfter, if_neg (by omega)]
      rfl
    · rw [heightOf, if_neg (by omega)]
      omega
  · have hlength : (ScriptNumber.encode n).length ≤ 5 :=
      ScriptNumber.length_encode_le (show n < 256 ^ 4 by omega)
    have hbyte : (UInt8.ofNat (ScriptNumber.encode n).length).toNat =
        (ScriptNumber.encode n).length := by
      rw [UInt8.toNat_ofNat']
      omega
    refine ⟨UInt8.ofNat (ScriptNumber.encode n).length, ScriptNumber.encode n, ?_, ?_, ?_⟩
    · rw [pushInt, if_neg hpos, if_neg hnonneg, if_neg (by omega), pushData]
      exact if_pos (by omega)
    · rw [bytesAfter, hbyte, if_pos hlength]
    · rw [heightOf, hbyte, if_pos hlength, ScriptNumber.toNatLE_encode]

/-- A script starts with one height at most. -/
theorem eq_of_pushInt_prefix {m n : Nat} {bytes : Bytes} (hm : m < 2 ^ 32) (hn : n < 2 ^ 32)
    (hmb : pushInt m <+: bytes) (hnb : pushInt n <+: bytes) : m = n := by
  obtain ⟨b, data, hpush, hlength, hheight⟩ := exists_pushInt hm
  obtain ⟨b', data', hpush', hlength', hheight'⟩ := exists_pushInt hn
  rw [hpush] at hmb
  rw [hpush'] at hnb
  cases bytes with
  | nil => cases List.prefix_nil.mp hmb
  | cons first rest =>
      obtain ⟨rfl, hdata⟩ := List.cons_prefix_cons.mp hmb
      obtain ⟨rfl, hdata'⟩ := List.cons_prefix_cons.mp hnb
      have hsame : data = data' := by
        rw [List.prefix_iff_eq_take.mp hdata, List.prefix_iff_eq_take.mp hdata', hlength, hlength']
      rw [← hheight, ← hheight', hsame]

end Script

end StakeChain
