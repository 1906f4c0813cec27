/-
Script numbers have one shortest form each.

A byte string is taken apart at its last byte, which holds the sign: the bytes
before it and the seven bits beside the sign are the size of the number, and a
form is the shortest when the last byte is needed. It is needed for one of two
reasons, that some of its seven bits are set or that the byte before it has its
top bit taken, and these are the two ways in which a number is written. So the
writing of a number is that byte string, of all in shortest form, that stands for
it. Its length says how large the number can be, and is at most the width just
when the number has a place in it.

A number is made in a word of 64 bits. With eight bytes its sign is the top bit of
the word, and is masked out before the rest is negated; nothing is lost on the way.
-/
import Mathlib.Data.List.Basic
import Mathlib.Data.List.Induction
import Mathlib.Data.Set.Function
import StakeChain.Proofs.HeightPush
import StakeChain.Proofs.StrictForm
import StakeChain.Script.Number

namespace StakeChain.ScriptNumber

open Bytes (toNatLE toNatLE_cons toNatLE_append toNatLE_lt)

/-! ## The last byte, and those before it -/

/-- The size of a number: the bytes before the last one, and the seven bits beside the sign. -/
def size (init : Bytes) (last : UInt8) : Nat :=
  toNatLE init + 256 ^ init.length * (last.toNat % 128)

/-- The last byte is needed, for what it holds or for its sign alone. -/
def Needed (init : Bytes) (last : UInt8) : Prop :=
  last.toNat % 128 ≠ 0 ∨ ∃ rest previous, init = rest ++ [previous] ∧ 0x80 ≤ previous

theorem topBit_le_iff (b : UInt8) : 0x80 ≤ b ↔ 128 ≤ b.toNat :=
  UInt8.le_iff_toNat_le

theorem toNatLE_concat (init : Bytes) (last : UInt8) :
    toNatLE (init ++ [last]) = toNatLE init + 256 ^ init.length * last.toNat :=
  toNatLE_append init [last]

/-- With the sign set the top bit stands above the size. -/
theorem toNatLE_concat_sign (init : Bytes) (last : UInt8) :
    toNatLE (init ++ [last]) =
      size init last + if 0x80 ≤ last then 128 * 256 ^ init.length else 0 := by
  have hlast := last.toNat_lt
  rw [toNatLE_concat, size, Nat.add_assoc]
  congr 1
  split
  · next hsign =>
      rw [topBit_le_iff] at hsign
      have hsplit : last.toNat = last.toNat % 128 + 128 := by omega
      conv_lhs => rw [hsplit, Nat.mul_add, Nat.mul_comm _ 128]
  · next hsign =>
      rw [topBit_le_iff] at hsign
      rw [Nat.mod_eq_of_lt (by omega), Nat.add_zero]

theorem value_concat (init : Bytes) (last : UInt8) :
    value (init ++ [last]) = if 0x80 ≤ last then -(size init last : Int) else size init last := by
  have hvalue : value (init ++ [last]) = if last ≥ 0x80 then
      -((toNatLE (init ++ [last]) - 0x80 * Nat.pow 256 ((init ++ [last]).length - 1) : Nat) : Int)
      else toNatLE (init ++ [last]) := by
    rw [value, List.getLast?_concat]
  have hlength : (init ++ [last]).length - 1 = init.length := by simp
  rw [hvalue, hlength, toNatLE_concat_sign]
  split
  · change -((size init last + 128 * 256 ^ init.length - 128 * 256 ^ init.length : Nat) : Int) = _
    rw [Nat.add_sub_cancel]
  · rw [Nat.add_zero]

theorem natAbs_value_concat (init : Bytes) (last : UInt8) :
    (value (init ++ [last])).natAbs = size init last := by
  rw [value_concat]
  split
  · rw [Int.natAbs_neg, Int.natAbs_natCast]
  · rw [Int.natAbs_natCast]

theorem value_concat_neg_iff {init : Bytes} {last : UInt8} (h : size init last ≠ 0) :
    value (init ++ [last]) < 0 ↔ 0x80 ≤ last := by
  rw [value_concat]
  split
  · next hsign => exact iff_of_true (by omega) hsign
  · next hsign => exact iff_of_false (by omega) hsign

theorem toNat_lowBits (b : UInt8) : (b &&& 0x7f).toNat = b.toNat % 128 := by
  rw [UInt8.toNat_and]
  exact Nat.and_two_pow_sub_one_eq_mod b.toNat 7

theorem lowBits_ne_zero_iff (b : UInt8) : (b &&& 0x7f != 0) = true ↔ b.toNat % 128 ≠ 0 := by
  rw [bne_iff_ne, ne_eq, ← UInt8.toNat_inj, toNat_lowBits]
  rfl

theorem topBit_ne_zero_iff (b : UInt8) : (b &&& 0x80 != 0) = true ↔ 0x80 ≤ b := by
  rw [bne_iff_ne, ne_eq, Key.and_topBit_eq_zero, UInt8.not_lt]

theorem isMinimal_concat (init : Bytes) (last : UInt8) :
    isMinimal (init ++ [last]) = true ↔ Needed init last := by
  rw [isMinimal, List.reverse_concat]
  dsimp only
  rw [Bool.or_eq_true, lowBits_ne_zero_iff, Needed]
  refine or_congr_right ?_
  rcases List.eq_nil_or_concat' init with rfl | ⟨rest, previous, rfl⟩
  · simp
  · rw [List.reverse_concat]
    dsimp only
    rw [topBit_ne_zero_iff]
    constructor
    · intro h
      exact ⟨rest, previous, rfl, h⟩
    · rintro ⟨_, _, h, hprevious⟩
      obtain ⟨-, hlast⟩ := List.append_inj' h rfl
      rw [(List.cons.inj hlast).1]
      exact hprevious

/-! ## How a number is written -/

theorem magnitude_toNatLE {init : Bytes} {top : UInt8} (h : top ≠ 0) :
    magnitude (toNatLE (init ++ [top])) = init ++ [top] := by
  have htop : top.toNat ≠ 0 := UInt8.toNat_inj.not.mpr h
  induction init with
  | nil =>
      have hlt := top.toNat_lt
      have hvalue : toNatLE ([] ++ [top]) = top.toNat := rfl
      rw [hvalue, magnitude, if_neg htop, magnitude, if_pos (by omega), UInt8.ofNat_toNat]
      rfl
  | cons b init ih =>
      have hb := b.toNat_lt
      have hpos : toNatLE (init ++ [top]) ≠ 0 := by
        intro hzero
        rw [hzero, magnitude, if_pos rfl] at ih
        simp at ih
      have hlow : UInt8.ofNat (b.toNat + 256 * toNatLE (init ++ [top])) = b := by
        rw [← UInt8.toNat_inj, UInt8.toNat_ofNat']
        omega
      rw [List.cons_append, toNatLE_cons, magnitude, if_neg (by omega), hlow,
        show (b.toNat + 256 * toNatLE (init ++ [top])) / 256 = toNatLE (init ++ [top]) by omega, ih]

theorem exists_magnitude {n : Nat} (h : n ≠ 0) :
    ∃ init top, magnitude n = init ++ [top] ∧ top ≠ 0 := by
  induction n using Nat.strongRecOn with
  | ind n ih =>
      rw [magnitude, if_neg h]
      by_cases hlast : n / 256 = 0
      · refine ⟨[], UInt8.ofNat n, ?_, ?_⟩
        · rw [hlast, magnitude, if_pos rfl]
          rfl
        · rw [ne_eq, ← UInt8.toNat_inj, UInt8.toNat_ofNat']
          change ¬ n % 2 ^ 8 = 0
          omega
      · obtain ⟨init, top, hrest, htop⟩ := ih (n / 256) (by omega) hlast
        exact ⟨UInt8.ofNat n :: init, top, by rw [hrest]; rfl, htop⟩

/-- The sign goes on the last byte, or on one more where that has no place for it. -/
theorem signed_concat (negative : Bool) (init : Bytes) (top : UInt8) :
    signed negative (init ++ [top]) =
      init ++ signed negative [top] := by
  induction init with
  | nil => rfl
  | cons b init ih =>
      obtain ⟨c, rest, hrest⟩ := List.exists_cons_of_ne_nil (List.append_ne_nil_of_right_ne_nil init
        (List.cons_ne_nil top []))
      rw [List.cons_append, List.cons_append, ← ih, hrest]
      rfl

theorem encode_of_free {n : Int} {init : Bytes} {top : UInt8}
    (hmagnitude : magnitude n.natAbs = init ++ [top]) (h : ¬ 0x80 ≤ top) :
    encode n = init ++ [if n < 0 then top ||| 0x80 else top] := by
  rw [encode, hmagnitude, signed_concat, signed, if_neg h]
  simp only [decide_eq_true_eq]

theorem encode_of_taken {n : Int} {init : Bytes} {top : UInt8}
    (hmagnitude : magnitude n.natAbs = init ++ [top]) (h : 0x80 ≤ top) :
    encode n = (init ++ [top]) ++ [if n < 0 then 0x80 else 0] := by
  rw [encode, hmagnitude, signed_concat, signed, if_pos h, List.append_assoc]
  simp only [decide_eq_true_eq]
  rfl

/-- The bits of a byte beside the top one, and with it. -/
theorem byte_bits (b : UInt8) :
    (0x80 ≤ b → (b &&& 0x7f) ||| 0x80 = b) ∧ (¬ 0x80 ≤ b → b &&& 0x7f = b) ∧
      (¬ 0x80 ≤ b → (b ||| 0x80).toNat = b.toNat + 128) ∧ ¬ 0x80 ≤ b &&& 0x7f := by
  revert b
  refine Bytes.forall_byte ?_
  decide +kernel

/-- What is written for a number other than zero. -/
theorem exists_encode {n : Int} (hn : n ≠ 0) :
    ∃ init last, encode n = init ++ [last] ∧ size init last = n.natAbs ∧
      (0x80 ≤ last ↔ n < 0) ∧ Needed init last := by
  obtain ⟨init, top, hmagnitude, htop⟩ := exists_magnitude (Int.natAbs_ne_zero.mpr hn)
  have hsize : toNatLE (init ++ [top]) = n.natAbs := by rw [← hmagnitude, toNatLE_magnitude]
  by_cases h : 0x80 ≤ top
  · refine ⟨init ++ [top], _, encode_of_taken hmagnitude h, ?_, ?_, .inr ⟨init, top, rfl, h⟩⟩
    · rw [size, hsize]
      split <;> rfl
    · split
      · next hneg => exact iff_of_true (by decide) hneg
      · next hneg => exact iff_of_false (by decide) hneg
  · have hlt : top.toNat < 128 := Nat.lt_of_not_le ((topBit_le_iff top).not.mp h)
    have hne : top.toNat ≠ 0 := UInt8.toNat_inj.not.mpr htop
    have hlow : (if n < 0 then top ||| 0x80 else top).toNat % 128 = top.toNat := by
      split
      · rw [(byte_bits top).2.2.1 h]
        omega
      · omega
    refine ⟨init, _, encode_of_free hmagnitude h, ?_, ?_, .inl ?_⟩
    · rw [size, hlow, ← hsize, toNatLE_concat]
    · split
      · next hneg =>
          refine iff_of_true ((topBit_le_iff _).mpr ?_) hneg
          rw [(byte_bits top).2.2.1 h]
          exact Nat.le_add_left 128 _
      · next hneg => exact iff_of_false h hneg
    · rw [hlow]
      exact hne

theorem encode_zero : encode 0 = [] := by
  rw [encode, Int.natAbs_zero, magnitude, if_pos rfl]
  rfl

theorem isMinimal_encode (n : Int) : isMinimal (encode n) = true := by
  by_cases hn : n = 0
  · rw [hn, encode_zero]
    rfl
  · obtain ⟨init, last, hencode, -, -, hneeded⟩ := exists_encode hn
    rw [hencode]
    exact (isMinimal_concat init last).mpr hneeded

theorem value_encode (n : Int) : value (encode n) = n := by
  by_cases hn : n = 0
  · rw [hn, encode_zero]
    rfl
  · obtain ⟨init, last, hencode, hsize, hsign, -⟩ := exists_encode hn
    rw [hencode, value_concat, hsize]
    split
    · next h =>
        have hneg := hsign.mp h
        omega
    · next h =>
        have hneg := hsign.not.mp h
        omega

/-- A last byte with more than a sign stays where it is. -/
theorem encode_value_of_low {init : Bytes} {last : UInt8} (hlow : last.toNat % 128 ≠ 0) :
    encode (value (init ++ [last])) = init ++ [last] := by
  have htop : last &&& 0x7f ≠ 0 := bne_iff_ne.mp ((lowBits_ne_zero_iff last).mpr hlow)
  have hsize : size init last = toNatLE (init ++ [last &&& 0x7f]) := by
    rw [size, toNatLE_concat, toNat_lowBits]
  have hmagnitude : magnitude (value (init ++ [last])).natAbs = init ++ [last &&& 0x7f] := by
    rw [natAbs_value_concat, hsize, magnitude_toNatLE htop]
  have hne : size init last ≠ 0 := by
    have hpos := Nat.mul_pos (Nat.pow_pos (n := init.length) (by decide : 0 < 256))
      (Nat.pos_of_ne_zero hlow)
    rw [size]
    omega
  rw [encode_of_free hmagnitude (byte_bits last).2.2.2]
  congr 2
  simp only [value_concat_neg_iff hne]
  split
  · next hsign => exact (byte_bits last).1 hsign
  · next hsign => exact (byte_bits last).2.1 hsign

/-- A last byte with the sign alone is written again after a byte that has no place for it. -/
theorem encode_value_of_sign {init : Bytes} {previous last : UInt8} (hlow : last.toNat % 128 = 0)
    (hprevious : 0x80 ≤ previous) :
    encode (value ((init ++ [previous]) ++ [last])) = (init ++ [previous]) ++ [last] := by
  have hsize : size (init ++ [previous]) last = toNatLE (init ++ [previous]) := by
    rw [size, hlow, Nat.mul_zero, Nat.add_zero]
  have htop : previous ≠ 0 := by
    rintro rfl
    exact absurd hprevious (by decide)
  have hmagnitude : magnitude (value ((init ++ [previous]) ++ [last])).natAbs =
      init ++ [previous] := by
    rw [natAbs_value_concat, hsize, magnitude_toNatLE htop]
  have hne : size (init ++ [previous]) last ≠ 0 := by
    intro hzero
    rw [natAbs_value_concat, hzero, magnitude, if_pos rfl] at hmagnitude
    simp at hmagnitude
  have hlast := last.toNat_lt
  rw [encode_of_taken hmagnitude hprevious]
  congr 2
  simp only [value_concat_neg_iff hne, topBit_le_iff]
  apply UInt8.toNat_inj.mp
  split
  · change 128 = last.toNat
    omega
  · change 0 = last.toNat
    omega

theorem encode_value {bs : Bytes} (h : isMinimal bs = true) : encode (value bs) = bs := by
  rcases List.eq_nil_or_concat' bs with rfl | ⟨init, last, rfl⟩
  · exact encode_zero
  by_cases hlow : last.toNat % 128 = 0
  · obtain ⟨rest, previous, rfl, hprevious⟩ :=
      ((isMinimal_concat init last).mp h).resolve_left (not_not.mpr hlow)
    exact encode_value_of_sign hlow hprevious
  · exact encode_value_of_low hlow

/-- What is written for a number is the one byte string in shortest form that stands for it. -/
theorem encode_eq_iff {n : Int} {bs : Bytes} :
    encode n = bs ↔ isMinimal bs = true ∧ value bs = n := by
  constructor
  · rintro rfl
    exact ⟨isMinimal_encode n, value_encode n⟩
  · rintro ⟨hminimal, rfl⟩
    exact encode_value hminimal

/-! ## Widths -/

theorem pow_256 (n : Nat) : 256 ^ n = 2 ^ (8 * n) := by
  have h256 : (256 : Nat) = 2 ^ 8 := rfl
  rw [h256, ← pow_mul]

theorem two_pow_width {width : Nat} (h : 0 < width) :
    2 ^ (8 * width - 1) = 128 * 256 ^ (width - 1) := by
  obtain ⟨less, rfl⟩ : ∃ less, width = less + 1 := ⟨width - 1, by omega⟩
  have h128 : (128 : Nat) = 2 ^ 7 := rfl
  rw [Nat.add_sub_cancel, pow_256, h128, ← pow_add]
  congr 1
  omega

theorem size_lt (init : Bytes) (last : UInt8) : size init last < 128 * 256 ^ init.length := by
  have hinit := toNatLE_lt init
  have hlast : last.toNat % 128 ≤ 127 := by omega
  have hmul := Nat.mul_le_mul_left (256 ^ init.length) hlast
  rw [size]
  omega

/-- With its last byte needed a number has no place in fewer bytes. -/
theorem le_size {init : Bytes} {last : UInt8} (h : Needed init last) :
    128 * 256 ^ init.length ≤ 256 * size init last := by
  rw [size]
  rcases h with hlow | ⟨rest, previous, rfl, hprevious⟩
  · have hmul := Nat.mul_le_mul_left (256 ^ init.length) (Nat.one_le_iff_ne_zero.mpr hlow)
    omega
  · rw [topBit_le_iff] at hprevious
    have hmul := Nat.mul_le_mul_left (256 ^ rest.length) hprevious
    rw [toNatLE_concat, List.length_append, List.length_singleton, pow_succ]
    omega

/-- A number has a place in a width just when its shortest form has. -/
theorem length_le_iff {width : Nat} (hwidth : 0 < width) {bs : Bytes} (h : isMinimal bs = true) :
    bs.length ≤ width ↔ (value bs).natAbs ≤ 2 ^ (8 * width - 1) - 1 := by
  rw [two_pow_width hwidth]
  have hpos : 0 < 256 ^ (width - 1) := Nat.pow_pos (by decide)
  rcases List.eq_nil_or_concat' bs with rfl | ⟨init, last, rfl⟩
  · refine iff_of_true (Nat.zero_le _) ?_
    change 0 ≤ _
    omega
  have hlower := le_size ((isMinimal_concat init last).mp h)
  have hupper := size_lt init last
  rw [natAbs_value_concat, List.length_append, List.length_singleton]
  constructor
  · intro hlength
    have hpow : 256 ^ init.length ≤ 256 ^ (width - 1) :=
      Nat.pow_le_pow_right (by decide) (by omega)
    omega
  · intro hsize
    by_contra hlength
    have hpow : 256 ^ (width - 1 + 1) ≤ 256 ^ init.length :=
      Nat.pow_le_pow_right (by decide) (by omega)
    rw [pow_succ] at hpow
    omega

/-! ## Truth -/

theorem size_cons (b : UInt8) (init : Bytes) (last : UInt8) :
    size (b :: init) last = b.toNat + 256 * size init last := by
  rw [size, size, toNatLE_cons, List.length_cons, pow_succ, Nat.mul_add, Nat.mul_comm _ 256,
    Nat.mul_assoc, Nat.add_assoc]

theorem isTrue_concat (init : Bytes) (last : UInt8) :
    isTrue (init ++ [last]) = true ↔ size init last ≠ 0 := by
  induction init with
  | nil =>
      revert last
      refine Bytes.forall_byte ?_
      decide +kernel
  | cons b init ih =>
      rw [List.cons_append, isTrue, size_cons]
      by_cases hb : b = 0
      · subst b
        rw [if_neg (by simp), ih]
        change _ ↔ 0 + 256 * size init last ≠ 0
        omega
      · have hne : b.toNat ≠ 0 := UInt8.toNat_inj.not.mpr hb
        rw [if_pos hb]
        refine iff_of_true ?_ (by omega)
        simp

theorem isTrue_iff (bs : Bytes) : isTrue bs = true ↔ value bs ≠ 0 := by
  rcases List.eq_nil_or_concat' bs with rfl | ⟨init, last, rfl⟩
  · exact iff_of_false (by decide) (not_not.mpr rfl)
  · rw [isTrue_concat, ← natAbs_value_concat, Int.natAbs_ne_zero]

/-! ## Within a word -/

/-- The bytes of a number put at their places in a word of 64 bits. -/
def gathered (bs : Bytes) : UInt64 :=
  bs.zipIdx.foldl (fun word p => word ||| p.1.toUInt64 <<< UInt64.ofNat (8 * p.2)) 0

/-- The number that a byte string stands for, made in a word of 64 bits: the bytes are put at
their places, and with the sign set its bit is masked out and the rest negated. -/
def valueInWord (bs : Bytes) : Int64 :=
  match bs.getLast? with
  | none => 0
  | some last =>
      if last &&& 0x80 ≠ 0 then
        -(gathered bs &&& ~~~(0x80 <<< UInt64.ofNat (8 * (bs.length - 1)))).toInt64
      else (gathered bs).toInt64

theorem toNat_shiftLeft_byte {n : Nat} (hn : n < 8) {word : UInt64} (hword : word.toNat < 256) :
    (word <<< UInt64.ofNat (8 * n)).toNat = 256 ^ n * word.toNat := by
  have hshift : (UInt64.ofNat (8 * n)).toNat % 64 = 8 * n := by
    rw [UInt64.toNat_ofNat']
    omega
  have hlt : word.toNat * 2 ^ (8 * n) < 2 ^ 64 := by
    calc word.toNat * 2 ^ (8 * n) < 2 ^ 8 * 2 ^ (8 * n) :=
          Nat.mul_lt_mul_of_pos_right hword (Nat.two_pow_pos _)
      _ = 2 ^ (8 + 8 * n) := (pow_add 2 8 (8 * n)).symm
      _ ≤ 2 ^ 64 := Nat.pow_le_pow_right (by decide) (by omega)
  rw [UInt64.toNat_shiftLeft, hshift, Nat.shiftLeft_eq, Nat.mod_eq_of_lt hlt, pow_256, Nat.mul_comm]

/-- No byte leaves the word. -/
theorem toNat_gathered {bs : Bytes} (h : bs.length ≤ 8) : (gathered bs).toNat = toNatLE bs := by
  induction bs using List.reverseRecOn with
  | nil => rfl
  | append_singleton init last ih =>
      rw [List.length_append, List.length_singleton] at h
      have hinit := toNatLE_lt init
      have hstep : gathered (init ++ [last]) =
          gathered init ||| last.toUInt64 <<< UInt64.ofNat (8 * init.length) := by
        rw [gathered, List.zipIdx_append, List.foldl_append, Nat.zero_add]
        rfl
      rw [hstep, UInt64.toNat_or, ih (by omega),
        toNat_shiftLeft_byte (by omega) (by exact last.toNat_lt), toNatLE_concat, Nat.or_comm]
      rw [pow_256] at hinit ⊢
      rw [← Nat.two_pow_add_eq_or_of_lt hinit, Nat.add_comm]
      rfl

/-- Masking out a bit above a number leaves the number. -/
theorem and_not_bit {n bit : Nat} (hn : n < 2 ^ bit) (hbit : bit < 64) :
    (2 ^ bit + n) &&& (2 ^ 64 - 1 - 2 ^ bit) = n := by
  have hlt : 2 ^ bit < 2 ^ 64 := Nat.pow_lt_pow_right (by decide) hbit
  have hor := Nat.two_pow_add_eq_or_of_lt hn 1
  rw [Nat.mul_one] at hor
  apply Nat.eq_of_testBit_eq
  intro i
  rw [hor, show 2 ^ 64 - 1 - 2 ^ bit = 2 ^ 64 - (2 ^ bit + 1) by omega, Nat.testBit_and,
    Nat.testBit_or, Nat.testBit_two_pow, Nat.testBit_two_pow_sub_succ hlt, Nat.testBit_two_pow]
  by_cases hi : bit = i
  · subst hi
    simp [Nat.testBit_lt_two_pow hn]
  · by_cases hwide : i < 64
    · simp [hi, hwide]
    · have hle : n < 2 ^ i := Nat.lt_of_lt_of_le hn (Nat.pow_le_pow_right (by decide) (by omega))
      simp [hi, Nat.testBit_lt_two_pow hle]

theorem toInt_toInt64 {word : UInt64} (h : word.toNat < 2 ^ 63) :
    word.toInt64.toInt = word.toNat := by
  rw [← Int64.toInt_toBitVec, UInt64.toBitVec_toInt64]
  refine BitVec.toInt_eq_toNat_of_lt ?_
  change 2 * word.toNat < 2 ^ 64
  omega

theorem toNat_signMask {n : Nat} (hn : n < 8) :
    ((0x80 : UInt64) <<< UInt64.ofNat (8 * n)).toNat = 2 ^ (8 * n + 7) := by
  rw [toNat_shiftLeft_byte hn (by decide), pow_256, pow_add]
  rfl

theorem toInt_neg_toInt64 {word : UInt64} (h : word.toNat < 2 ^ 63) :
    (-word.toInt64).toInt = -(word.toNat : Int) := by
  rw [Int64.toInt_neg, toInt_toInt64 h]
  exact Int.bmod_eq_of_le (by omega) (by omega)

/-- In a word of 64 bits a number of eight bytes at most is made without loss, the one with the
sign in the top bit of the word as well. -/
theorem toInt_valueInWord {bs : Bytes} (h : bs.length ≤ 8) : (valueInWord bs).toInt = value bs := by
  rcases List.eq_nil_or_concat' bs with rfl | ⟨init, last, rfl⟩
  · rfl
  have hlength : (init ++ [last]).length = init.length + 1 := by simp
  have hplace : init.length < 8 := by omega
  have hpow : 128 * 256 ^ init.length = 2 ^ (8 * init.length + 7) := by
    rw [pow_256, pow_add, Nat.mul_comm]
    rfl
  have hsize : size init last < 2 ^ (8 * init.length + 7) := hpow ▸ size_lt init last
  have hbound : 2 ^ (8 * init.length + 7) ≤ 2 ^ 63 :=
    Nat.pow_le_pow_right (by decide) (by omega)
  have hgathered : (gathered (init ++ [last])).toNat =
      size init last + if 0x80 ≤ last then 2 ^ (8 * init.length + 7) else 0 := by
    rw [toNat_gathered h, toNatLE_concat_sign, hpow]
  rw [valueInWord, List.getLast?_concat, hlength, Nat.add_sub_cancel, value_concat]
  dsimp only
  by_cases hsign : 0x80 ≤ last
  · rw [if_pos hsign, Nat.add_comm] at hgathered
    have hrest : (gathered (init ++ [last]) &&&
        ~~~(0x80 <<< UInt64.ofNat (8 * init.length))).toNat = size init last := by
      rw [UInt64.toNat_and, UInt64.toNat_not, toNat_signMask hplace, hgathered]
      exact and_not_bit hsize (by omega)
    rw [if_pos (bne_iff_ne.mp ((topBit_ne_zero_iff last).mpr hsign)), if_pos hsign,
      toInt_neg_toInt64 (by omega), hrest]
  · rw [if_neg hsign, Nat.add_zero] at hgathered
    rw [if_neg (mt bne_iff_ne.mpr ((topBit_ne_zero_iff last).not.mpr hsign)), if_neg hsign,
      toInt_toInt64 (by omega), hgathered]

/-! ## Reading and writing -/

theorem decode_eq_some_iff {bs : Bytes} {minimal : Bool} {width : Nat} {n : Int} :
    decode bs minimal width = some n ↔
      bs.length ≤ width ∧ (minimal = true → isMinimal bs = true) ∧ value bs = n := by
  rw [decode]
  by_cases hlength : bs.length > width
  · rw [if_pos hlength]
    exact iff_of_false (by simp) (fun h => absurd h.1 (by omega))
  rw [if_neg hlength]
  by_cases hminimal : (minimal && !isMinimal bs) = true
  · rw [if_pos hminimal]
    rw [Bool.and_eq_true, Bool.not_eq_true', ← Bool.not_eq_true] at hminimal
    exact iff_of_false (by simp) (fun h => hminimal.2 (h.2.1 hminimal.1))
  · rw [if_neg hminimal, Option.some_inj]
    have hshortest : minimal = true → isMinimal bs = true := by
      simpa using hminimal
    exact ⟨fun h => ⟨by omega, hshortest, h⟩, fun h => h.2.2⟩

theorem decode_shortest_iff {bs : Bytes} {width : Nat} (hwidth : 0 < width) {n : Int} :
    decode bs true width = some n ↔ n.natAbs ≤ 2 ^ (8 * width - 1) - 1 ∧ encode n = bs := by
  rw [decode_eq_some_iff, encode_eq_iff]
  constructor
  · rintro ⟨hlength, hminimal, rfl⟩
    exact ⟨(length_le_iff hwidth (hminimal rfl)).mp hlength, hminimal rfl, rfl⟩
  · rintro ⟨hplace, hminimal, rfl⟩
    exact ⟨(length_le_iff hwidth hminimal).mpr hplace, fun _ => hminimal, rfl⟩

theorem isSome_decode_shortest {bs : Bytes} {width : Nat} :
    (decode bs true width).isSome = true ↔ bs.length ≤ width ∧ isMinimal bs = true := by
  rw [Option.isSome_iff_exists]
  simp only [decode_eq_some_iff, forall_const, exists_and_left, exists_eq', and_true]

/-- The byte strings in shortest form that have a place in a width, and the numbers that have. -/
theorem bijOn_decode {width : Nat} (hwidth : 0 < width) :
    Set.BijOn (fun bs => decode bs true width)
      {bs | bs.length ≤ width ∧ isMinimal bs = true}
      (some '' {n : Int | n.natAbs ≤ 2 ^ (8 * width - 1) - 1}) := by
  have hsome {bs : Bytes} (h : bs.length ≤ width ∧ isMinimal bs = true) :
      decode bs true width = some (value bs) :=
    decode_eq_some_iff.mpr ⟨h.1, fun _ => h.2, rfl⟩
  refine ⟨fun bs hbs => ?_, fun bs hbs bs' hbs' heq => ?_, ?_⟩
  · exact ⟨value bs, ((decode_shortest_iff hwidth).mp (hsome hbs)).1, (hsome hbs).symm⟩
  · have hvalue : value bs = value bs' := by
      rw [← Option.some_inj, ← hsome hbs, ← hsome hbs']
      exact heq
    rw [← encode_value hbs.2, hvalue, encode_value hbs'.2]
  · rintro _ ⟨n, hn, rfl⟩
    have hdecode := (decode_shortest_iff hwidth).mpr ⟨hn, rfl⟩
    exact ⟨encode n, isSome_decode_shortest.mp (Option.isSome_iff_exists.mpr ⟨n, hdecode⟩), hdecode⟩

/-- In every width up to the word, reading in shortest form takes the byte strings in shortest
form of at most that many bytes, one for each number that has a place in them, and writing leads
back. A byte string that need not be in shortest form is written again as it was just when it is,
is true just when its number is not zero, and loses nothing within the word. -/
theorem shortest_forms_of_width {width : Nat} (hpos : 0 < width) (hle : width ≤ 8) :
    (∀ bs, (decode bs true width).isSome = true ↔ bs.length ≤ width ∧ isMinimal bs = true) ∧
    Set.BijOn (fun bs => decode bs true width)
      {bs | bs.length ≤ width ∧ isMinimal bs = true}
      (some '' {n : Int | n.natAbs ≤ 2 ^ (8 * width - 1) - 1}) ∧
    (∀ bs n, decode bs true width = some n ↔
      n.natAbs ≤ 2 ^ (8 * width - 1) - 1 ∧ encode n = bs) ∧
    ∀ bs : Bytes, bs.length ≤ width → ∃ n, decode bs false width = some n ∧
      (isMinimal bs = true ↔ encode n = bs) ∧ (isTrue bs = true ↔ n ≠ 0) ∧
      (valueInWord bs).toInt = n := by
  refine ⟨fun bs => isSome_decode_shortest, bijOn_decode hpos,
    fun bs n => decode_shortest_iff hpos, fun bs hlength => ?_⟩
  have hdecode : decode bs false width = some (value bs) :=
    decode_eq_some_iff.mpr ⟨hlength, (absurd · Bool.false_ne_true), rfl⟩
  have hminimal : isMinimal bs = true ↔ encode (value bs) = bs := by
    rw [encode_eq_iff, and_iff_left rfl]
  exact ⟨value bs, hdecode, hminimal, isTrue_iff bs, toInt_valueInWord (hlength.trans hle)⟩

/-- The smallest number of the whole word has all bits set. -/
theorem shortest_forms_of_width_eight :
    0 < 8 ∧ 8 ≤ 8 ∧ (-(2 ^ 63 - 1) : Int).natAbs ≤ 2 ^ (8 * 8 - 1) - 1 ∧
      encode (-(2 ^ 63 - 1)) = List.replicate 8 0xff := by
  refine ⟨by decide, by decide, ?_⟩
  have hread : decode (List.replicate 8 0xff) true 8 = some (-(2 ^ 63 - 1)) := by decide
  exact ((shortest_forms_of_width (by decide) (by decide)).2.2.1 _ _).mp hread

/-- Two ways of writing what is not the shortest form of zero, and the shortest. -/
example : [[0x00], [0x80], []].map isMinimal = [false, false, true] ∧
    [[0x00], [0x80], []].map value = [0, 0, 0] := by
  decide

end StakeChain.ScriptNumber
