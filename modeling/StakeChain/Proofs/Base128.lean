/-
Base-128 integers have one form each.

A reader that has taken some continuation bytes has come to a number, and
these bytes are the only ones that lead to it. This is the invariant of both
directions: what is written for a number leads to it, group by group, and
whatever was read so far is what is written on the way to the number reached.

The reader that runs has a bound on the number of groups. A number grows with
every group, and ten groups make it too large, so the bound is never met, and
the same is read without one. That reader works with numbers of any size. It
needs no more than the 64 bits of a word: a third one, in which every shift and
every sum has to fit them, is never at fault.
-/
import Mathlib.Order.Iterate
import StakeChain.Codec.CompactVarInt
import StakeChain.Fault
import StakeChain.Proofs.Reading

namespace StakeChain.Codec

open Stateful

/-! ## The bytes on the way to a number -/

/-- The continuation bytes after which a reader has come to this number. -/
def leading : Nat → Bytes
  | 0 => []
  | n + 1 => compactOnto n []

theorem compactOnto_eq_append (n : Nat) (acc : Bytes) :
    compactOnto n acc = compactOnto n [] ++ acc := by
  induction n using Nat.strongRecOn generalizing acc with
  | ind n ih =>
      unfold compactOnto
      split
      · rfl
      · rw [ih _ (by omega), ih _ (by omega) [_], List.append_assoc]
        rfl

/-- The last group of a number that is not below 128, and those before it. -/
theorem compactOnto_group {n : Nat} (hn : ¬ n < 128) (last : UInt8) :
    compactOnto (n / 128 - 1) [last] = leading (n / 128) ++ [last] := by
  obtain ⟨m, hm⟩ : ∃ m, n / 128 = m + 1 := ⟨n / 128 - 1, by omega⟩
  rw [hm, leading, ← compactOnto_eq_append]
  rfl

/-- One more continuation byte leads on by one group. -/
theorem leading_group (n : Nat) {low : Nat} (hlow : low < 128) :
    leading (n * 128 + low + 1) = leading n ++ [UInt8.ofNat (low + 128)] := by
  have hmod : (n * 128 + low) % 128 = low := by omega
  have hdiv : (n * 128 + low) / 128 = n := by omega
  rw [leading, compactOnto]
  split
  · next h =>
      obtain rfl : n = 0 := by omega
      rw [Nat.zero_mul, Nat.zero_add]
      rfl
  · next h => rw [compactOnto_group h, hdiv, hmod]

/-- The last byte of a form, and those that lead to it. -/
theorem compactVarInt_group (n : Nat) {low : Nat} (hlow : low < 128) :
    compactVarInt (n * 128 + low) = leading n ++ [UInt8.ofNat low] := by
  have hmod : (n * 128 + low) % 128 = low := by omega
  have hdiv : (n * 128 + low) / 128 = n := by omega
  rw [compactVarInt]
  split
  · next h =>
      obtain rfl : n = 0 := by omega
      rw [Nat.zero_mul, Nat.zero_add]
      rfl
  · next h => rw [compactOnto_group h, hdiv, hmod]

theorem compactVarInt_eq (n : Nat) :
    compactVarInt n = leading (n / 128) ++ [UInt8.ofNat (n % 128)] := by
  have hform := compactVarInt_group (n / 128) (Nat.mod_lt n (by decide : 128 > 0))
  rwa [show n / 128 * 128 + n % 128 = n by omega] at hform

/-- Numbers are reached group by group. -/
theorem leading_induction {motive : Nat → Prop} (zero : motive 0)
    (group : ∀ n low, low < 128 → motive n → motive (n * 128 + low + 1)) (n : Nat) : motive n := by
  induction n using Nat.strongRecOn with
  | ind n ih =>
      cases n with
      | zero => exact zero
      | succ n =>
          have h := group (n / 128) (n % 128) (by omega) (ih _ (by omega))
          rwa [show n / 128 * 128 + n % 128 = n by omega] at h

theorem length_leading_le {n width : Nat} (h : n < 128 ^ width) : (leading n).length ≤ width := by
  induction n using leading_induction generalizing width with
  | zero => exact Nat.zero_le _
  | group n low hlow ih =>
      cases width with
      | zero =>
          rw [pow_zero] at h
          omega
      | succ width =>
          rw [pow_succ] at h
          have hlead : (leading n).length ≤ width := ih (by omega)
          rw [leading_group n hlow, List.length_append]
          exact Nat.succ_le_succ hlead

/-- A number of 64 bits takes ten bytes at most. -/
theorem length_compactVarInt_le {n : Nat} (h : n ≤ maxUInt64) : (compactVarInt n).length ≤ 10 := by
  rw [maxUInt64] at h
  have hlead : (leading (n / 128)).length ≤ 9 := length_leading_le (by omega)
  rw [compactVarInt_eq, List.length_append]
  exact Nat.succ_le_succ hlead

example : (compactVarInt maxUInt64).length = 10 := by cbv

/-! ## Reading without a bound on the groups -/

/-- Reads groups onto a number already read, as many as there are. -/
def groups (g : Format) : (consumed n : Nat) → Bytes → EStateM.Result Error Stream Nat
  | consumed, _, [] => .error .endOfStream ⟨g, consumed, []⟩
  | consumed, n, b :: rest =>
      if n > maxUInt64 / 128 then .error .compactVarIntOverflow ⟨g, consumed + 1, rest⟩
      else if b.toNat < 128 then .ok (n * 128 + b.toNat % 128) ⟨g, consumed + 1, rest⟩
      else if n * 128 + b.toNat % 128 = maxUInt64 then
        .error .compactVarIntOverflow ⟨g, consumed + 1, rest⟩
      else groups g (consumed + 1) (n * 128 + b.toNat % 128 + 1) rest

/-- A group that is put in after the test for it does not make a number too large. -/
theorem group_le {n low : Nat} (hfits : ¬ n > maxUInt64 / 128) (hlow : low < 128) :
    n * 128 + low ≤ maxUInt64 := by
  rw [maxUInt64] at hfits ⊢
  omega

/-- The smallest number that one more continuation byte leads to. -/
def leastNext (n : Nat) : Nat :=
  n * 128 + 1

theorem monotone_leastNext : Monotone leastNext := by
  intro m n h
  rw [leastNext, leastNext]
  omega

/-- A bound on the groups is never met if so many of them make the smallest number too large. -/
theorem compactOnto_eq_groups {fuel n : Nat} (h : maxUInt64 / 128 < leastNext^[fuel] n)
    (g : Format) (consumed : Nat) (bs : Bytes) :
    Read.compactOnto (fuel + 1) n ⟨g, consumed, bs⟩ = groups g consumed n bs := by
  induction fuel generalizing n consumed bs with
  | zero =>
      cases bs with
      | nil => rfl
      | cons b rest =>
          have hbyte : Read.byte ⟨g, consumed, b :: rest⟩ = .ok b ⟨g, consumed + 1, rest⟩ := rfl
          rw [Read.compactOnto, bind_of_ok hbyte, groups]
          split
          · rfl
          · next hfits => exact absurd h hfits
  | succ fuel ih =>
      cases bs with
      | nil => rfl
      | cons b rest =>
          have hbyte : Read.byte ⟨g, consumed, b :: rest⟩ = .ok b ⟨g, consumed + 1, rest⟩ := rfl
          rw [Read.compactOnto, bind_of_ok hbyte, groups]
          split
          · rfl
          dsimp only
          split
          · rfl
          split
          · rfl
          refine ih ?_ (consumed + 1) rest
          rw [Function.iterate_succ_apply] at h
          refine Nat.lt_of_lt_of_le h (monotone_leastNext.iterate fuel ?_)
          rw [leastNext]
          omega

theorem read_eq_groups (g : Format) (consumed : Nat) (bs : Bytes) :
    Read.compactVarInt ⟨g, consumed, bs⟩ = groups g consumed 0 bs :=
  compactOnto_eq_groups (by decide) g consumed bs

/-! ## What is read is what was written -/

/-- The bytes that lead to a number are read up to it. -/
theorem groups_leading (g : Format) (consumed : Nat) (bs : Bytes) {n : Nat} (h : n ≤ maxUInt64) :
    groups g consumed 0 (leading n ++ bs) =
      groups g (consumed + (leading n).length) n bs := by
  induction n using leading_induction generalizing bs with
  | zero => rfl
  | group n low hlow ih =>
      have hbyte : (UInt8.ofNat (low + 128)).toNat = low + 128 := by
        rw [UInt8.toNat_ofNat']
        omega
      have hmod : (low + 128) % 128 = low := by omega
      rw [maxUInt64] at h
      rw [leading_group n hlow, List.append_assoc, ih _ (by rw [maxUInt64]; omega),
        List.singleton_append, groups, hbyte, hmod, maxUInt64, if_neg (by omega),
        if_neg (by omega), if_neg (by omega), List.length_append]
      rfl

/-- What was read is the end of the form of the number, after what had led to it before. -/
theorem form_of_groups {g : Format} {consumed n a : Nat} {bs : Bytes} {t : Stream}
    (h : groups g consumed n bs = .ok a t) :
    a ≤ maxUInt64 ∧ ∃ head, compactVarInt a = leading n ++ head ∧
      Stream.Passes ⟨g, consumed, bs⟩ head t := by
  induction bs generalizing consumed n with
  | nil => cases h
  | cons b rest ih =>
      rw [groups] at h
      split at h
      · cases h
      next hfits =>
      split at h
      · next hlast =>
          cases h
          have hform := compactVarInt_group n (Nat.mod_lt b.toNat (by decide : 128 > 0))
          rw [Nat.mod_eq_of_lt hlast, UInt8.ofNat_toNat] at hform
          rw [Nat.mod_eq_of_lt hlast]
          exact ⟨group_le hfits hlast, [b], hform, rfl, rfl, rfl⟩
      next hmore =>
      split at h
      · cases h
      obtain ⟨ha, head, hform, hrest, hformat, hconsumed⟩ := ih h
      have hconsumed : t.consumed = consumed + 1 + head.length := hconsumed
      have hbyte : UInt8.ofNat (b.toNat % 128 + 128) = b := by
        have hb := b.toNat_lt
        rw [← UInt8.toNat_inj, UInt8.toNat_ofNat']
        omega
      rw [leading_group n (Nat.mod_lt _ (by decide)), hbyte, List.append_assoc] at hform
      refine ⟨ha, b :: head, hform, congrArg (b :: ·) hrest, hformat, ?_⟩
      change t.consumed = consumed + (head.length + 1)
      omega

/-- A reading that gives no number comes to the end of the stream or to a number too large. -/
theorem groups_cases (g : Format) (consumed n : Nat) (bs : Bytes) :
    (∃ a t, groups g consumed n bs = .ok a t) ∨
      (∃ t, groups g consumed n bs = .error .endOfStream t) ∨
      ∃ t, groups g consumed n bs = .error .compactVarIntOverflow t := by
  induction bs generalizing consumed n with
  | nil => exact .inr (.inl ⟨_, rfl⟩)
  | cons b rest ih =>
      rw [groups]
      split
      · exact .inr (.inr ⟨_, rfl⟩)
      split
      · exact .inl ⟨_, _, rfl⟩
      split
      · exact .inr (.inr ⟨_, rfl⟩)
      · exact ih _ _

theorem Read.Exact.compactVarInt :
    Read.compactVarInt.Exact (fun _ n => n ≤ maxUInt64) (fun _ n => Codec.compactVarInt n) where
  read_eq_ok := by
    rintro ⟨g, consumed, bs⟩ n ⟨g', consumed', bs'⟩
    rw [read_eq_groups]
    constructor
    · intro h
      obtain ⟨hn, head, hform, hpasses⟩ := form_of_groups h
      obtain rfl : Codec.compactVarInt n = head := hform
      exact ⟨hn, hpasses⟩
    · rintro ⟨hn, hrest, hformat, hconsumed⟩
      obtain rfl : g' = g := hformat
      obtain rfl : bs = Codec.compactVarInt n ++ bs' := hrest
      obtain rfl : consumed' = consumed + (Codec.compactVarInt n).length := hconsumed
      have hbyte : (UInt8.ofNat (n % 128)).toNat = n % 128 := by
        rw [UInt8.toNat_ofNat']
        omega
      rw [maxUInt64] at hn
      rw [compactVarInt_eq, List.append_assoc, groups_leading _ _ _ (by rw [maxUInt64]; omega),
        List.singleton_append, groups, hbyte, maxUInt64, if_neg (by omega), if_pos (by omega),
        Nat.mod_mod, show n / 128 * 128 + n % 128 = n by omega, List.length_append]
      rfl

instance : ExactWire CompactVarInt where
  fits _ _ := True
  reads := by
    refine Read.Exact.compactVarInt.map (fun v : CompactVarInt => v.value.toNat) (fun {_ n} h => ?_)
      (fun {_ v} _ => ?_)
    · refine ⟨trivial, UInt64.toNat_ofNat_of_lt' ?_⟩
      exact Nat.lt_succ_of_le h
    · refine ⟨Nat.le_of_lt_succ v.value.toNat_lt, ?_⟩
      exact congrArg CompactVarInt.mk UInt64.ofNat_toNat

/-! ## Within a word -/

/-- Reads groups with every result held against the width of a word: the number shifted by a
group, the group put in, and the next number. -/
def groupsInWords (g : Format) :
    (consumed n : Nat) → Bytes → Except Fault (EStateM.Result Error Stream Nat)
  | consumed, _, [] => .ok (.error .endOfStream ⟨g, consumed, []⟩)
  | consumed, n, b :: rest =>
      if n > maxUInt64 / 128 then .ok (.error .compactVarIntOverflow ⟨g, consumed + 1, rest⟩)
      else do
        let shifted ← fitWord 64 (n * 128)
        let n ← fitWord 64 (shifted + b.toNat % 128)
        if b.toNat < 128 then .ok (.ok n ⟨g, consumed + 1, rest⟩)
        else if n = maxUInt64 then .ok (.error .compactVarIntOverflow ⟨g, consumed + 1, rest⟩)
        else groupsInWords g (consumed + 1) (← fitWord 64 (n + 1)) rest

theorem fitWord_of_le {n : Nat} (h : n ≤ maxUInt64) : fitWord 64 n = .ok n :=
  if_pos (Nat.lt_succ_of_le h)

/-- No shift and no sum leaves the word. -/
theorem groupsInWords_eq (g : Format) (consumed n : Nat) (bs : Bytes) :
    groupsInWords g consumed n bs = .ok (groups g consumed n bs) := by
  induction bs generalizing consumed n with
  | nil => rfl
  | cons b rest ih =>
      rw [groupsInWords, groups]
      split
      · rfl
      next hfits =>
      have hgroup : n * 128 + b.toNat % 128 ≤ maxUInt64 :=
        group_le hfits (Nat.mod_lt _ (by decide))
      rw [fitWord_of_le (n := n * 128) (by omega)]
      change (fitWord 64 (n * 128 + b.toNat % 128) >>= _) = _
      rw [fitWord_of_le hgroup]
      change (if b.toNat < 128 then _ else _) = _
      split
      · rfl
      split
      · rfl
      next hlast =>
      rw [fitWord_of_le (by omega)]
      exact ih _ _

/-- Base-128 integers and the numbers of 64 bits belong to each other one by one. What is written
takes ten bytes at most and is read back, whatever follows. A stream that a number is read from
starts with what is written for it, and that is what was taken; from every other stream the reader
gives one of two errors. No result on the way leaves 64 bits. -/
theorem base128_one_to_one (g : Format) (consumed : Nat) :
    (∀ v : CompactVarInt, (Codec.write g v).length ≤ 10 ∧
      ∀ rest, (Codec.read : Read CompactVarInt) ⟨g, consumed, Codec.write g v ++ rest⟩ =
        .ok v ⟨g, consumed + (Codec.write g v).length, rest⟩) ∧
    (∀ bs (v : CompactVarInt) t, Codec.read ⟨g, consumed, bs⟩ = .ok v t ↔
      Stream.Passes ⟨g, consumed, bs⟩ (Codec.write g v) t) ∧
    (∀ bs, (∃ (v : CompactVarInt) (t : Stream), Codec.read ⟨g, consumed, bs⟩ = .ok v t) ∨
      (∃ t, (Codec.read : Read CompactVarInt) ⟨g, consumed, bs⟩ = .error .endOfStream t) ∨
      ∃ t, (Codec.read : Read CompactVarInt) ⟨g, consumed, bs⟩ =
        .error .compactVarIntOverflow t) ∧
    ∀ bs, groupsInWords g consumed 0 bs = .ok (Read.compactVarInt ⟨g, consumed, bs⟩) := by
  refine ⟨fun v => ⟨?_, fun rest => ?_⟩, fun bs v t => ?_, fun bs => ?_, fun bs => ?_⟩
  · exact length_compactVarInt_le (Nat.le_of_lt_succ v.value.toNat_lt)
  · exact (reads (α := CompactVarInt)).read_of_append trivial consumed rest
  · exact reads.read_eq_ok.trans (and_iff_right trivial)
  · have hread : (Codec.read : Read CompactVarInt) ⟨g, consumed, bs⟩ =
        ((CompactVarInt.mk ∘ UInt64.ofNat) <$> Read.compactVarInt) ⟨g, consumed, bs⟩ := rfl
    rw [hread]
    simp only [Functor.map, EStateM.map, read_eq_groups]
    rcases groups_cases g consumed 0 bs with ⟨a, t, h⟩ | ⟨t, h⟩ | ⟨t, h⟩
    · exact .inl ⟨_, t, by rw [h]⟩
    · exact .inr (.inl ⟨t, by rw [h]⟩)
    · exact .inr (.inr ⟨t, by rw [h]⟩)
  · rw [groupsInWords_eq, read_eq_groups]

end StakeChain.Codec
