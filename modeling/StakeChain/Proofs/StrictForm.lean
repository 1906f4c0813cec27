/-
The strict form of signatures.

The form is a mark, the length of what follows, two numbers, each after a mark
and its length, and one byte of hash type. The numbers are the shortest signed
forms of numbers that are not negative. The lengths are bytes of the signature
itself, so reading it by positions goes where those bytes point. Each length is
held against the length of the whole before anything is read behind it, and a
digit is looked at only if the length of its number says that it is there. So
no read leaves the signature, and what is found is what taking the bytes apart
from the front finds.
-/
import StakeChain.Fault
import StakeChain.Key.Encoding
import StakeChain.Proofs.Numerals

namespace StakeChain

/-! ## Signed numbers -/

namespace Bytes

/-- The number whose two's complement, most significant byte first, the bytes are. -/
def signedBE : Bytes → Int
  | [] => 0
  | b :: rest =>
      if b < 0x80 then toNatBE (b :: rest)
      else (toNatBE (b :: rest) : Int) - 256 ^ (b :: rest).length

theorem signedBE_of_lt {b : UInt8} (h : b < 0x80) (rest : Bytes) :
    signedBE (b :: rest) = toNatBE (b :: rest) :=
  if_pos h

/-- With the top bit set a number is below zero. -/
theorem signedBE_neg {b : UInt8} (h : ¬ b < 0x80) (rest : Bytes) : signedBE (b :: rest) < 0 := by
  have hlt : ((toNatBE (b :: rest) : Nat) : Int) < (256 ^ (b :: rest).length : Nat) :=
    Int.ofNat_lt.mpr (toNatBE_lt (b :: rest))
  rw [signedBE, if_neg h]
  push_cast at hlt
  omega

/-- The first byte of a number that is not below zero, and its digits. -/
theorem lt_of_signedBE_eq {b : UInt8} {rest : Bytes} {n : Nat} (h : signedBE (b :: rest) = n) :
    b < 0x80 ∧ toNatBE (b :: rest) = n := by
  by_cases hb : b < 0x80
  · rw [signedBE_of_lt hb] at h
    exact ⟨hb, Int.ofNat_inj.mp h⟩
  · have hneg := signedBE_neg hb rest
    omega

/-- A number that is not below zero keeps the top bit free. -/
theorem toNatBE_lt_of_lt {b : UInt8} (h : b < 0x80) (rest : Bytes) :
    toNatBE (b :: rest) < 128 * 256 ^ rest.length := by
  have hb : b.toNat ≤ 127 := Nat.le_of_lt_succ (UInt8.lt_iff_toNat_lt.mp h)
  have hrest := toNatBE_lt rest
  have hfirst : b.toNat * 256 ^ rest.length ≤ 127 * 256 ^ rest.length :=
    Nat.mul_le_mul_right _ hb
  rw [toNatBE_cons]
  omega

theorem forall_byte {p : UInt8 → Prop} (h : ∀ n : Fin 256, p (UInt8.ofFin n)) (b : UInt8) : p b :=
  h b.toFin

end Bytes

namespace Key

open Bytes (signedBE toNatBE)

/-! ## The shortest form of a number -/

/-- The bytes are a signed form of the number, and none is shorter. -/
structure IsShortestForm (n : Nat) (bs : Bytes) : Prop where
  ne_nil : bs ≠ []
  value : signedBE bs = n
  shortest : ∀ cs, cs ≠ [] → signedBE cs = n → bs.length ≤ cs.length

/-- Without a superfluous zero a number does not fit fewer bytes. -/
theorem le_of_isShortestNatural {a b : UInt8} {rest : Bytes}
    (h : isShortestNatural (a :: b :: rest) = true) :
    128 * 256 ^ rest.length ≤ toNatBE (a :: b :: rest) := by
  rw [isShortestNatural, Bool.and_eq_true, Bool.or_eq_true, bne_iff_ne, decide_eq_true_eq,
    decide_eq_true_eq] at h
  rw [Bytes.toNatBE_cons, Bytes.toNatBE_cons, List.length_cons, pow_succ]
  rcases h.2 with ha | hb
  · have ha : 1 ≤ a.toNat := Nat.one_le_iff_ne_zero.mpr fun h0 => ha (UInt8.toNat_inj.mp h0)
    have hfirst : 1 * (256 ^ rest.length * 256) ≤ a.toNat * (256 ^ rest.length * 256) :=
      Nat.mul_le_mul_right _ ha
    omega
  · have hb : 128 ≤ b.toNat := UInt8.le_iff_toNat_le.mp hb
    have hsecond : 128 * 256 ^ rest.length ≤ b.toNat * 256 ^ rest.length :=
      Nat.mul_le_mul_right _ hb
    omega

theorem isShortestForm_of_isShortestNatural {bs : Bytes} (h : isShortestNatural bs = true) :
    IsShortestForm (toNatBE bs) bs := by
  cases bs with
  | nil => cases h
  | cons a rest =>
      have ha : a < 0x80 := by
        cases rest with
        | nil => exact of_decide_eq_true h
        | cons b rest => exact of_decide_eq_true (Bool.and_eq_true_iff.mp h).1
      refine ⟨List.cons_ne_nil _ _, Bytes.signedBE_of_lt ha rest, ?_⟩
      intro cs hne hvalue
      cases cs with
      | nil => exact absurd rfl hne
      | cons c cs =>
          cases rest with
          | nil => exact Nat.succ_le_succ (Nat.zero_le _)
          | cons b rest =>
              obtain ⟨hc, hsame⟩ := Bytes.lt_of_signedBE_eq hvalue
              have hlow := le_of_isShortestNatural h
              have hhigh := Bytes.toNatBE_lt_of_lt hc cs
              rw [hsame] at hhigh
              have hlength : rest.length < cs.length :=
                (Nat.pow_lt_pow_iff_right (by decide : 1 < 256)).mp (by omega)
              exact Nat.succ_le_succ hlength

theorem isShortestForm_iff {n : Nat} {bs : Bytes} :
    IsShortestForm n bs ↔ isShortestNatural bs = true ∧ toNatBE bs = n := by
  constructor
  · rintro ⟨hne, hvalue, hshortest⟩
    cases bs with
    | nil => exact absurd rfl hne
    | cons a rest =>
        obtain ⟨ha, hn⟩ := Bytes.lt_of_signedBE_eq hvalue
        refine ⟨?_, hn⟩
        cases rest with
        | nil => exact decide_eq_true ha
        | cons b rest =>
            rw [isShortestNatural, Bool.and_eq_true, Bool.or_eq_true, bne_iff_ne,
              decide_eq_true_eq, decide_eq_true_eq]
            refine ⟨ha, or_iff_not_imp_left.mpr fun hzero => ?_⟩
            -- with the zero gone the rest would be a shorter form
            by_contra hb
            have ha0 : a = 0 := not_not.mp hzero
            have hrest : signedBE (b :: rest) = n := by
              rw [Bytes.signedBE_of_lt (UInt8.not_le.mp hb), ← hn, ha0, Bytes.toNatBE_cons 0]
              simp
            exact absurd (hshortest _ (List.cons_ne_nil _ _) hrest) (Nat.not_succ_le_self _)
  · rintro ⟨hshortest, rfl⟩
    exact isShortestForm_of_isShortestNatural hshortest

/-! ## Taking a signature apart -/

theorem exists_head {sig : Bytes} (h : 9 ≤ sig.length) :
    ∃ kind total kindR lengthR rest, sig = kind :: total :: kindR :: lengthR :: rest := by
  match sig, h with
  | kind :: total :: kindR :: lengthR :: rest, _ => exact ⟨kind, total, kindR, lengthR, rest, rfl⟩

/-- What is asked of the bytes after the length of the first number. -/
def holdsNumbers (lengthR : UInt8) (rest : Bytes) : Bool :=
  match rest.drop lengthR.toNat with
  | kindS :: lengthS :: tail =>
      kindS == 0x02 && tail.length == lengthS.toNat + 1
        && isShortestNatural (rest.take lengthR.toNat)
        && isShortestNatural (tail.take lengthS.toNat)
  | _ => false

theorem isStrictSignature_cons (kind total kindR lengthR : UInt8) (rest : Bytes) :
    isStrictSignature (kind :: total :: kindR :: lengthR :: rest) =
      (decide (9 ≤ rest.length + 4) && decide (rest.length + 4 ≤ 73) &&
        (kind == 0x30 && total.toNat == rest.length + 4 - 3 && kindR == 0x02 &&
          holdsNumbers lengthR rest)) :=
  rfl

theorem holdsNumbers_append {lengthR kindS lengthS : UInt8} {r tail : Bytes}
    (hr : r.length = lengthR.toNat) :
    holdsNumbers lengthR (r ++ kindS :: lengthS :: tail) =
      (kindS == 0x02 && tail.length == lengthS.toNat + 1 && isShortestNatural r &&
        isShortestNatural (tail.take lengthS.toNat)) := by
  rw [holdsNumbers, List.drop_left' hr, List.take_left' hr]

theorem holdsNumbers_of_lt {lengthR : UInt8} {rest : Bytes}
    (h : rest.length < lengthR.toNat + 2) : holdsNumbers lengthR rest = false := by
  have hdrop : (rest.drop lengthR.toNat).length < 2 := by
    rw [List.length_drop]
    omega
  rw [holdsNumbers]
  split
  · next heq =>
      rw [heq, List.length_cons, List.length_cons] at hdrop
      omega
  · rfl

/-- Where there are enough bytes, so many come first, and two more follow. -/
theorem exists_digits {n : Nat} {rest : Bytes} (h : n + 2 ≤ rest.length) :
    ∃ digits kind length tail, digits.length = n ∧ rest = digits ++ kind :: length :: tail := by
  have hlength : (rest.drop n).length = rest.length - n := List.length_drop
  have hrest := List.take_append_drop n rest
  cases hdrop : rest.drop n with
  | nil =>
      rw [hdrop, List.length_nil] at hlength
      omega
  | cons kind tail =>
      cases tail with
      | nil =>
          rw [hdrop, List.length_singleton] at hlength
          omega
      | cons length tail =>
          rw [hdrop] at hrest
          exact ⟨rest.take n, kind, length, tail, List.length_take_of_le (by omega), hrest.symm⟩

theorem exists_last {n : Nat} {tail : Bytes} (h : tail.length = n + 1) :
    ∃ digits last, digits.length = n ∧ tail = digits ++ [last] := by
  have hne : tail ≠ [] := List.ne_nil_of_length_eq_add_one h
  refine ⟨tail.dropLast, tail.getLast hne, ?_, (List.dropLast_concat_getLast hne).symm⟩
  rw [List.length_dropLast, h, Nat.add_sub_cancel]

/-! ## Reading by positions -/

/-- The byte at a position. -/
def byteAt (bs : Bytes) (i : Nat) : Except Fault UInt8 :=
  match bs[i]? with
  | some b => .ok b
  | none => .error .outOfRange

/-- Whether there is a number at a position: its mark, its length, and as many bytes. -/
def numberAt (sig : Bytes) (start length : Nat) : Except Fault Bool := do
  let kind ← byteAt sig start
  if kind ≠ 0x02 ∨ length = 0 then pure false
  else
    let first ← byteAt sig (start + 2)
    if first &&& 0x80 ≠ 0 then pure false
    else if 1 < length ∧ first = 0 then
      let second ← byteAt sig (start + 3)
      pure (second &&& 0x80 != 0)
    else pure true

/-- Whether the two numbers and a hash type are what is left, by the length of the first. -/
def numbersAt (sig : Bytes) (lengthR : Nat) : Except Fault Bool := do
  if sig.length ≤ 5 + lengthR then pure false
  else
    let lengthS ← byteAt sig (5 + lengthR)
    if lengthR + lengthS.toNat + 7 ≠ sig.length then pure false
    else if ← numberAt sig 2 lengthR then numberAt sig (lengthR + 4) lengthS.toNat
    else pure false

/-- The strict form by positions, each one read when the tests before it have passed. -/
def strictByPosition (sig : Bytes) : Except Fault Bool := do
  if sig.length < 9 ∨ 73 < sig.length then pure false
  else
    let kind ← byteAt sig 0
    if kind ≠ 0x30 then pure false
    else
      let total ← byteAt sig 1
      if total.toNat ≠ sig.length - 3 then pure false
      else
        let lengthR ← byteAt sig 3
        numbersAt sig lengthR.toNat

theorem byteAt_shift (pre rest : Bytes) (i : Nat) :
    byteAt (pre ++ rest) (pre.length + i) = byteAt rest i := by
  rw [byteAt, byteAt, List.getElem?_append_right (Nat.le_add_right _ _), Nat.add_sub_cancel_left]

/-- The top bit of a byte. -/
theorem and_topBit_eq_zero (b : UInt8) : b &&& 0x80 = 0 ↔ b < 0x80 := by
  revert b
  refine Bytes.forall_byte ?_
  decide +kernel

theorem numberAt_eq (pre : Bytes) (kind length : UInt8) (digits rest : Bytes) :
    numberAt (pre ++ kind :: length :: (digits ++ rest)) pre.length digits.length =
      .ok (kind == 0x02 && isShortestNatural digits) := by
  have hkind : byteAt (pre ++ kind :: length :: (digits ++ rest)) pre.length = .ok kind :=
    byteAt_shift pre _ 0
  have hfirst : byteAt (pre ++ kind :: length :: (digits ++ rest)) (pre.length + 2) =
      byteAt (digits ++ rest) 0 := byteAt_shift pre _ 2
  have hsecond : byteAt (pre ++ kind :: length :: (digits ++ rest)) (pre.length + 3) =
      byteAt (digits ++ rest) 1 := byteAt_shift pre _ 3
  rw [numberAt, hkind, hfirst, hsecond]
  cases digits with
  | nil =>
      rw [isShortestNatural, Bool.and_false]
      exact if_pos (.inr rfl)
  | cons a digits =>
      cases digits with
      | nil =>
          change (if kind ≠ 0x02 ∨ 1 = 0 then Except.ok false
            else if a &&& 0x80 ≠ 0 then Except.ok false
            else if 1 < 1 ∧ a = 0 then _ else Except.ok true) = _
          rw [isShortestNatural]
          grind [and_topBit_eq_zero]
      | cons b digits =>
          change (if kind ≠ 0x02 ∨ digits.length + 2 = 0 then Except.ok false
            else if a &&& 0x80 ≠ 0 then Except.ok false
            else if 1 < digits.length + 2 ∧ a = 0 then Except.ok (b &&& 0x80 != 0)
            else Except.ok true) = _
          rw [isShortestNatural]
          grind [and_topBit_eq_zero]

theorem numbersAt_eq (kind total kindR lengthR : UInt8) (rest : Bytes) :
    numbersAt (kind :: total :: kindR :: lengthR :: rest) lengthR.toNat =
      .ok (kindR == 0x02 && holdsNumbers lengthR rest) := by
  have hlength : (kind :: total :: kindR :: lengthR :: rest).length = rest.length + 4 := rfl
  rw [numbersAt, hlength]
  by_cases hshort : rest.length < lengthR.toNat + 2
  · rw [if_pos (by omega), holdsNumbers_of_lt hshort, Bool.and_false]
    rfl
  obtain ⟨r, kindS, lengthS, tail, hr, rfl⟩ := exists_digits (Nat.le_of_not_lt hshort)
  rw [holdsNumbers_append hr, if_neg (by omega), ← hr]
  -- what is read of the second number stands behind the first one
  let pre := kind :: total :: kindR :: lengthR :: r
  have hpre : pre.length = r.length + 4 := rfl
  have hlengthS : byteAt (pre ++ kindS :: lengthS :: tail) (5 + r.length) = .ok lengthS := by
    rw [show 5 + r.length = pre.length + 1 by omega]
    exact byteAt_shift pre _ 1
  have hfirst : numberAt (pre ++ kindS :: lengthS :: tail) 2 r.length =
      .ok (kindR == 0x02 && isShortestNatural r) :=
    numberAt_eq [kind, total] kindR lengthR r (kindS :: lengthS :: tail)
  have hwhole : (r ++ kindS :: lengthS :: tail).length = r.length + (tail.length + 2) :=
    List.length_append
  change (byteAt (pre ++ kindS :: lengthS :: tail) (5 + r.length) >>= fun lengthS => _) = _
  rw [hlengthS]
  change (if r.length + lengthS.toNat + 7 ≠ (r ++ kindS :: lengthS :: tail).length + 4
    then Except.ok false
    else numberAt (pre ++ kindS :: lengthS :: tail) 2 r.length >>= fun b =>
      if b = true then numberAt (pre ++ kindS :: lengthS :: tail) (r.length + 4) lengthS.toNat
      else Except.ok false) = _
  by_cases hfits : tail.length = lengthS.toNat + 1
  · have hsecond : numberAt (pre ++ kindS :: lengthS :: tail) (r.length + 4) lengthS.toNat =
        .ok (kindS == 0x02 && isShortestNatural (tail.take lengthS.toNat)) := by
      have hs : (tail.take lengthS.toNat).length = lengthS.toNat :=
        List.length_take_of_le (by omega)
      have hnumber := numberAt_eq pre kindS lengthS (tail.take lengthS.toNat)
        (tail.drop lengthS.toNat)
      rwa [List.take_append_drop, hs, hpre] at hnumber
    rw [if_neg (by omega), hfirst, hsecond, hfits, beq_self_eq_true]
    change (if (kindR == 0x02 && isShortestNatural r) = true then _ else _) = _
    grind
  · rw [if_pos (by omega), beq_eq_false_iff_ne.mpr hfits]
    simp

theorem strictByPosition_eq (sig : Bytes) :
    strictByPosition sig = .ok (isStrictSignature sig) := by
  rw [strictByPosition]
  by_cases hrange : sig.length < 9 ∨ 73 < sig.length
  · rw [if_pos hrange]
    have hout : (decide (9 ≤ sig.length) && decide (sig.length ≤ 73)) = false := by grind
    change _ = Except.ok (decide (9 ≤ sig.length) && decide (sig.length ≤ 73) && _)
    rw [hout]
    rfl
  · rw [if_neg hrange]
    obtain ⟨kind, total, kindR, lengthR, rest, rfl⟩ :=
      exists_head (Nat.le_of_not_lt fun h => hrange (.inl h))
    change (if kind ≠ 0x30 then Except.ok false
      else if total.toNat ≠ rest.length + 4 - 3 then Except.ok false
      else numbersAt (kind :: total :: kindR :: lengthR :: rest) lengthR.toNat) = _
    rw [numbersAt_eq, isStrictSignature_cons]
    grind

/-! ## The grammar -/

/-- The signature of two digit strings and a hash type. -/
def strictBytes (r s : Bytes) (hashType : UInt8) : Bytes :=
  0x30 :: UInt8.ofNat (r.length + s.length + 4) :: 0x02 :: UInt8.ofNat r.length ::
    (r ++ 0x02 :: UInt8.ofNat s.length :: (s ++ [hashType]))

theorem length_strictBytes (r s : Bytes) (hashType : UInt8) :
    (strictBytes r s hashType).length = r.length + s.length + 7 := by
  rw [strictBytes]
  simp only [List.length_cons, List.length_append, List.length_nil]
  omega

/-- What passes, put together from its parts. Their lengths fit into bytes, since the whole has at
most 73. -/
theorem isStrictSignature_iff {sig : Bytes} :
    isStrictSignature sig = true ↔
      ∃ r s hashType, isShortestNatural r = true ∧ isShortestNatural s = true ∧
        sig = strictBytes r s hashType ∧ 9 ≤ sig.length ∧ sig.length ≤ 73 := by
  constructor
  · intro h
    have hmin : 9 ≤ sig.length :=
      of_decide_eq_true (Bool.and_eq_true_iff.mp (Bool.and_eq_true_iff.mp h).1).1
    obtain ⟨kind, total, kindR, lengthR, rest, rfl⟩ := exists_head hmin
    simp only [isStrictSignature_cons, Bool.and_eq_true, decide_eq_true_eq, beq_iff_eq] at h
    obtain ⟨⟨-, hmax⟩, ⟨⟨rfl, htotal⟩, rfl⟩, hholds⟩ := h
    have hlong : lengthR.toNat + 2 ≤ rest.length := by
      by_contra hshort
      rw [holdsNumbers_of_lt (Nat.lt_of_not_le hshort)] at hholds
      cases hholds
    obtain ⟨r, kindS, lengthS, tail, hr, rfl⟩ := exists_digits hlong
    simp only [holdsNumbers_append hr, Bool.and_eq_true, beq_iff_eq] at hholds
    obtain ⟨⟨⟨rfl, htail⟩, hshortestR⟩, hshortestS⟩ := hholds
    obtain ⟨s, hashType, hs, rfl⟩ := exists_last htail
    rw [List.take_left' hs] at hshortestS
    refine ⟨r, s, hashType, hshortestR, hshortestS, ?_, hmin, hmax⟩
    have htotal : total.toNat = r.length + s.length + 4 := by
      simp only [List.length_append, List.length_cons, List.length_nil] at htotal
      omega
    rw [strictBytes, hr, hs, UInt8.ofNat_toNat, UInt8.ofNat_toNat, ← hr, ← hs, ← htotal,
      UInt8.ofNat_toNat]
  · rintro ⟨r, s, hashType, hr, hs, rfl, hmin, hmax⟩
    have hlength := length_strictBytes r s hashType
    have hlengthR : r.length = (UInt8.ofNat r.length).toNat := by
      rw [UInt8.toNat_ofNat']
      omega
    have hlengthS : s.length = (UInt8.ofNat s.length).toNat := by
      rw [UInt8.toNat_ofNat']
      omega
    have htotal : (UInt8.ofNat (r.length + s.length + 4)).toNat = r.length + s.length + 4 := by
      rw [UInt8.toNat_ofNat']
      omega
    have hrest : (r ++ 0x02 :: UInt8.ofNat s.length :: (s ++ [hashType])).length + 4 =
        r.length + s.length + 7 := hlength
    rw [strictBytes]
    simp only [isStrictSignature_cons, holdsNumbers_append hlengthR, Bool.and_eq_true,
      decide_eq_true_eq, beq_iff_eq, ← hlengthS, List.take_left, hr, hs, and_true, true_and]
    exact ⟨⟨hmin, hmax⟩, by omega, List.length_append⟩

/-- A signature is in strict form exactly if it is made of two numbers that are not negative, each
in its shortest signed form, and a hash type, and is from 9 to 73 bytes long. Reading by positions
finds the same and never leaves the signature. -/
theorem strict_iff_grammar (sig : Bytes) :
    (isStrictSignature sig = true ↔
      ∃ (r s : Nat) (hashType : UInt8) (rs ss : Bytes),
        IsShortestForm r rs ∧ IsShortestForm s ss ∧
        sig = strictBytes rs ss hashType ∧ 9 ≤ sig.length ∧ sig.length ≤ 73) ∧
    strictByPosition sig = .ok (isStrictSignature sig) := by
  refine ⟨?_, strictByPosition_eq sig⟩
  rw [isStrictSignature_iff]
  constructor
  · rintro ⟨rs, ss, hashType, hr, hs, hsig⟩
    exact ⟨_, _, hashType, rs, ss, isShortestForm_of_isShortestNatural hr,
      isShortestForm_of_isShortestNatural hs, hsig⟩
  · rintro ⟨r, s, hashType, rs, ss, hr, hs, hsig⟩
    exact ⟨rs, ss, hashType, (isShortestForm_iff.mp hr).1, (isShortestForm_iff.mp hs).1, hsig⟩

end Key

end StakeChain
