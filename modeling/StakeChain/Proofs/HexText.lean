/-
Hexadecimal text is read back.

Each byte is written as two digits, and a digit is a character of one byte. So the bytes of
the text stand for the digits one by one, and reading takes them off in the pairs in which
they were written.
-/
import Mathlib.Data.List.Basic
import StakeChain.Bytes.Hex

namespace StakeChain.Hex

/-! ## The bytes of a text -/

theorem toList_loop (bs : ByteArray) (i : Nat) (acc : Bytes) :
    ByteArray.toList.loop bs i acc = acc.reverse ++ bs.data.toList.drop i := by
  induction i, acc using ByteArray.toList.loop.induct bs with
  | case1 i acc hlt ih =>
      have hdrop : bs.data.toList.drop i = bs.data[i] :: bs.data.toList.drop (i + 1) :=
        List.drop_eq_getElem_cons (by simpa using hlt)
      rw [ByteArray.toList.loop, if_pos hlt, ih, hdrop, List.reverse_cons, List.append_assoc]
      simp [ByteArray.get!, hlt]
  | case2 i acc hge =>
      have hdrop : bs.data.toList.drop i = [] :=
        List.drop_eq_nil_of_le (by simpa using Nat.not_lt.mp hge)
      rw [ByteArray.toList.loop, if_neg hge, hdrop, List.append_nil]

theorem toUTF8_ofList (cs : List Char) :
    (String.ofList cs).toUTF8.toList = cs.flatMap String.utf8EncodeChar := by
  rw [ByteArray.toList, toList_loop, String.toUTF8, String.toByteArray_ofList, List.utf8Encode,
    List.toList_data_toByteArray]
  rfl

/-! ## Digits -/

theorem utf8EncodeChar_digit : ∀ n < 16,
    String.utf8EncodeChar (digit n) = [UInt8.ofNat (digit n).toNat] := by
  decide

theorem digitValue_digit : ∀ n < 16,
    digitValue (UInt8.ofNat (digit n).toNat) = some (UInt8.ofNat n) := by
  decide

theorem ofNat_div_mod (b : UInt8) :
    UInt8.ofNat (b.toNat / 16) * 16 + UInt8.ofNat (b.toNat % 16) = b := by
  have hb := b.toNat_lt
  apply UInt8.toNat_inj.mp
  rw [UInt8.toNat_add, UInt8.toNat_mul, UInt8.toNat_ofNat', UInt8.toNat_ofNat']
  change (b.toNat / 16 % 256 * 16 % 256 + b.toNat % 16 % 256) % 256 = b.toNat
  omega

/-- The characters of a text are digits. -/
theorem exists_digit_of_mem {bs : Bytes} {c : Char} (h : c ∈ (encode bs).toList) :
    ∃ n < 16, c = digit n := by
  rw [encode, String.toList_ofList] at h
  obtain ⟨b, -, hc⟩ := List.mem_flatMap.mp h
  have hb := b.toNat_lt
  rw [digitsOfByte, List.mem_cons, List.mem_singleton] at hc
  rcases hc with rfl | rfl
  · exact ⟨b.toNat / 16, by omega, rfl⟩
  · exact ⟨b.toNat % 16, by omega, rfl⟩

theorem not_mem_encode {c : Char} (h : ∀ n < 16, c ≠ digit n) (bs : Bytes) :
    c ∉ (encode bs).toList := by
  intro hc
  obtain ⟨n, hn, rfl⟩ := exists_digit_of_mem hc
  exact h n hn rfl

theorem length_flatMap_two {α : Type} {f : UInt8 → List α} (h : ∀ b, (f b).length = 2)
    (bs : Bytes) : (bs.flatMap f).length = 2 * bs.length := by
  simp [List.length_flatMap, h, Nat.mul_comm]

theorem length_encode (bs : Bytes) : (encode bs).toList.length = 2 * bs.length := by
  rw [encode, String.toList_ofList]
  exact length_flatMap_two (fun _ => rfl) bs

/-! ## Reading -/

/-- The two bytes of text that a byte is written as. -/
def pair (b : UInt8) : Bytes :=
  (digitsOfByte b).map fun c => UInt8.ofNat c.toNat

theorem toUTF8_encode (bs : Bytes) : (encode bs).toUTF8.toList = bs.flatMap pair := by
  rw [encode, toUTF8_ofList, List.flatMap_assoc]
  refine congrArg (bs.flatMap ·) (funext fun b => ?_)
  have hb := b.toNat_lt
  rw [digitsOfByte, List.flatMap_cons, List.flatMap_singleton,
    utf8EncodeChar_digit _ (by omega), utf8EncodeChar_digit _ (by omega)]
  rfl

theorem decodePairs_flatMap (position : Nat) (acc bs : Bytes) :
    decodePairs position acc (bs.flatMap pair) = .ok (acc.reverse ++ bs) := by
  induction bs generalizing position acc with
  | nil => simp [decodePairs]
  | cons b bs ih =>
      have hb := b.toNat_lt
      change decodePairs position acc
        (UInt8.ofNat (digit (b.toNat / 16)).toNat :: UInt8.ofNat (digit (b.toNat % 16)).toNat ::
          bs.flatMap pair) = _
      rw [decodePairs, digitValue_digit _ (by omega), digitValue_digit _ (by omega)]
      dsimp only
      rw [ofNat_div_mod, ih, List.reverse_cons, List.append_assoc]
      rfl

/-- The text of a byte string stands for it. -/
theorem decode_encode (bs : Bytes) : decode (encode bs) = .ok bs := by
  have hlength := length_flatMap_two (f := pair) (fun _ => rfl) bs
  rw [decode, toUTF8_encode, hlength, if_neg (by omega), decodePairs_flatMap]
  rfl

end StakeChain.Hex
