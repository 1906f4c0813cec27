/-
What is left of a script when operations are cut out of it.

Operations tile the bytes of a script up to the undecodable tail, so to cut
out an operation is to leave out the bytes at its place. A code separator is
a single byte: a script without its code separators is the script without
the bytes at their offsets.
-/
import StakeChain.Script.Edit
import StakeChain.Proofs.Numerals

namespace StakeChain

/-! ## Operations and their bytes -/

namespace Op

theorem length_encode (op : Op) : op.encode.length = op.width := by
  cases op with
  | push opcode data =>
      rw [encode, width, List.length_cons, List.length_append, Bytes.length_ofNatLE]
      omega
  | code opcode => rfl
  | invalid opcode => rfl

theorem width_pos (op : Op) : 0 < op.width := by
  cases op <;> simp only [width] <;> omega

/-- The bytes after a push opcode are the announced length and what follows it. -/
theorem append_of_pushLength {opcode : UInt8} {bs rest : Bytes} {n : Nat}
    (h : pushLength opcode bs = some (n, rest)) :
    Bytes.ofNatLE (lengthWidth opcode) n ++ rest = bs := by
  simp only [pushLength] at h
  split at h
  · next hwidth =>
      cases h
      rw [hwidth]
      rfl
  · obtain ⟨⟨digits, rest'⟩, hsplit, heq⟩ := Option.map_eq_some_iff.mp h
    cases heq
    obtain ⟨hlength, hbs⟩ := Bytes.splitExact_eq_some.mp hsplit
    rw [Bytes.ofNatLE_toNatLE hlength, hbs]

/-- What is decoded is found again in the bytes. -/
theorem append_of_decode {op : Op} {bs rest : Bytes} (h : decode bs = some (op, rest))
    (hvalid : op.isValid) : op.encode ++ rest = bs := by
  cases bs with
  | nil => cases h
  | cons opcode bs =>
      rw [decode] at h
      split at h
      · cases h
        rfl
      · split at h
        · cases h
          cases hvalid
        · next n rest' hlength =>
            split at h
            · cases h
              cases hvalid
            · next data rest'' hsplit =>
                cases h
                obtain ⟨rfl, rfl⟩ := Bytes.splitExact_eq_some.mp hsplit
                rw [encode, List.cons_append, List.append_assoc, append_of_pushLength hlength]

/-- After an undecodable operation nothing is left to decode. -/
theorem eq_nil_of_decode_invalid {op : Op} {bs rest : Bytes}
    (h : decode bs = some (op, rest)) (hvalid : ¬ op.isValid) : rest = [] := by
  cases bs with
  | nil => cases h
  | cons b bs =>
      rw [decode] at h
      split at h
      · cases h
        exact absurd rfl hvalid
      · split at h
        · cases h
          rfl
        · split at h
          · cases h
            rfl
          · cases h
            exact absurd rfl hvalid

theorem eq_nil_of_decode_none {bs : Bytes} (h : decode bs = none) : bs = [] := by
  cases bs with
  | nil => rfl
  | cons b bs =>
      rw [decode] at h
      split at h
      · cases h
      · split at h
        · cases h
        · split at h <;> cases h

/-- An operation lies within the bytes that it was decoded from, and what is left lies behind
it. -/
theorem width_add_length_le {op : Op} {bs rest : Bytes} (h : decode bs = some (op, rest)) :
    op.width + rest.length ≤ bs.length := by
  cases hvalid : op.isValid with
  | true =>
      rw [← append_of_decode h hvalid, List.length_append, length_encode]
  | false =>
      have hrest : rest = [] := eq_nil_of_decode_invalid h (Bool.eq_false_iff.mp hvalid)
      have hbs : bs ≠ [] := by
        rintro rfl
        cases h
      have hwidth : op.width = 1 := by
        cases op with
        | invalid opcode => rfl
        | push opcode data | code opcode => cases hvalid
      rw [hrest, hwidth]
      exact List.length_pos_iff.mpr hbs

theorem length_lt_of_decode {op : Op} {bs rest : Bytes} (h : decode bs = some (op, rest)) :
    rest.length < bs.length := by
  have hwidth := op.width_pos
  have hle := width_add_length_le h
  omega

end Op

namespace Script

/-! ## Operations and their offsets -/

theorem opsOnto_eq_append (acc : List (Nat × Op)) (fuel offset : Nat) (bs : Bytes) :
    opsOnto acc fuel offset bs = acc.reverse ++ opsOnto [] fuel offset bs := by
  induction fuel generalizing acc offset bs with
  | zero => simp [opsOnto]
  | succ fuel ih =>
      rw [opsOnto, opsOnto]
      cases Op.decode bs with
      | none => simp
      | some next =>
          dsimp only
          rw [ih, ih [(offset, next.1)]]
          simp

theorem opsOnto_of_decode {op : Op} {bs rest : Bytes} (h : Op.decode bs = some (op, rest))
    (fuel offset : Nat) :
    opsOnto [] (fuel + 1) offset bs =
      (offset, op) :: opsOnto [] fuel (offset + op.width) rest := by
  rw [opsOnto, h]
  exact opsOnto_eq_append ..

theorem opsOnto_nil (fuel offset : Nat) : opsOnto [] fuel offset [] = [] := by
  cases fuel <;> rfl

theorem le_of_mem_opsOnto {fuel offset : Nat} {bs : Bytes} {p : Nat × Op}
    (h : p ∈ opsOnto [] fuel offset bs) : offset ≤ p.1 := by
  induction fuel generalizing offset bs with
  | zero => cases h
  | succ fuel ih =>
      cases hbs : Op.decode bs with
      | none =>
          rw [opsOnto, hbs] at h
          cases h
      | some next =>
          rw [opsOnto_of_decode hbs] at h
          rcases List.mem_cons.mp h with rfl | h
          · exact Nat.le_refl _
          · exact Nat.le_trans (Nat.le_add_right ..) (ih h)

/-! ## Code separators -/

/-- The offsets of the code separators among some operations. -/
def separatorsAmong (ops : List (Nat × Op)) : List Nat :=
  (ops.filter fun p => p.2 == .code Opcode.codeSeparator).map Prod.fst

/-- The bytes from an offset on that do not stand at certain offsets. -/
def bytesOutside (offsets : List Nat) (offset : Nat) (bs : Bytes) : Bytes :=
  ((bs.zipIdx offset).filter fun b => !offsets.contains b.2).map Prod.fst

/-- The script without the bytes that are code separators. Where code separators stand is read
off the operations, so bytes inside the data of a push or in the undecodable tail are none. -/
def unseparated (s : Script) : Script :=
  ⟨bytesOutside (separatorsAmong s.opsWithOffsets) 0 s.bytes⟩

theorem length_unseparated_le (s : Script) : s.unseparated.bytes.length ≤ s.bytes.length := by
  rw [unseparated, bytesOutside, List.length_map]
  refine (List.length_filter_le _ _).trans_eq ?_
  exact List.length_zipIdx

theorem le_of_mem_separators {fuel offset k : Nat} {bs : Bytes}
    (h : k ∈ separatorsAmong (opsOnto [] fuel offset bs)) : offset ≤ k := by
  obtain ⟨p, hp, rfl⟩ := List.mem_map.mp h
  exact le_of_mem_opsOnto (List.mem_filter.mp hp).1

theorem bytesOutside_append (offsets : List Nat) (offset : Nat) (as bs : Bytes) :
    bytesOutside offsets offset (as ++ bs) =
      bytesOutside offsets offset as ++ bytesOutside offsets (offset + as.length) bs := by
  rw [bytesOutside, List.zipIdx_append, List.filter_append, List.map_append]
  rfl

/-- Only the offsets of the bytes themselves matter. -/
theorem bytesOutside_congr {k l : List Nat} {offset : Nat} {bs : Bytes}
    (h : ∀ n, offset ≤ n → n < offset + bs.length → (n ∈ k ↔ n ∈ l)) :
    bytesOutside k offset bs = bytesOutside l offset bs := by
  refine congrArg (List.map Prod.fst) (List.filter_congr fun b hb => ?_)
  obtain ⟨hle, hlt, -⟩ := List.mem_zipIdx hb
  rw [Bool.eq_iff_iff]
  simp [h b.2 hle hlt]

theorem bytesOutside_nil (offset : Nat) (bs : Bytes) : bytesOutside [] offset bs = bs := by
  have hall : ((bs.zipIdx offset).filter fun b => !([] : List Nat).contains b.2) =
      bs.zipIdx offset := List.filter_eq_self.mpr fun _ _ => rfl
  rw [bytesOutside, hall, List.zipIdx_map_fst]

theorem separatorsAmong_cons (offset : Nat) (op : Op) (ops : List (Nat × Op)) :
    separatorsAmong ((offset, op) :: ops) =
      if op = .code Opcode.codeSeparator then offset :: separatorsAmong ops
      else separatorsAmong ops := by
  rw [separatorsAmong, List.filter_cons]
  split
  · next h => rw [if_pos (beq_iff_eq.mp h)]; rfl
  · next h => rw [if_neg fun hop => h (beq_iff_eq.mpr hop)]; rfl

/-- An operation is left out with its bytes or kept with them; those after it are not touched by
that. -/
theorem bytesOutside_encode (offset : Nat) (op : Op) (ops : List (Nat × Op)) (rest : Bytes)
    (hlater : ∀ k ∈ separatorsAmong ops, offset + op.width ≤ k) :
    bytesOutside (separatorsAmong ((offset, op) :: ops)) offset (op.encode ++ rest) =
      (if op = .code Opcode.codeSeparator then [] else op.encode) ++
        bytesOutside (separatorsAmong ops) (offset + op.width) rest := by
  have hpos := op.width_pos
  rw [bytesOutside_append, op.length_encode, separatorsAmong_cons]
  split
  · next hop =>
      subst hop
      refine congrArg₂ _ ?_ (bytesOutside_congr fun k hk _ => ?_)
      · simp [bytesOutside, Op.encode]
      · rw [List.mem_cons, or_iff_right (by omega)]
  · refine congrArg (· ++ _) ?_
    rw [bytesOutside_congr (l := []), bytesOutside_nil]
    intro k _ hk
    rw [op.length_encode] at hk
    exact iff_of_false (fun hmem => absurd (hlater k hmem) (by omega)) List.not_mem_nil

theorem filterFrom_of_decode {op : Op} {bs rest : Bytes} (h : Op.decode bs = some (op, rest))
    (hvalid : op.isValid) (keep : Op → Bool) (acc : List Bytes) (fuel : Nat) :
    filterFrom keep acc (fuel + 1) bs =
      filterFrom keep (if keep op then op.encode :: acc else acc) fuel rest := by
  rw [filterFrom, h]
  cases op with
  | push | code => rfl
  | invalid => cases hvalid

theorem filterFrom_of_invalid {op : Op} {bs rest : Bytes} (h : Op.decode bs = some (op, rest))
    (hvalid : ¬ op.isValid) (keep : Op → Bool) (acc : List Bytes) (fuel : Nat) :
    filterFrom keep acc (fuel + 1) bs = acc.reverse.flatten ++ bs := by
  rw [filterFrom, h]
  cases op with
  | push | code => exact absurd rfl hvalid
  | invalid => simp

theorem filterFrom_eq_bytesOutside (acc : List Bytes) {fuel : Nat} (offset : Nat) {bs : Bytes}
    (hfuel : bs.length ≤ fuel) :
    filterFrom (· != .code Opcode.codeSeparator) acc (fuel + 1) bs =
      acc.reverse.flatten ++
        bytesOutside (separatorsAmong (opsOnto [] fuel offset bs)) offset bs := by
  induction fuel generalizing acc offset bs with
  | zero =>
      obtain rfl := List.eq_nil_of_length_eq_zero (Nat.le_zero.mp hfuel)
      exact (List.append_nil _).symm
  | succ fuel ih =>
      cases hbs : Op.decode bs with
      | none =>
          obtain rfl := Op.eq_nil_of_decode_none hbs
          exact (List.append_nil _).symm
      | some next =>
          obtain ⟨op, rest⟩ := next
          rw [opsOnto_of_decode hbs]
          by_cases hvalid : op.isValid
          · have happend := Op.append_of_decode hbs hvalid
            have hrest : rest.length ≤ fuel := by
              have hpos := op.width_pos
              rw [← happend, List.length_append, op.length_encode] at hfuel
              omega
            rw [filterFrom_of_decode hbs hvalid, ih _ (offset + op.width) hrest, ← happend,
              bytesOutside_encode _ _ _ _ fun k => le_of_mem_separators, ← List.append_assoc]
            refine congrArg (· ++ _) ?_
            by_cases hop : op = .code Opcode.codeSeparator
            · simp [hop]
            · simp [hop]
          · -- the undecodable tail is the last that is seen, and is kept as it is
            have hop : op ≠ .code Opcode.codeSeparator := by
              rintro rfl
              exact hvalid rfl
            rw [filterFrom_of_invalid hbs hvalid, separatorsAmong_cons, if_neg hop,
              Op.eq_nil_of_decode_invalid hbs hvalid, opsOnto_nil]
            exact congrArg _ (bytesOutside_nil offset bs).symm

/-- To cut out the code separators is to leave out their bytes. -/
theorem withoutCodeSeparators_eq (s : Script) : s.withoutCodeSeparators = s.unseparated := by
  rw [withoutCodeSeparators, filterFrom_eq_bytesOutside [] 0 (Nat.le_refl _)]
  rfl

/-- Two code separators, and the same byte in a push and in the undecodable tail. -/
example : unseparated ⟨[0xab, 0x01, 0xab, 0x51, 0xab, 0x02, 0xab]⟩ =
    ⟨[0x01, 0xab, 0x51, 0x02, 0xab]⟩ := by
  decide

end Script

end StakeChain
