/-
Operations tile a script.

The first byte of an operation says how its length is written, and the length says
where it ends, so an operation is found again in front of any bytes. A script is
therefore cut into operations in one way: it is the encodings of those that decode, one
after another, and a tail from which no more can be decoded. What a script is made of
is read off such a list, by induction on it.
-/
import StakeChain.Proofs.ScriptCuts
import StakeChain.Proofs.WitnessPrograms

namespace StakeChain

namespace Op

/-! ## One operation in front of others -/

/-- An operation that can stand in a script: the length of the data of a push is the one that its
opcode says, or has a place in the bytes that its opcode provides for it. -/
def Fits : Op → Prop
  | push opcode data => opcode ≤ Opcode.pushData4 ∧
      if lengthWidth opcode = 0 then data.length = opcode.toNat
      else data.length < 256 ^ lengthWidth opcode
  | code opcode => opcode > Opcode.pushData4
  | invalid _ => False

instance : (op : Op) → Decidable op.Fits
  | push opcode data => inferInstanceAs (Decidable (opcode ≤ Opcode.pushData4 ∧
      if lengthWidth opcode = 0 then data.length = opcode.toNat
      else data.length < 256 ^ lengthWidth opcode))
  | code opcode => inferInstanceAs (Decidable (opcode > Opcode.pushData4))
  | invalid _ => inferInstanceAs (Decidable False)

theorem Fits.isValid {op : Op} (h : op.Fits) : op.isValid = true := by
  cases op with
  | push opcode data | code opcode => rfl
  | invalid opcode => cases h

theorem pushLength_append {opcode : UInt8} {data : Bytes} (h : (push opcode data).Fits)
    (rest : Bytes) :
    pushLength opcode (Bytes.ofNatLE (lengthWidth opcode) data.length ++ rest) =
      some (data.length, rest) := by
  have hlength := h.2
  simp only [pushLength]
  split at hlength
  · next hwidth =>
      rw [if_pos hwidth, hwidth, hlength]
      rfl
  · next hwidth =>
      have hsplit : Bytes.splitExact (lengthWidth opcode)
          (Bytes.ofNatLE (lengthWidth opcode) data.length ++ rest) =
            some (Bytes.ofNatLE (lengthWidth opcode) data.length, rest) :=
        Bytes.splitExact_eq_some.mpr ⟨Bytes.length_ofNatLE _ _, rfl⟩
      rw [if_neg hwidth, hsplit, Option.map_some, Bytes.toNatLE_ofNatLE hlength]

/-- An operation is found again in front of any bytes. -/
theorem decode_encode {op : Op} (h : op.Fits) (rest : Bytes) :
    decode (op.encode ++ rest) = some (op, rest) := by
  cases op with
  | push opcode data =>
      have hsplit : Bytes.splitExact data.length (data ++ rest) = some (data, rest) :=
        Bytes.splitExact_eq_some.mpr ⟨rfl, rfl⟩
      rw [encode, List.cons_append, List.append_assoc, decode, if_neg (UInt8.not_lt.mpr h.1),
        pushLength_append h]
      dsimp only
      rw [hsplit]
  | code opcode => exact decode_of_gt h rest
  | invalid opcode => cases h

/-- The announced length is one that the opcode can announce. -/
theorem announced_of_pushLength {opcode : UInt8} {bs rest : Bytes} {n : Nat}
    (h : pushLength opcode bs = some (n, rest)) :
    if lengthWidth opcode = 0 then n = opcode.toNat else n < 256 ^ lengthWidth opcode := by
  simp only [pushLength] at h
  split at h
  · next hwidth =>
      cases h
      exact (if_pos hwidth).mpr rfl
  · next hwidth =>
      obtain ⟨⟨digits, rest'⟩, hsplit, heq⟩ := Option.map_eq_some_iff.mp h
      cases heq
      rw [if_neg hwidth, ← (Bytes.splitExact_eq_some.mp hsplit).1]
      exact Bytes.toNatLE_lt digits

/-- What is decoded can stand in a script. -/
theorem fits_of_decode {op : Op} {bs rest : Bytes} (h : decode bs = some (op, rest))
    (hvalid : op.isValid) : op.Fits := by
  cases bs with
  | nil => cases h
  | cons opcode bs =>
      rw [decode] at h
      split at h
      · next hgt =>
          cases h
          exact hgt
      · next hle =>
          split at h
          · cases h
            cases hvalid
          · next n rest' hlength =>
              split at h
              · cases h
                cases hvalid
              · next data rest'' hsplit =>
                  cases h
                  obtain ⟨rfl, -⟩ := Bytes.splitExact_eq_some.mp hsplit
                  exact ⟨UInt8.not_lt.mp hle, announced_of_pushLength hlength⟩

/-- No operation starts another one. -/
theorem eq_of_encode_starts {op op' : Op} (h : op.Fits) (h' : op'.Fits) {rest : Bytes}
    (hstarts : op.encode <+: op'.encode ++ rest) : op = op' := by
  obtain ⟨rest', hrest⟩ := hstarts
  have hdecode := decode_encode h rest'
  rw [hrest, decode_encode h'] at hdecode
  cases hdecode
  rfl

/-- Operations with the same bytes are the same. -/
theorem encode_inj {op op' : Op} (h : op.Fits) (h' : op'.Fits) :
    op.encode = op'.encode ↔ op = op' := by
  refine ⟨fun heq => ?_, congrArg encode⟩
  have hstarts : op.encode <+: op'.encode ++ [] := ⟨[], by rw [heq]⟩
  exact eq_of_encode_starts h h' hstarts

/-- Nothing can be taken off the front of these bytes. -/
def Undecodable (bs : Bytes) : Prop :=
  ∀ op rest, decode bs = some (op, rest) → op.isValid = false

theorem exists_of_not_undecodable {bs : Bytes} (h : ¬ Undecodable bs) :
    ∃ op rest, decode bs = some (op, rest) ∧ op.isValid = true := by
  rw [Undecodable] at h
  push Not at h
  obtain ⟨op, rest, hdecode, hvalid⟩ := h
  exact ⟨op, rest, hdecode, Bool.eq_true_of_not_eq_false hvalid⟩

theorem Undecodable.not_starts {op : Op} (h : op.Fits) {tail : Bytes} (htail : Undecodable tail) :
    ¬ op.encode <+: tail := by
  rintro ⟨rest, rfl⟩
  have hvalid := htail op rest (decode_encode h rest)
  rw [h.isValid] at hvalid
  cases hvalid

/-! ## The smallest push -/

/-- The smallest opcode that pushes that many bytes. -/
def pushOpcode (n : Nat) : UInt8 :=
  if n < 0x4c then UInt8.ofNat n
  else if n ≤ 0xff then Opcode.pushData1
  else if n ≤ 0xffff then Opcode.pushData2
  else Opcode.pushData4

/-- The operation that pushes data with the smallest opcode. -/
def ofData (data : Bytes) : Op :=
  push (pushOpcode data.length) data

theorem lengthWidth_eq_zero {opcode : UInt8} (h : opcode < Opcode.pushData1) :
    lengthWidth opcode = 0 := by
  have hne : ∀ b, ¬ b < Opcode.pushData1 → opcode ≠ b := fun b hb hop => hb (hop ▸ h)
  rw [lengthWidth, if_neg (hne _ (by decide)), if_neg (hne _ (by decide)),
    if_neg (hne _ (by decide))]

theorem ofNat_lt_pushData1 {n : Nat} (h : n < 0x4c) :
    UInt8.ofNat n < Opcode.pushData1 ∧ (UInt8.ofNat n).toNat = n := by
  have hn : (UInt8.ofNat n).toNat = n := by
    rw [UInt8.toNat_ofNat']
    omega
  exact ⟨UInt8.lt_iff_toNat_lt.mpr (hn.trans_lt h), hn⟩

/-- Data whose length has a place in four bytes can be pushed. -/
theorem fits_ofData {data : Bytes} (h : data.length < 2 ^ 32) : (ofData data).Fits := by
  rw [ofData, pushOpcode]
  split
  · next hshort =>
      obtain ⟨hlt, hn⟩ := ofNat_lt_pushData1 hshort
      refine ⟨UInt8.le_of_lt (UInt8.lt_trans hlt (by decide)), ?_⟩
      rw [if_pos (lengthWidth_eq_zero hlt), hn]
  · split
    · next hle => exact ⟨by decide, Nat.lt_succ_of_le hle⟩
    · split
      · next hle => exact ⟨by decide, Nat.lt_succ_of_le hle⟩
      · exact ⟨by decide, h⟩

end Op

namespace Script

open Op (Fits Undecodable)

/-- What is written to push data is the operation with the smallest opcode. -/
theorem pushData_eq (data : Bytes) : pushData data = (Op.ofData data).encode := by
  rw [pushData, Op.ofData, Op.pushOpcode, Op.encode]
  split
  · next h =>
      rw [Op.lengthWidth_eq_zero (Op.ofNat_lt_pushData1 h).1]
      rfl
  · split
    · rfl
    · split
      · rfl
      · rfl

/-- Four bytes hold nothing of the length `2 ^ 32`: what is written to push that much data is the
push of no data, with the data loose after it. -/
theorem pushData_overlong {data : Bytes} (h : data.length = 2 ^ 32) :
    pushData data = (Op.push Opcode.pushData4 []).encode ++ data := by
  have hopcode : Op.pushOpcode (2 ^ 32) = Opcode.pushData4 := by decide
  rw [pushData_eq, Op.ofData, Op.encode, h, hopcode]
  rfl

/-! ## All operations -/

/-- Fuel beyond the number of bytes is never used. -/
theorem opsWithin_congr {fuel fuel' : Nat} {bs : Bytes} (h : bs.length ≤ fuel)
    (h' : bs.length ≤ fuel') : opsWithin fuel bs = opsWithin fuel' bs := by
  induction fuel generalizing fuel' bs with
  | zero =>
      rw [List.eq_nil_of_length_eq_zero (Nat.le_zero.mp h), opsWithin_nil, opsWithin_nil]
  | succ fuel ih =>
      cases hbs : Op.decode bs with
      | none => rw [Op.eq_nil_of_decode_none hbs, opsWithin_nil, opsWithin_nil]
      | some next =>
          obtain ⟨op, rest⟩ := next
          have hlt := Op.length_lt_of_decode hbs
          obtain ⟨fuel', rfl⟩ := Nat.exists_eq_succ_of_ne_zero (Nat.ne_zero_of_lt (hlt.trans_le h'))
          rw [opsWithin, opsWithin, hbs]
          dsimp only
          rw [ih (show rest.length ≤ fuel by omega) (show rest.length ≤ fuel' by omega)]

theorem ops_of_decode {op : Op} {bs rest : Bytes} (h : Op.decode bs = some (op, rest)) :
    ops ⟨bs⟩ = op :: ops ⟨rest⟩ := by
  have hlt := Op.length_lt_of_decode h
  rw [ops_eq, ops_eq, opsWithin_congr (Nat.le_refl bs.length) (Nat.le_succ _), opsWithin, h]
  dsimp only
  rw [opsWithin_congr (by omega) (Nat.le_refl rest.length)]

theorem ops_nil : ops ⟨[]⟩ = [] := rfl

/-- The operations of a script that starts with some operations. -/
theorem ops_append {front : List Op} (h : ∀ op ∈ front, op.Fits) (bs : Bytes) :
    ops ⟨front.flatMap Op.encode ++ bs⟩ = front ++ ops ⟨bs⟩ := by
  induction front with
  | nil => rfl
  | cons op front ih =>
      obtain ⟨hop, hfront⟩ := List.forall_mem_cons.mp h
      rw [List.flatMap_cons, List.append_assoc, ops_of_decode (Op.decode_encode hop _), ih hfront]
      rfl

/-- The operations of a script that is put together from operations. -/
theorem ops_ofOps {list : List Op} (h : ∀ op ∈ list, op.Fits) : (ofOps list).ops = list := by
  have hops := ops_append h []
  rwa [List.append_nil, ops_nil, List.append_nil] at hops

/-- In an undecodable tail no operation is decoded. -/
theorem isValid_of_mem_ops_tail {tail : Bytes} (h : Undecodable tail) :
    ∀ op ∈ ops ⟨tail⟩, op.isValid = false := by
  cases htail : Op.decode tail with
  | none =>
      rw [Op.eq_nil_of_decode_none htail, ops_nil]
      exact fun op hop => nomatch hop
  | some next =>
      obtain ⟨op, rest⟩ := next
      have hvalid := h op rest htail
      rw [ops_of_decode htail, Op.eq_nil_of_decode_invalid htail (by rw [hvalid]; nofun), ops_nil]
      exact List.forall_mem_singleton.mpr hvalid

theorem length_le_length_flatMap (front : List Op) :
    front.length ≤ (front.flatMap Op.encode).length := by
  induction front with
  | nil => exact Nat.le_refl 0
  | cons op front ih =>
      have hpos := op.width_pos
      rw [List.flatMap_cons, List.length_cons, List.length_append, op.length_encode]
      omega

/-! ## The tiling -/

/-- The operations that decode. -/
def decoded (s : Script) : List Op :=
  s.ops.filter Op.isValid

/-- The bytes from the undecodable operation on. -/
def undecoded (s : Script) : Bytes :=
  s.bytes.drop (s.decoded.flatMap Op.encode).length

theorem decoded_append {front : List Op} (h : ∀ op ∈ front, op.Fits) {tail : Bytes}
    (htail : Undecodable tail) : decoded ⟨front.flatMap Op.encode ++ tail⟩ = front := by
  have hnone : (ops ⟨tail⟩).filter Op.isValid = [] :=
    List.filter_eq_nil_iff.mpr fun op hop => by simp [isValid_of_mem_ops_tail htail op hop]
  rw [decoded, ops_append h, List.filter_append, hnone, List.append_nil]
  exact List.filter_eq_self.mpr fun op hop => (h op hop).isValid

theorem undecoded_append {front : List Op} (h : ∀ op ∈ front, op.Fits) {tail : Bytes}
    (htail : Undecodable tail) : undecoded ⟨front.flatMap Op.encode ++ tail⟩ = tail := by
  rw [undecoded, decoded_append h htail]
  exact List.drop_left

/-- Every script is a row of operations and an undecodable tail. -/
theorem exists_tiling (bs : Bytes) : ∃ (front : List Op) (tail : Bytes),
    (∀ op ∈ front, op.Fits) ∧ Undecodable tail ∧ bs = front.flatMap Op.encode ++ tail := by
  induction hn : bs.length using Nat.strong_induction_on generalizing bs with
  | h n ih =>
      by_cases htail : Undecodable bs
      · exact ⟨[], bs, List.forall_mem_nil _, htail, rfl⟩
      · obtain ⟨op, rest, hdecode, hvalid⟩ := Op.exists_of_not_undecodable htail
        obtain ⟨front, tail, hfront, htail, rfl⟩ :=
          ih rest.length (hn ▸ Op.length_lt_of_decode hdecode) rest rfl
        refine ⟨op :: front, tail,
          List.forall_mem_cons.mpr ⟨Op.fits_of_decode hdecode hvalid, hfront⟩, htail, ?_⟩
        rw [List.flatMap_cons, List.append_assoc, Op.append_of_decode hdecode hvalid]

theorem fits_of_mem_decoded {s : Script} : ∀ op ∈ s.decoded, op.Fits := by
  obtain ⟨front, tail, hfront, htail, hs⟩ := exists_tiling s.bytes
  have hdecoded := decoded_append hfront htail
  rw [← hs] at hdecoded
  exact hdecoded ▸ hfront

theorem undecodable_undecoded (s : Script) : Undecodable s.undecoded := by
  obtain ⟨front, tail, hfront, htail, hs⟩ := exists_tiling s.bytes
  have hundecoded := undecoded_append hfront htail
  rw [← hs] at hundecoded
  exact hundecoded ▸ htail

/-- A script is what it decodes to and what is left. -/
theorem decoded_append_undecoded (s : Script) :
    s.decoded.flatMap Op.encode ++ s.undecoded = s.bytes := by
  obtain ⟨front, tail, hfront, htail, hs⟩ := exists_tiling s.bytes
  have hdecoded := decoded_append hfront htail
  have hundecoded := undecoded_append hfront htail
  rw [← hs] at hdecoded hundecoded
  rw [hdecoded, hundecoded, hs]

/-- A script in which every operation decodes is put together from its operations. -/
theorem ofOps_ops {s : Script} (h : ∀ op ∈ s.ops, op.isValid = true) : ofOps s.ops = s := by
  obtain ⟨front, tail, hfront, htail, hs⟩ := exists_tiling s.bytes
  have hops : s.ops = front ++ ops ⟨tail⟩ := by rw [← ops_append hfront, ← hs]
  have hnil : tail = [] := by
    cases hnext : Op.decode tail with
    | none => exact Op.eq_nil_of_decode_none hnext
    | some next =>
        obtain ⟨op, rest⟩ := next
        have hmem : op ∈ s.ops := by
          rw [hops, ops_of_decode hnext]
          exact List.mem_append_right _ List.mem_cons_self
        have hvalid := htail op rest hnext
        rw [h op hmem] at hvalid
        cases hvalid
  rw [hnil, ops_nil, List.append_nil] at hops
  rw [hnil, List.append_nil] at hs
  rw [ofOps, hops]
  exact congrArg Script.mk hs.symm

theorem length_decoded_le (s : Script) : s.decoded.length ≤ s.size := by
  have hfront := length_le_length_flatMap s.decoded
  rw [size, ← s.decoded_append_undecoded, List.length_append]
  omega

theorem length_encode_le_of_mem {s : Script} {op : Op} (h : op ∈ s.decoded) :
    op.encode.length ≤ s.size := by
  have hsub := (List.sublist_flatten_of_mem (List.mem_map_of_mem (f := Op.encode) h)).length_le
  rw [size, ← s.decoded_append_undecoded, List.length_append, List.flatMap_def]
  omega

end Script

end StakeChain
