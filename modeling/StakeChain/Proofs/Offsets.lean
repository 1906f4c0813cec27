/-
Operations and where they stand.

The operations of a script are given together with their offsets. To tile the bytes
from an offset on is to start there, to start each operation where the one before it
ends, and to leave nothing over: the last operation may be one that does not decode, and
then takes up whatever is left. A script is tiled in this one way, by induction on the
tiling; that the offsets increase and that at most the last operation does not decode is
read off it.
-/
import StakeChain.Proofs.Tiling

namespace StakeChain

namespace Op

/-- Bytes that cannot be taken apart are one operation that does not decode. -/
theorem decode_of_undecodable {opcode : UInt8} {bs : Bytes} (h : Undecodable (opcode :: bs)) :
    decode (opcode :: bs) = some (.invalid opcode, []) := by
  rw [decode]
  split
  · next hgt =>
      have hvalid := h _ _ (decode_of_gt hgt bs)
      cases hvalid
  · next hle =>
      split
      · rfl
      · next n rest hlength =>
          split
          · rfl
          · next data rest' hsplit =>
              have hvalid := h (push opcode data) rest' (by
                rw [decode, if_neg hle, hlength]
                dsimp only
                rw [hsplit])
              cases hvalid

end Op

namespace Script

open Op (Fits Undecodable)

/-! ## Tilings -/

/-- Operations that take up all of the bytes from an offset on, each at the offset where it
starts. -/
inductive Tiles : (offset : Nat) → Bytes → List (Nat × Op) → Prop
  /-- Nothing is left. -/
  | done (offset : Nat) : Tiles offset [] []
  /-- An operation, and the rest from where it ends. -/
  | next {offset : Nat} {op : Op} {rest : Bytes} {list : List (Nat × Op)} :
      op.Fits → Tiles (offset + op.encode.length) rest list →
        Tiles offset (op.encode ++ rest) ((offset, op) :: list)
  /-- What is left does not decode. -/
  | broken {offset : Nat} {opcode : UInt8} {rest : Bytes} :
      Undecodable (opcode :: rest) →
        Tiles offset (opcode :: rest) [(offset, .invalid opcode)]

/-- What is decoded tiles the bytes. -/
theorem tiles_opsOnto {fuel offset : Nat} {bs : Bytes} (h : bs.length ≤ fuel) :
    Tiles offset bs (opsOnto [] fuel offset bs) := by
  induction fuel generalizing offset bs with
  | zero =>
      rw [List.eq_nil_of_length_eq_zero (Nat.le_zero.mp h)]
      exact .done offset
  | succ fuel ih =>
      cases bs with
      | nil => exact .done offset
      | cons opcode bs =>
          by_cases htail : Undecodable (opcode :: bs)
          · rw [opsOnto_of_decode (Op.decode_of_undecodable htail), opsOnto_nil]
            exact .broken htail
          · obtain ⟨op, rest, hnext, hvalid⟩ := Op.exists_of_not_undecodable htail
            have hlt := Op.length_lt_of_decode hnext
            rw [opsOnto_of_decode hnext, ← Op.append_of_decode hnext hvalid, ← op.length_encode]
            exact .next (Op.fits_of_decode hnext hvalid) (ih (by omega))

namespace Tiles

variable {offset : Nat} {bs : Bytes} {list : List (Nat × Op)}

/-- There is no other tiling. -/
theorem eq_opsOnto (h : Tiles offset bs list) {fuel : Nat} (hfuel : bs.length ≤ fuel) :
    list = opsOnto [] fuel offset bs := by
  induction h generalizing fuel with
  | done offset => rw [opsOnto_nil]
  | @next offset op rest list hop htiles ih =>
      have hpos := op.width_pos
      rw [List.length_append, op.length_encode] at hfuel
      obtain ⟨fuel, rfl⟩ := Nat.exists_eq_succ_of_ne_zero (show fuel ≠ 0 by omega)
      rw [opsOnto_of_decode (Op.decode_encode hop rest), ← op.length_encode,
        ← ih (show rest.length ≤ fuel by omega)]
  | @broken offset opcode rest htail =>
      obtain ⟨fuel, rfl⟩ := Nat.exists_eq_succ_of_ne_zero (Nat.ne_zero_of_lt hfuel)
      rw [opsOnto_of_decode (Op.decode_of_undecodable htail), opsOnto_nil]

theorem le_of_mem (h : Tiles offset bs list) {entry : Nat × Op} (hmem : entry ∈ list) :
    offset ≤ entry.1 := by
  rw [h.eq_opsOnto (Nat.le_refl _)] at hmem
  exact le_of_mem_opsOnto hmem

theorem increasing (h : Tiles offset bs list) : (list.map Prod.fst).Pairwise (· < ·) := by
  induction h with
  | done offset => exact .nil
  | @next offset op rest list hop htiles ih =>
      have hpos : 0 < op.encode.length := op.length_encode ▸ op.width_pos
      refine List.pairwise_cons.mpr ⟨List.forall_mem_map.mpr fun entry hentry => ?_, ih⟩
      have hle := htiles.le_of_mem hentry
      omega
  | broken htail => exact List.pairwise_singleton ..

/-- Only the last operation may be one that does not decode. -/
theorem fits_of_mem_dropLast (h : Tiles offset bs list) :
    ∀ entry ∈ list.dropLast, entry.2.Fits := by
  induction h with
  | done offset | broken htail => exact List.forall_mem_nil _
  | @next offset op rest list hop htiles ih =>
      cases list with
      | nil => exact List.forall_mem_nil _
      | cons entry list => exact List.forall_mem_cons.mpr ⟨hop, ih⟩

end Tiles

theorem tiles_opsWithOffsets (s : Script) : Tiles 0 s.bytes s.opsWithOffsets :=
  tiles_opsOnto (Nat.le_refl _)

/-! ## There and back -/

/-- The operations of a script are the one tiling of its bytes: their offsets increase, and at
most the last does not decode. If every one decodes, the script is put together from them; and
operations that can stand in a script are those of the script that is put together from them. -/
theorem operations_inverse :
    (∀ s : Script, (∀ list, Tiles 0 s.bytes list ↔ list = s.opsWithOffsets) ∧
      (s.opsWithOffsets.map Prod.fst).Pairwise (· < ·) ∧
      (∀ entry ∈ s.opsWithOffsets.dropLast, entry.2.isValid = true) ∧
      ((∀ op ∈ s.ops, op.isValid = true) → ofOps s.ops = s)) ∧
    ∀ list : List Op, (∀ op ∈ list, op.Fits) → (ofOps list).ops = list := by
  refine ⟨fun s => ?_, fun list hlist => ops_ofOps hlist⟩
  have htiles := s.tiles_opsWithOffsets
  refine ⟨fun list => ⟨fun h => h.eq_opsOnto (Nat.le_refl _), ?_⟩, htiles.increasing,
    fun entry hentry => (htiles.fits_of_mem_dropLast entry hentry).isValid, fun h => ofOps_ops h⟩
  rintro rfl
  exact htiles

/-- No data, one byte after each way to push it and one other operation; and a push that is cut
off behind another operation. -/
theorem operations_inverse_pushes :
    let list : List Op := [.push 0 [], .push 1 [0xaa], .push Opcode.pushData1 [0xbb],
      .push Opcode.pushData2 [0xcc], .push Opcode.pushData4 [0xdd], .code Opcode.dup]
    let cut : Script := ⟨[Opcode.dup, Opcode.pushData1, 5, 0xaa, 0xbb]⟩
    (ofOps list).bytes = [0, 1, 0xaa, 0x4c, 1, 0xbb, 0x4d, 1, 0, 0xcc, 0x4e, 1, 0, 0, 0, 0xdd,
      0x76] ∧ (ofOps list).ops = list ∧ ofOps (ofOps list).ops = ofOps list ∧
      (ofOps list).opsWithOffsets.map Prod.fst = [0, 1, 3, 6, 10, 16] ∧
      Tiles 0 cut.bytes [(0, .code Opcode.dup), (1, .invalid Opcode.pushData1)] := by
  intro list cut
  obtain ⟨hscripts, hlists⟩ := operations_inverse
  exact ⟨by decide, hlists list (by decide), (hscripts (ofOps list)).2.2.2 (by decide), by decide,
    ((hscripts cut).1 _).mpr (by decide)⟩

end Script

end StakeChain
