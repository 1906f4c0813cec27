/-
What is read off a script before it runs.

Counting signature operations, finding the last push and running a script
all take the same operations off the front, one after another. Here the
list of operations is put in the form that a run follows, and the counts
and shapes are computed for the scripts that evaluations build or leave.
-/
import StakeChain.Tx.SigOps
import StakeChain.Script.Number
import StakeChain.Script.Template
import StakeChain.Proofs.Numerals

namespace StakeChain

/-! ## One operation -/

namespace Op

theorem decode_push {bs rest data : Bytes} {opcode : UInt8}
    (h : decode bs = some (.push opcode data, rest)) : opcode ≤ Opcode.pushData4 := by
  cases bs with
  | nil => cases h
  | cons b bs =>
      rw [decode] at h
      split at h
      · cases h
      · next hb =>
          split at h
          · cases h
          · split at h
            · cases h
            · cases h
              exact UInt8.not_lt.mp hb

/-- A byte above the pushes is an operation of its own. -/
theorem decode_of_gt {opcode : UInt8} (h : opcode > Opcode.pushData4) (rest : Bytes) :
    decode (opcode :: rest) = some (.code opcode, rest) :=
  if_pos h

/-- A byte below the lengths that are written out pushes as many bytes. -/
theorem decode_append {opcode : UInt8} (h : opcode < Opcode.pushData1) {data : Bytes}
    (hdata : data.length = opcode.toNat) (rest : Bytes) :
    decode (opcode :: (data ++ rest)) = some (.push opcode data, rest) := by
  have hne : ∀ b, ¬ b < Opcode.pushData1 → opcode ≠ b := fun b hb hop => hb (hop ▸ h)
  have hwidth : lengthWidth opcode = 0 := by
    rw [lengthWidth, if_neg (hne _ (by decide)), if_neg (hne _ (by decide)),
      if_neg (hne _ (by decide))]
  have hsplit : Bytes.splitExact opcode.toNat (data ++ rest) = some (data, rest) :=
    Bytes.splitExact_eq_some.mpr ⟨hdata, rfl⟩
  have hle : ¬ opcode > Opcode.pushData4 := fun hgt => by
    have hlow : opcode.toNat < 0x4c := UInt8.lt_iff_toNat_lt.mp h
    have hhigh : 0x4e < opcode.toNat := UInt8.lt_iff_toNat_lt.mp hgt
    omega
  rw [decode, if_neg hle]
  simp only [pushLength, hwidth, ↓reduceIte, hsplit]

end Op

namespace Script

/-! ## The list of operations -/

/-- The operations at the front of some bytes, as many as the fuel allows. -/
def opsWithin : (fuel : Nat) → Bytes → List Op
  | 0, _ => []
  | fuel + 1, bs =>
      match Op.decode bs with
      | none => []
      | some (op, rest) => op :: opsWithin fuel rest

theorem opsOnto_map (acc : List (Nat × Op)) (fuel offset : Nat) (bs : Bytes) :
    (opsOnto acc fuel offset bs).map (·.2) = (acc.map (·.2)).reverse ++ opsWithin fuel bs := by
  induction fuel generalizing acc offset bs with
  | zero => simp [opsOnto, opsWithin]
  | succ fuel ih =>
      rw [opsOnto, opsWithin]
      cases Op.decode bs with
      | none => simp
      | some next => simp [ih]

theorem ops_eq (s : Script) : s.ops = opsWithin s.bytes.length s.bytes := by
  rw [ops, opsWithOffsets, opsOnto_map]
  rfl

/-! ## Signature operations -/

theorem sigOpsFrom_eq_add (accurate : Bool) (previous : UInt8) (count : Nat) (ops : List Op) :
    sigOpsFrom accurate previous count ops = count + sigOpsFrom accurate previous 0 ops := by
  induction ops generalizing previous count with
  | nil => rfl
  | cons op ops ih =>
      cases op with
      | invalid opcode => rfl
      | push opcode data | code opcode =>
          rw [sigOpsFrom, sigOpsFrom, ih, ih _ (0 + _)]
          · omega
          · nofun
          · nofun

theorem sigOpsFrom_cons {op : Op} (h : op.isValid) (accurate : Bool) (previous : UInt8)
    (ops : List Op) :
    sigOpsFrom accurate previous 0 (op :: ops) =
      opSigCount accurate previous op.opcode + sigOpsFrom accurate op.opcode 0 ops := by
  have hop : ∀ opcode, op ≠ .invalid opcode := by
    rintro opcode rfl
    cases h
  rw [sigOpsFrom, Nat.zero_add, sigOpsFrom_eq_add]
  exact hop

theorem bytes_payToKeyHash (hash : Hash160) :
    (payToKeyHash hash).bytes = Opcode.dup :: Opcode.hash160 :: 20 ::
      (hash.bytes ++ [Opcode.equalVerify, Opcode.checkSig]) := by
  simp [payToKeyHash, pushData, hash.length_bytes]

theorem length_payToKeyHash (hash : Hash160) : (payToKeyHash hash).bytes.length = 25 := by
  simp [bytes_payToKeyHash, hash.length_bytes]

theorem ops_payToKeyHash (hash : Hash160) :
    (payToKeyHash hash).ops = [.code Opcode.dup, .code Opcode.hash160, .push 20 hash.bytes,
      .code Opcode.equalVerify, .code Opcode.checkSig] := by
  rw [ops_eq, length_payToKeyHash, bytes_payToKeyHash]
  simp only [opsWithin, Op.decode_of_gt (show Opcode.dup > Opcode.pushData4 by decide),
    Op.decode_of_gt (show Opcode.hash160 > Opcode.pushData4 by decide),
    Op.decode_of_gt (show Opcode.equalVerify > Opcode.pushData4 by decide),
    Op.decode_of_gt (show Opcode.checkSig > Opcode.pushData4 by decide),
    Op.decode_append (show 20 < Opcode.pushData1 by decide) hash.length_bytes]
  rfl

theorem sigOpCount_payToKeyHash (hash : Hash160) : (payToKeyHash hash).sigOpCount true = 1 := by
  rw [sigOpCount, ops_payToKeyHash]
  rfl

/-! ## Shapes that exclude each other -/

/-- A script that pays to a script hash starts with no small number. -/
theorem witnessProgram?_of_isScriptHash {s : Script} (h : s.isScriptHash) :
    s.witnessProgram? = none := by
  rw [isScriptHash, scriptHash?] at h
  rw [witnessProgram?]
  split at h
  · next opcode length rest heq =>
      split at h
      · next hop =>
          rw [show Opcode.smallInt? opcode = none by rw [hop.1]; rfl, Option.map_none, ite_self]
      · cases h
  · cases h

/-! ## Small numbers -/

/-- The numbers that have an operation of their own, zero apart. -/
def IsSmall (n : Int) : Prop := n = -1 ∨ (1 ≤ n ∧ n ≤ 16)

theorem magnitude_of_lt {n : Nat} (hpos : n ≠ 0) (hlt : n < 256) :
    ScriptNumber.magnitude n = [UInt8.ofNat n] := by
  rw [ScriptNumber.magnitude, if_neg hpos, Nat.div_eq_of_lt hlt, ScriptNumber.magnitude,
    if_pos rfl]

theorem encode_negative1 : ScriptNumber.encode (-1) = [0x81] := by
  rw [ScriptNumber.encode, show (-1 : Int).natAbs = 1 from rfl, magnitude_of_lt (by decide)
    (by decide)]
  rfl

theorem encode_of_le {n : Nat} (hpos : n ≠ 0) (hle : n ≤ 16) :
    ScriptNumber.encode n = [UInt8.ofNat n] := by
  rw [ScriptNumber.encode, Int.natAbs_natCast, magnitude_of_lt hpos (by omega)]
  have hlow : ∀ n ≤ 16, ScriptNumber.signed false [UInt8.ofNat n] = [UInt8.ofNat n] := by decide
  rw [show decide ((n : Int) < 0) = false by simp]
  exact hlow n hle

/-- Whatever is asked of it, a small number's form is read as that number. -/
theorem eq_of_decode_encode {n width : Nat} {minimal : Bool} {v : Int} (hpos : n ≠ 0)
    (hle : n ≤ 16) (h : ScriptNumber.decode (ScriptNumber.encode n) minimal width = some v) :
    v = n := by
  have hvalue : ∀ n ≤ 16, ScriptNumber.value [UInt8.ofNat n] = n := by decide
  rw [encode_of_le hpos hle, ScriptNumber.decode] at h
  split at h
  · cases h
  · split at h
    · cases h
    · cases h
      exact hvalue n hle

/-- The number that an operation from `OP_1` to `OP_16` pushes. -/
theorem exists_smallInt {opcode : UInt8} (hlow : Opcode.op1 ≤ opcode)
    (hhigh : opcode ≤ Opcode.op16) :
    ∃ n, n ≠ 0 ∧ n ≤ 16 ∧ Opcode.smallInt? opcode = some n ∧ (opcode.toNat : Int) - 0x50 = n := by
  have hl : 0x51 ≤ opcode.toNat := UInt8.le_iff_toNat_le.mp hlow
  have hh : opcode.toNat ≤ 0x60 := UInt8.le_iff_toNat_le.mp hhigh
  refine ⟨opcode.toNat - 0x50, by omega, by omega, ?_, by omega⟩
  have hne : opcode ≠ Opcode.op0 := fun h => absurd hlow (by rw [h]; decide)
  rw [Opcode.smallInt?, if_neg hne, if_pos ⟨hlow, hhigh⟩]

/-- Of a small number's form, taken as a script, nothing runs that checks a signature. -/
theorem inert_of_isSmall {n : Int} (h : IsSmall n) :
    sigOpCount ⟨ScriptNumber.encode n⟩ true = 0 ∧
      witnessProgram? ⟨ScriptNumber.encode n⟩ = none := by
  rcases h with rfl | ⟨hpos, hle⟩
  · rw [encode_negative1]
    exact ⟨rfl, rfl⟩
  · obtain ⟨k, rfl⟩ := Int.eq_ofNat_of_zero_le (a := n) (by omega)
    have hcount : ∀ k ≤ 16, sigOpCount ⟨[UInt8.ofNat k]⟩ true = 0 := by decide
    rw [encode_of_le (by omega) (by omega)]
    exact ⟨hcount k (by omega), rfl⟩

end Script

end StakeChain
