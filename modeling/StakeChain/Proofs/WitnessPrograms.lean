/-
Coins that pay to witness programs, and what they tell a signer.

A witness program of version zero commits to the hash of a key or to a script, and a coin
pays to it as it stands or behind a script hash. So there are four shapes, and each of the
two choices is made once here: what is committed to is data, and how a coin pays to it a
case. A coin tells its signer which script a signature commits to from what it
keeps. Where the script behind a program looks like the program of a key hash, it is
taken for one.
-/
import StakeChain.Coin
import StakeChain.Proofs.Operations

namespace StakeChain

/-! ## Coins that pay to witness programs -/

/-- What a witness program of version zero commits to. -/
inductive WitnessLock where
  | keyHash (hash : Hash160)
  | script (s : Script)

namespace WitnessLock

/-- The bytes of the program. -/
def hash : WitnessLock → Bytes
  | keyHash hash => hash.bytes
  | script s => (sha256 s.bytes).bytes

/-- The program as a script. -/
def program : WitnessLock → Script
  | keyHash hash => Script.payTo (.witnessKeyHash hash)
  | script s => Coin.witnessProgramOf s

/-- The script that the witness is run on. -/
def code : WitnessLock → Script
  | keyHash hash => Script.payToKeyHash hash
  | script s => s

/-- The script that is kept with a coin behind a script hash. -/
def kept : WitnessLock → Script
  | keyHash hash => Script.payTo (.witnessKeyHash hash)
  | script s => s

/-- The script that is kept with a bare coin, if any. -/
def keptBare : WitnessLock → Option Script
  | keyHash _ => none
  | script s => some s

end WitnessLock

/-- A coin pays to a witness program of version zero, and keeps the script that a signer needs. -/
inductive Coin.PaysTo (c : Coin) (lock : WitnessLock) : Prop
  | bare (output : c.output.script = lock.program) (redeem : c.redeemScript = lock.keptBare)
  | nested (output : c.output.script = Script.payTo (.scriptHash (hash160 lock.program.bytes)))
      (redeem : c.redeemScript = some lock.kept)

/-! ## The scripts -/

theorem Digest.bytes_of_ofBytes? {size : Nat} {bs : Bytes} {d : Digest size}
    (h : ofBytes? size bs = some d) : bs = d.bytes := by
  rw [ofBytes?] at h
  split at h
  · cases h
    rfl
  · cases h

namespace Script

theorem opsWithin_nil (fuel : Nat) : opsWithin fuel [] = [] := by
  cases fuel with
  | zero => rfl
  | succ fuel => rfl

theorem opsWithin_append {opcode : UInt8} (h : opcode < Opcode.pushData1) {data : Bytes}
    (hdata : data.length = opcode.toNat) (fuel : Nat) (rest : Bytes) :
    opsWithin (fuel + 1) (opcode :: (data ++ rest)) = .push opcode data :: opsWithin fuel rest := by
  rw [opsWithin, Op.decode_append h hdata rest]

/-- An empty push and one of as many bytes as its first byte says. -/
theorem ops_pushes {opcode : UInt8} (h : opcode < Opcode.pushData1) {data : Bytes}
    (hdata : data.length = opcode.toNat) :
    ops ⟨Opcode.op0 :: opcode :: data⟩ = [.push Opcode.op0 [], .push opcode data] := by
  have hfirst : opsWithin (data.length + 1 + 1) (Opcode.op0 :: ([] ++ opcode :: data)) =
      .push Opcode.op0 [] :: opsWithin (data.length + 1) (opcode :: data) :=
    opsWithin_append (by decide) rfl _ _
  have hsecond := opsWithin_append h hdata data.length []
  rw [List.append_nil, opsWithin_nil] at hsecond
  rw [ops_eq]
  exact hfirst.trans (congrArg _ hsecond)

/-- Nothing and up to forty bytes, pushed, are a witness program of version zero. -/
theorem witnessProgram?_of_length {program : Bytes} (hlow : 2 ≤ program.length)
    (hhigh : program.length ≤ 40) :
    witnessProgram? ⟨Opcode.op0 :: pushData program⟩ = some (0, program) := by
  have hlength : (UInt8.ofNat program.length).toNat = program.length := by
    rw [UInt8.toNat_ofNat']
    omega
  rw [pushData, if_pos (by omega), witnessProgram?]
  dsimp only
  rw [if_neg (by omega)]
  rfl

end Script

namespace WitnessLock

variable (lock : WitnessLock)

theorem length_hash : lock.hash.length = 20 ∨ lock.hash.length = 32 := by
  cases lock with
  | keyHash hash => exact .inl hash.length_bytes
  | script s => exact .inr (sha256 s.bytes).length_bytes

theorem program_eq : lock.program = ⟨Opcode.op0 :: Script.pushData lock.hash⟩ := by
  cases lock with
  | keyHash hash => rfl
  | script s => rfl

theorem bytes_program :
    lock.program.bytes = Opcode.op0 :: UInt8.ofNat lock.hash.length :: lock.hash := by
  have hlength := lock.length_hash
  rw [program_eq, Script.pushData, if_pos (by omega)]

theorem witnessProgram?_program : lock.program.witnessProgram? = some (0, lock.hash) := by
  have hlength := lock.length_hash
  rw [program_eq, Script.witnessProgram?_of_length (by omega) (by omega)]

/-- A program pushes nothing and its bytes, and does no more. -/
theorem ops_program : lock.program.ops =
    [.push Opcode.op0 [], .push (UInt8.ofNat lock.hash.length) lock.hash] := by
  change Script.ops ⟨lock.program.bytes⟩ = _
  rw [bytes_program]
  rcases lock.length_hash with hlength | hlength
  · rw [hlength]
    exact Script.ops_pushes (by decide) hlength
  · rw [hlength]
    exact Script.ops_pushes (by decide) hlength

theorem isScriptHash_program : lock.program.isScriptHash = false := by
  by_contra h
  have hnone := Script.witnessProgram?_of_isScriptHash (Bool.eq_true_of_not_eq_false h)
  rw [witnessProgram?_program] at hnone
  cases hnone

end WitnessLock

namespace Script

theorem bytes_payToScriptHash (hash : Hash160) :
    (payTo (.scriptHash hash)).bytes =
      Opcode.hash160 :: 20 :: (hash.bytes ++ [Opcode.equal]) := by
  simp [payTo, pushData, hash.length_bytes]

theorem length_payToScriptHash (hash : Hash160) :
    (payTo (.scriptHash hash)).bytes.length = 23 := by
  simp [bytes_payToScriptHash, hash.length_bytes]

theorem scriptHash?_payToScriptHash (hash : Hash160) :
    (payTo (.scriptHash hash)).scriptHash? = some hash := by
  simp [scriptHash?, bytes_payToScriptHash, hash.length_bytes, Digest.ofBytes?]

theorem isScriptHash_payToScriptHash (hash : Hash160) :
    (payTo (.scriptHash hash)).isScriptHash = true := by
  rw [isScriptHash, scriptHash?_payToScriptHash]
  rfl

theorem ops_payToScriptHash (hash : Hash160) : (payTo (.scriptHash hash)).ops =
    [.code Opcode.hash160, .push 20 hash.bytes, .code Opcode.equal] := by
  rw [ops_eq, length_payToScriptHash, bytes_payToScriptHash, opsWithin, Op.decode_of_gt (by decide)]
  dsimp only
  rw [opsWithin_append (by decide) hash.length_bytes, opsWithin, Op.decode_of_gt (by decide)]
  dsimp only
  rw [opsWithin_nil]

theorem witnessProgram?_eq_some {s : Script} {version : Nat} {program : Bytes}
    (h : s.witnessProgram? = some (version, program)) :
    ∃ opcode length, s.bytes = opcode :: length :: program ∧
      Opcode.smallInt? opcode = some version ∧ length.toNat = program.length ∧
      program.length ≤ 40 := by
  rw [witnessProgram?] at h
  split at h
  · next opcode length program' heq =>
      split at h
      · cases h
      · next hlength =>
          obtain ⟨version', hversion, hpair⟩ := Option.map_eq_some_iff.mp h
          cases hpair
          push Not at hlength
          exact ⟨opcode, length, heq, hversion, hlength.2.2, hlength.2.1⟩
  · cases h

theorem eq_op0_of_smallInt? {opcode : UInt8} (h : Opcode.smallInt? opcode = some 0) :
    opcode = Opcode.op0 := by
  rw [Opcode.smallInt?] at h
  split at h
  · assumption
  · split at h
    · next hsmall =>
        have hlow : 0x51 ≤ opcode.toNat := UInt8.le_iff_toNat_le.mp hsmall.1
        have hzero : opcode.toNat - 0x50 = 0 := Option.some.inj h
        omega
    · cases h

/-- A witness program of version zero is an empty push and a push of the program. -/
theorem eq_of_witnessProgram?_zero {s : Script} {program : Bytes}
    (h : s.witnessProgram? = some (0, program)) : s = ⟨Opcode.op0 :: pushData program⟩ := by
  obtain ⟨opcode, length, hbytes, hopcode, hlength, hle⟩ := witnessProgram?_eq_some h
  obtain rfl := eq_op0_of_smallInt? hopcode
  rw [pushData, if_pos (by omega), ← hlength, UInt8.ofNat_toNat]
  exact congrArg Script.mk hbytes

/-- A script that looks like the program of a key hash is one. -/
theorem eq_of_witnessProgram? {s : Script} {hash : Hash160}
    (h : s.witnessProgram? = some (0, hash.bytes)) : s = (WitnessLock.keyHash hash).program :=
  (eq_of_witnessProgram?_zero h).trans (WitnessLock.keyHash hash).program_eq.symm

end Script

/-! ## What a coin tells -/

namespace Coin

variable {c : Coin} {lock : WitnessLock}

theorem PaysTo.innerScript_eq (h : c.PaysTo lock) : c.innerScript = lock.kept := by
  rw [innerScript]
  cases h with
  | bare output redeem =>
      rw [output, redeem]
      cases lock with
      | keyHash hash => rfl
      | script s => rfl
  | nested output redeem =>
      rw [redeem]
      rfl

/-- The program of a key hash stands for the script that pays to the key hash. -/
theorem scriptCode_of_keyHash {hash : Hash160}
    (h : c.innerScript = (WitnessLock.keyHash hash).program) :
    c.scriptCode = Script.payToKeyHash hash := by
  have hdigest : Digest.ofBytes? 20 (WitnessLock.keyHash hash).hash = some hash :=
    dif_pos hash.length_bytes
  rw [scriptCode, h, WitnessLock.witnessProgram?_program]
  simp only [hdigest]

/-- A coin tells the script that the witness is run on, or that script is a program itself. -/
theorem PaysTo.scriptCode_eq (h : c.PaysTo lock) :
    c.scriptCode = lock.code ∨ ∃ hash, lock.code = (WitnessLock.keyHash hash).program := by
  have hinner := h.innerScript_eq
  cases lock with
  | keyHash hash => exact .inl (scriptCode_of_keyHash hinner)
  | script s =>
      change c.innerScript = s at hinner
      change c.scriptCode = s ∨ ∃ hash, s = _
      rw [scriptCode, hinner]
      split
      · next program hprogram =>
          split
          · next hash hdigest =>
              refine .inr ⟨hash, Script.eq_of_witnessProgram? ?_⟩
              rw [hprogram, Digest.bytes_of_ofBytes? hdigest]
          · exact .inl rfl
      · exact .inl rfl

theorem PaysTo.hashVersion_eq (h : c.PaysTo lock) : c.hashVersion = .witnessV0 := by
  rw [hashVersion]
  cases h with
  | bare output redeem =>
      rw [output, Script.isWitnessProgram, lock.witnessProgram?_program]
      rfl
  | nested output redeem =>
      have hnone : (Script.payTo (.scriptHash (hash160 lock.program.bytes))).isWitnessProgram =
          false := by
        rw [Script.isWitnessProgram, Script.witnessProgram?_of_isScriptHash
          (Script.isScriptHash_payToScriptHash _)]
        rfl
      have hnests : nestsWitness (hash160 lock.program.bytes) lock.kept = true := by
        rw [nestsWitness, Bool.or_eq_true]
        cases lock with
        | keyHash hash =>
            refine .inl ?_
            change (WitnessLock.keyHash hash).program.isWitnessProgram = true
            rw [Script.isWitnessProgram, WitnessLock.witnessProgram?_program]
            rfl
        | script s => exact .inr (beq_self_eq_true _)
      rw [output, redeem, Script.scriptHash?_payToScriptHash, hnone, if_neg Bool.false_ne_true]
      dsimp only
      rw [if_pos hnests]

end Coin

end StakeChain
