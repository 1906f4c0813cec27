/-
Standard scripts and their parts are found again.

Each recognizer that is tried looks for a form of its own, and what a script decodes to
tells the forms apart: by the first operation, or by how many there are. So the script
that a template builds is passed over by all recognizers before its own. A recognizer
that looks at the operations accepts any push of the right data, but the destinations
with a hash are read off the bytes, and there is one script for each of them; a script
that pays to a key is the only other one with a destination.
-/
import StakeChain.Proofs.ColdStaking
import StakeChain.Proofs.Tiling

namespace StakeChain

/-- The kind of the locking script of a destination. -/
def Destination.kind : Destination → ScriptType
  | keyHash _ => .pubKeyHash
  | witnessKeyHash _ => .witnessV0KeyHash
  | scriptHash _ => .scriptHash
  | witnessScriptHash _ => .witnessV0ScriptHash

namespace Script

variable {s : Script}

/-! ## What the recognizers accept -/

theorem isKeyLength_iff {n : Nat} : isKeyLength n = true ↔ n = 33 ∨ n = 65 := by
  rw [isKeyLength, Bool.or_eq_true, beq_iff_eq, beq_iff_eq]

theorem ofBytes?_bytes {size : Nat} (d : Digest size) : Digest.ofBytes? size d.bytes = some d :=
  dif_pos d.length_bytes

/-- Bytes that start with a hash, cut behind it. -/
theorem eq_append_of_ofBytes? {size : Nat} {rest tail : Bytes} {d : Digest size}
    (h : Digest.ofBytes? size (rest.take size) = some d) (hdrop : rest.drop size = tail) :
    rest = d.bytes ++ tail := by
  rw [← Digest.bytes_of_ofBytes? h, ← hdrop, List.take_append_drop]

theorem eq_of_scriptHash? {hash : Hash160} (h : s.scriptHash? = some hash) :
    s = payTo (.scriptHash hash) := by
  rw [scriptHash?] at h
  split at h
  · next opcode length rest hbytes =>
      split at h
      · next hshape =>
          obtain ⟨rfl, rfl, hdrop⟩ := hshape
          rw [eq_append_of_ofBytes? h hdrop, ← bytes_payToScriptHash] at hbytes
          exact congrArg Script.mk hbytes
      · cases h
  · cases h

theorem eq_of_keyHash? {hash : Hash160} (h : s.keyHash? = some hash) : s = payToKeyHash hash := by
  rw [keyHash?] at h
  split at h
  · next first second length rest hbytes =>
      split at h
      · next hshape =>
          obtain ⟨rfl, rfl, rfl, hdrop⟩ := hshape
          rw [eq_append_of_ofBytes? h hdrop, ← bytes_payToKeyHash] at hbytes
          exact congrArg Script.mk hbytes
      · cases h
  · cases h

theorem keyHash?_payToKeyHash (hash : Hash160) : (payToKeyHash hash).keyHash? = some hash := by
  simp [keyHash?, bytes_payToKeyHash, hash.length_bytes, Digest.ofBytes?]

theorem pubKey?_eq_some_iff {key : Bytes} : s.pubKey? = some key ↔
    ∃ opcode, s.ops = [.push opcode key, .code Opcode.checkSig] ∧ isKeyLength key.length := by
  rw [pubKey?]
  constructor
  · intro h
    split at h
    · next hops =>
        split at h
        · next hshape =>
            obtain ⟨rfl, hlength⟩ := hshape
            cases h
            exact ⟨_, hops, hlength⟩
        · cases h
    · cases h
  · rintro ⟨opcode, hops, hlength⟩
    rw [hops]
    exact if_pos ⟨rfl, hlength⟩

theorem small_of_smallInt? {opcode : UInt8} {n : Nat} (h : Opcode.smallInt? opcode = some n) :
    opcode = Opcode.op0 ∨ opcode > Opcode.pushData4 := by
  rw [Opcode.smallInt?] at h
  split at h
  · next hzero => exact .inl hzero
  · split at h
    · next hsmall => exact .inr (UInt8.lt_of_lt_of_le (by decide) hsmall.1)
    · cases h

/-! ## The operations of what they accept -/

theorem ops_of_isScriptHash (h : s.isScriptHash) :
    ∃ hash : Hash160, s.ops = [.code Opcode.hash160, .push 20 hash.bytes, .code Opcode.equal] := by
  obtain ⟨hash, hhash⟩ := Option.isSome_iff_exists.mp h
  exact ⟨hash, eq_of_scriptHash? hhash ▸ ops_payToScriptHash hash⟩

/-- A witness program is a small number and one push. -/
theorem ops_of_witnessProgram? {version : Nat} {program : Bytes}
    (h : s.witnessProgram? = some (version, program)) :
    ∃ first opcode, s.ops = [first, .push opcode program] ∧
      Opcode.smallInt? first.opcode = some version := by
  obtain ⟨first, length, hbytes, hversion, hlength, hle⟩ := witnessProgram?_eq_some h
  have hshort : length < Opcode.pushData1 := UInt8.lt_iff_toNat_lt.mpr (by
    rw [hlength]
    exact Nat.lt_of_le_of_lt hle (by decide))
  have hops : s.ops = ops ⟨first :: length :: program⟩ := by rw [← hbytes]
  rcases small_of_smallInt? hversion with rfl | hgt
  · rw [ops_pushes hshort hlength.symm] at hops
    exact ⟨_, _, hops, hversion⟩
  · have hpush := Op.decode_append hshort hlength.symm []
    rw [List.append_nil] at hpush
    rw [ops_of_decode (Op.decode_of_gt hgt _), ops_of_decode hpush, ops_nil] at hops
    exact ⟨_, _, hops, hversion⟩

theorem ops_of_isNullData (h : s.isNullData) : ∃ ops, s.ops = .code Opcode.halt :: ops := by
  obtain ⟨bytes⟩ := s
  cases bytes with
  | nil => cases h
  | cons opcode rest =>
      obtain ⟨hhalt, -⟩ := Bool.and_eq_true_iff.mp h
      obtain rfl := beq_iff_eq.mp hhalt
      exact ⟨_, ops_of_decode (Op.decode_of_gt (by decide) rest)⟩

/-! ## Recognizers that pass a script over -/

section Passed

variable {op : Op} {ops : List Op} (hops : s.ops = op :: ops)
include hops

theorem isScriptHash_eq_false (hop : op ≠ .code Opcode.hash160) : s.isScriptHash = false := by
  refine Bool.eq_false_iff.mpr fun h => hop ?_
  obtain ⟨hash, heq⟩ := ops_of_isScriptHash h
  exact (List.cons.inj (hops.symm.trans heq)).1

theorem scriptHash?_eq_none (hop : op ≠ .code Opcode.hash160) : s.scriptHash? = none :=
  Option.isNone_iff_eq_none.mp (Option.isSome_eq_false_iff.mp (isScriptHash_eq_false hops hop))

theorem witnessProgram?_eq_none (hshape : Opcode.smallInt? op.opcode = none ∨
    ∀ opcode program, ops ≠ [.push opcode program]) : s.witnessProgram? = none := by
  refine Option.eq_none_iff_forall_ne_some.mpr fun ⟨version, program⟩ h => ?_
  obtain ⟨first, opcode, heq, hversion⟩ := ops_of_witnessProgram? h
  obtain ⟨rfl, rfl⟩ := List.cons.inj (hops.symm.trans heq)
  rcases hshape with hsmall | hpush
  · rw [hsmall] at hversion
    cases hversion
  · exact hpush _ _ rfl

theorem isNullData_eq_false (hop : op ≠ .code Opcode.halt) : s.isNullData = false := by
  refine Bool.eq_false_iff.mpr fun h => hop ?_
  obtain ⟨ops', heq⟩ := ops_of_isNullData h
  exact (List.cons.inj (hops.symm.trans heq)).1

theorem pubKey?_eq_none (hshape : ∀ opcode, ops ≠ [.code opcode]) : s.pubKey? = none := by
  refine Option.eq_none_iff_forall_ne_some.mpr fun key h => hshape Opcode.checkSig ?_
  obtain ⟨opcode, heq, -⟩ := pubKey?_eq_some_iff.mp h
  exact (List.cons.inj (hops.symm.trans heq)).2

theorem keyHash?_eq_none (hshape : op ≠ .code Opcode.dup ∨ ops.length ≠ 4) :
    s.keyHash? = none := by
  refine Option.eq_none_iff_forall_ne_some.mpr fun hash h => ?_
  rw [eq_of_keyHash? h, ops_payToKeyHash] at hops
  obtain ⟨rfl, rfl⟩ := List.cons.inj hops
  exact hshape.elim (· rfl) (· rfl)

theorem multisig?_eq_none (hop : smallIntOf? op = none) : s.multisig? = none := by
  rw [multisig?, hops]
  dsimp only
  split
  · rw [hop]
    split <;> rfl
  · rfl

/-- The recognizers of hashes, of witness programs and of data pass a script over. -/
theorem classify_of_passed (hhash : op ≠ .code Opcode.hash160) (hhalt : op ≠ .code Opcode.halt)
    (hshape : ∀ opcode program, ops ≠ [.push opcode program]) :
    s.classify = if s.pubKey?.isSome then .pubKey
      else if s.keyHash?.isSome then .pubKeyHash
      else if s.multisig?.isSome then .multisig
      else if s.coldStaking?.isSome then .coldStaking
      else .nonStandard := by
  rw [classify, isScriptHash_eq_false hops hhash, witnessProgram?_eq_none hops (.inr hshape),
    isNullData_eq_false hops hhalt]
  rfl

theorem destination?_of_keyHash? (hhash : op ≠ .code Opcode.hash160)
    (hshape : ∀ opcode program, ops ≠ [.push opcode program]) {hash : Hash160}
    (hkey : s.keyHash? = some hash) : s.destination? = some (.keyHash hash) := by
  rw [destination?, scriptHash?_eq_none hops hhash, witnessProgram?_eq_none hops (.inr hshape),
    hkey]

end Passed

/-! ## A single key -/

theorem length_lt_of_isKeyLength {key : Bytes} (h : isKeyLength key.length) :
    key.length < 2 ^ 32 := by
  rcases isKeyLength_iff.mp h with h | h <;> rw [h] <;> decide

theorem ops_payToPubKey {key : Bytes} (h : isKeyLength key.length) :
    (payToPubKey key).ops = [Op.ofData key, .code Opcode.checkSig] := by
  have hfits : ∀ op ∈ [Op.ofData key, .code Opcode.checkSig], op.Fits := by
    rw [List.forall_mem_cons, List.forall_mem_singleton]
    exact ⟨Op.fits_ofData (length_lt_of_isKeyLength h), (by decide : _ > Opcode.pushData4)⟩
  rw [← ops_ofOps hfits, payToPubKey, pushData_eq, ofOps]
  rfl

theorem pubKey?_payToPubKey {key : Bytes} (h : isKeyLength key.length) :
    (payToPubKey key).pubKey? = some key :=
  pubKey?_eq_some_iff.mpr ⟨_, ops_payToPubKey h, h⟩

/-- Whatever pays to a key is told as that. -/
theorem classify_of_pubKey? {key : Bytes} (h : s.pubKey? = some key) : s.classify = .pubKey := by
  obtain ⟨opcode, hops, -⟩ := pubKey?_eq_some_iff.mp h
  rw [classify_of_passed hops nofun nofun (by simp), h]
  rfl

theorem destination?_of_pubKey? {key : Bytes} (h : s.pubKey? = some key) :
    s.destination? = some (.keyHash (StakeChain.hash160 key)) := by
  obtain ⟨opcode, hops, -⟩ := pubKey?_eq_some_iff.mp h
  rw [destination?, scriptHash?_eq_none hops nofun, witnessProgram?_eq_none hops (.inr (by simp)),
    keyHash?_eq_none hops (.inl nofun), h]
  rfl

/-! ## Destinations -/

section Witness

variable {version : Nat} {program : Bytes}

theorem scriptHash?_of_witnessProgram? (h : s.witnessProgram? = some (version, program)) :
    s.scriptHash? = none := by
  refine Option.eq_none_iff_forall_ne_some.mpr fun hash hhash => ?_
  rw [witnessProgram?_of_isScriptHash (Option.isSome_of_eq_some hhash)] at h
  cases h

theorem classify_of_witnessProgram? (h : s.witnessProgram? = some (version, program)) :
    s.classify = witnessType version program := by
  rw [classify, isScriptHash, scriptHash?_of_witnessProgram? h, h]
  rfl

theorem destination?_of_witnessProgram? (h : s.witnessProgram? = some (0, program)) :
    s.destination? = witnessDestination? program := by
  rw [destination?, scriptHash?_of_witnessProgram? h, h]
  rfl

end Witness

/-- A hash of up to forty bytes as a witness program. -/
theorem witnessProgram?_bytes {size : Nat} (hash : Digest size) (hlow : 2 ≤ size)
    (hhigh : size ≤ 40) :
    witnessProgram? ⟨Opcode.op0 :: pushData hash.bytes⟩ = some (0, hash.bytes) :=
  witnessProgram?_of_length (hlow.trans_eq hash.length_bytes.symm)
    (hash.length_bytes.trans_le hhigh)

theorem classify_payTo (d : Destination) : (payTo d).classify = d.kind := by
  cases d with
  | keyHash hash =>
      change (payToKeyHash hash).classify = .pubKeyHash
      rw [classify_of_passed (ops_payToKeyHash hash) (by decide) (by decide) (by simp),
        pubKey?_eq_none (ops_payToKeyHash hash) (by simp), keyHash?_payToKeyHash]
      rfl
  | scriptHash hash =>
      rw [classify, if_pos (isScriptHash_payToScriptHash hash)]
      rfl
  | witnessKeyHash hash =>
      change classify ⟨Opcode.op0 :: pushData hash.bytes⟩ = .witnessV0KeyHash
      rw [classify_of_witnessProgram? (witnessProgram?_bytes hash (by decide) (by decide)),
        witnessType, hash.length_bytes]
      rfl
  | witnessScriptHash hash =>
      change classify ⟨Opcode.op0 :: pushData hash.bytes⟩ = .witnessV0ScriptHash
      rw [classify_of_witnessProgram? (witnessProgram?_bytes hash (by decide) (by decide)),
        witnessType, hash.length_bytes]
      rfl

theorem destination?_payTo (d : Destination) : (payTo d).destination? = some d := by
  cases d with
  | keyHash hash =>
      change (payToKeyHash hash).destination? = some (.keyHash hash)
      exact destination?_of_keyHash? (ops_payToKeyHash hash) (by decide) (by simp)
        (keyHash?_payToKeyHash hash)
  | scriptHash hash => rw [destination?, scriptHash?_payToScriptHash]
  | witnessKeyHash hash =>
      change destination? ⟨Opcode.op0 :: pushData hash.bytes⟩ = some (.witnessKeyHash hash)
      rw [destination?_of_witnessProgram? (witnessProgram?_bytes hash (by decide) (by decide)),
        witnessDestination?, ofBytes?_bytes]
  | witnessScriptHash hash =>
      have hshort : Digest.ofBytes? 20 hash.bytes = none :=
        dif_neg (by rw [hash.length_bytes]; decide)
      change destination? ⟨Opcode.op0 :: pushData hash.bytes⟩ = some (.witnessScriptHash hash)
      rw [destination?_of_witnessProgram? (witnessProgram?_bytes hash (by decide) (by decide)),
        witnessDestination?, hshort, ofBytes?_bytes]
      rfl

/-- The destinations with a hash are read off the bytes, so no other script has them; paying to a
key is told by its operations. -/
theorem payTo_or_pubKey_of_destination? {d : Destination} (h : s.destination? = some d) :
    s = payTo d ∨ ∃ opcode key, s.ops = [.push opcode key, .code Opcode.checkSig] ∧
      isKeyLength key.length ∧ d = .keyHash (StakeChain.hash160 key) := by
  rw [destination?] at h
  split at h
  · next hash hhash =>
      cases h
      exact .inl (eq_of_scriptHash? hhash)
  · split at h
    · next program hprogram =>
        refine .inl (eq_of_witnessProgram?_zero hprogram |>.trans ?_)
        rw [witnessDestination?] at h
        split at h
        · next hash hhash =>
            cases h
            rw [Digest.bytes_of_ofBytes? hhash]
            rfl
        · obtain ⟨hash, hhash, rfl⟩ := Option.map_eq_some_iff.mp h
          rw [Digest.bytes_of_ofBytes? hhash]
          rfl
    · split at h
      · next hash hhash =>
          cases h
          exact .inl (eq_of_keyHash? hhash)
      · obtain ⟨key, hkey, rfl⟩ := Option.map_eq_some_iff.mp h
        obtain ⟨opcode, hops, hlength⟩ := pubKey?_eq_some_iff.mp hkey
        exact .inr ⟨opcode, key, hops, hlength, rfl⟩

/-! ## Several keys -/

theorem smallInt?_ofSmallInt : ∀ n ≤ 16, Opcode.smallInt? (Opcode.ofSmallInt n) = some n := by
  decide

theorem ofSmallInt_gt : ∀ n ≤ 16, 1 ≤ n → Opcode.ofSmallInt n > Opcode.pushData4 := by
  decide

/-- The operations of a multisig script. -/
def multisigOps (required : Nat) (keys : List Bytes) : List Op :=
  .code (Opcode.ofSmallInt required) :: (keys.map Op.ofData ++
    [.code (Opcode.ofSmallInt keys.length), .code Opcode.checkMultisig])

theorem multisig_eq_ofOps (required : Nat) (keys : List Bytes) :
    multisig required keys = ofOps (multisigOps required keys) := by
  have hpushes : keys.flatMap pushData = (keys.map Op.ofData).flatMap Op.encode := by
    rw [List.flatMap_map, funext pushData_eq]
  rw [multisig, hpushes, ofOps, multisigOps, List.flatMap_cons, List.flatMap_append]
  rfl

theorem mapM_keyOf? {keys : List Bytes} (hkeys : ∀ key ∈ keys, isKeyLength key.length) :
    (keys.map Op.ofData).mapM keyOf? = some keys := by
  induction keys with
  | nil => rfl
  | cons key keys ih =>
      obtain ⟨hkey, hkeys⟩ := List.forall_mem_cons.mp hkeys
      rw [List.map_cons, List.mapM_cons, ih hkeys, Op.ofData, keyOf?, if_pos hkey]
      rfl

section Multisig

variable {required : Nat} {keys : List Bytes} (hpos : 1 ≤ required) (hle : required ≤ keys.length)
  (hmax : keys.length ≤ 16) (hkeys : ∀ key ∈ keys, isKeyLength key.length)
include hpos hle hmax hkeys

theorem ops_multisig : (multisig required keys).ops = multisigOps required keys := by
  rw [multisig_eq_ofOps]
  refine ops_ofOps ?_
  rw [multisigOps, List.forall_mem_cons, List.forall_mem_append, List.forall_mem_map,
    List.forall_mem_cons, List.forall_mem_singleton]
  exact ⟨ofSmallInt_gt _ (hle.trans hmax) hpos,
    fun key hkey => Op.fits_ofData (length_lt_of_isKeyLength (hkeys key hkey)),
    ofSmallInt_gt _ hmax (hpos.trans hle), (by decide : _ > Opcode.pushData4)⟩

theorem multisig?_multisig : (multisig required keys).multisig? = some (required, keys) := by
  rw [multisig?, ops_multisig hpos hle hmax hkeys, multisigOps]
  simp only [List.reverse_append, List.reverse_cons, List.reverse_nil, List.nil_append,
    List.cons_append, List.reverse_reverse, smallIntOf?, smallInt?_ofSmallInt _ hmax,
    smallInt?_ofSmallInt _ (hle.trans hmax), mapM_keyOf? hkeys, ne_eq, not_true_eq_false,
    if_false, Nat.not_lt.mpr hpos, Nat.not_lt.mpr hle, gt_iff_lt, or_false, Option.bind_eq_bind,
    Option.bind_some, Option.pure_def]

theorem classify_multisig : (multisig required keys).classify = .multisig := by
  have hops := ops_multisig hpos hle hmax hkeys
  rw [multisigOps] at hops
  have hfirst : ∀ opcode, Opcode.smallInt? opcode = none →
      Op.code (Opcode.ofSmallInt required) ≠ .code opcode := fun opcode hnone heq => by
    rw [← Op.code.inj heq, smallInt?_ofSmallInt _ (hle.trans hmax)] at hnone
    cases hnone
  have hrest : ∀ op, keys.map Op.ofData ++
      [.code (Opcode.ofSmallInt keys.length), .code Opcode.checkMultisig] ≠ [op] :=
    fun op heq => by simpa using congrArg List.length heq
  rw [classify_of_passed hops (hfirst _ rfl) (hfirst _ rfl) fun _ _ => hrest _,
    pubKey?_eq_none hops fun _ => hrest _, keyHash?_eq_none hops (.inl (hfirst _ rfl)),
    multisig?_multisig hpos hle hmax hkeys]
  rfl

end Multisig

/-! ## Cold staking and data -/

theorem classify_payToColdStaking (hot cold : Hash160) :
    (payToColdStaking hot cold).classify = .coldStaking := by
  have hops := ops_payToColdStaking hot cold
  rw [classify_of_passed hops (by decide) (by decide) (by simp), pubKey?_eq_none hops (by simp),
    keyHash?_eq_none hops (.inr (by simp)), multisig?_eq_none hops rfl,
    coldStaking?_payToColdStaking]
  rfl

/-- What carries data is told as such, if the length of the data has a place in the four bytes
that the largest push opcode provides for it. -/
theorem classify_nullData {data : Bytes} (h : data.length < 2 ^ 32) :
    (nullData data).classify = .nullData := by
  have hfits : ∀ op ∈ [Op.ofData data], op.Fits :=
    List.forall_mem_singleton.mpr (Op.fits_ofData h)
  have hpush : pushData data = (ofOps [Op.ofData data]).bytes := by
    rw [pushData_eq, ofOps, List.flatMap_singleton]
  have hops : (nullData data).ops = .code Opcode.halt :: [Op.ofData data] := by
    rw [nullData, ops_of_decode (Op.decode_of_gt (by decide) _), hpush, ops_ofOps hfits]
  have hdata : (nullData data).isNullData = true := by
    have hopcode : (Op.ofData data).opcode ≤ Opcode.op16 :=
      UInt8.le_trans (Op.fits_ofData h).1 (by decide)
    have honly : (ofOps [Op.ofData data]).isPushOnly = true := by
      rw [isPushOnly, ops_ofOps hfits, List.all_cons, (Op.fits_ofData h).isValid,
        decide_eq_true hopcode]
      rfl
    rw [nullData, isNullData, hpush]
    exact honly
  rw [classify, isScriptHash_eq_false hops (by decide), witnessProgram?_eq_none hops (.inl rfl),
    hdata]
  rfl

/-- Data of so many bytes stands loose behind the push, and is read as operations. The first one
need not be a push. -/
theorem ops_nullData_overlong {opcode : UInt8} {rest : Bytes}
    (hlength : (opcode :: rest).length = 2 ^ 32) (hopcode : opcode > Opcode.pushData4) :
    ops ⟨pushData (opcode :: rest)⟩ =
      .push Opcode.pushData4 [] :: .code opcode :: ops ⟨rest⟩ := by
  rw [pushData_overlong hlength, ops_of_decode (Op.decode_encode (by decide) _),
    ops_of_decode (Op.decode_of_gt hopcode rest)]

theorem classify_nullData_overlong {opcode : UInt8} {rest : Bytes}
    (hlength : (opcode :: rest).length = 2 ^ 32) (hopcode : opcode > Opcode.op16) :
    (nullData (opcode :: rest)).classify = .nonStandard := by
  have hpush := ops_nullData_overlong hlength (UInt8.lt_trans (by decide) hopcode)
  have hops : (nullData (opcode :: rest)).ops =
      .code Opcode.halt :: .push Opcode.pushData4 [] :: .code opcode :: ops ⟨rest⟩ := by
    rw [nullData, ops_of_decode (Op.decode_of_gt (by decide) _), hpush]
  have hdata : (nullData (opcode :: rest)).isNullData = false := by
    have hcode : decide (opcode ≤ Opcode.op16) = false :=
      decide_eq_false (UInt8.not_le.mpr hopcode)
    change isPushOnly ⟨pushData (opcode :: rest)⟩ = false
    rw [isPushOnly, hpush, List.all_cons, List.all_cons, Op.opcode, Op.opcode, hcode]
    simp
  have hcold : (nullData (opcode :: rest)).coldStaking? = none := by
    rw [coldStaking?, hops]
  rw [classify, isScriptHash_eq_false hops (by decide), witnessProgram?_eq_none hops (.inl rfl),
    hdata, pubKey?_eq_none hops (by simp), keyHash?_eq_none hops (.inl (by decide)),
    multisig?_eq_none hops rfl, hcold]
  rfl

/-! ## Both ways -/

/-- Each template is recognized as its own kind and nothing else, with what it was built from, and
data if a push can hold it; and a script with a destination is the one that is built for it, or
pays to a key that has the hash. -/
theorem templates_recognized :
    (∀ required keys, 1 ≤ required → required ≤ keys.length → keys.length ≤ 16 →
      (∀ key ∈ keys, key.length = 33 ∨ key.length = 65) →
      (multisig required keys).classify = .multisig ∧
        (multisig required keys).multisig? = some (required, keys)) ∧
    (∀ key : Bytes, key.length = 33 ∨ key.length = 65 →
      (payToPubKey key).classify = .pubKey ∧ (payToPubKey key).pubKey? = some key ∧
        (payToPubKey key).destination? = some (.keyHash (StakeChain.hash160 key))) ∧
    (∀ d, (payTo d).classify = d.kind ∧ (payTo d).destination? = some d) ∧
    (∀ hot cold, (payToColdStaking hot cold).classify = .coldStaking ∧
      (payToColdStaking hot cold).coldStaking? = some (hot, cold)) ∧
    (∀ data : Bytes, data.length < 2 ^ 32 → (nullData data).classify = .nullData) ∧
    ∀ (s : Script) d, s.destination? = some d → s = payTo d ∨
      s.classify = .pubKey ∧ ∃ opcode key, s.ops = [.push opcode key, .code Opcode.checkSig] ∧
        s.pubKey? = some key ∧ d = .keyHash (StakeChain.hash160 key) := by
  refine ⟨fun required keys hpos hle hmax hkeys => ?_, fun key hkey => ?_,
    fun d => ⟨classify_payTo d, destination?_payTo d⟩,
    fun hot cold => ⟨classify_payToColdStaking hot cold, coldStaking?_payToColdStaking hot cold⟩,
    fun data hdata => classify_nullData hdata, fun s d h => ?_⟩
  · have hkeys : ∀ key ∈ keys, isKeyLength key.length :=
      fun key hkey => isKeyLength_iff.mpr (hkeys key hkey)
    exact ⟨classify_multisig hpos hle hmax hkeys, multisig?_multisig hpos hle hmax hkeys⟩
  · have hkey := isKeyLength_iff.mpr hkey
    have hfound := pubKey?_payToPubKey hkey
    exact ⟨classify_of_pubKey? hfound, hfound, destination?_of_pubKey? hfound⟩
  · refine (payTo_or_pubKey_of_destination? h).imp_right ?_
    rintro ⟨opcode, key, hops, hlength, rfl⟩
    have hkey := pubKey?_eq_some_iff.mpr ⟨opcode, hops, hlength⟩
    exact ⟨classify_of_pubKey? hkey, opcode, key, hops, hkey, rfl⟩

/-- A single key alone and in a multisig script, no data, and a script with a destination that
pushes its key with an opcode larger than needed. -/
theorem templates_recognized_key :
    let key : Bytes := List.replicate 33 2
    let loose : Script := ⟨Opcode.pushData1 :: 33 :: (key ++ [Opcode.checkSig])⟩
    (multisig 1 [key]).classify = .multisig ∧ (payToPubKey key).pubKey? = some key ∧
      (nullData []).classify = .nullData ∧ loose ≠ payToPubKey key ∧ loose.classify = .pubKey := by
  intro key loose
  obtain ⟨hmultisig, hpubKey, -, -, hdata, hdestination⟩ := templates_recognized
  have hops : loose.ops = [.push Opcode.pushData1 key, .code Opcode.checkSig] := by decide
  have hkey : loose.pubKey? = some key := pubKey?_eq_some_iff.mpr ⟨_, hops, rfl⟩
  have hloose := destination?_of_pubKey? hkey
  have hne : loose ≠ payToKeyHash (StakeChain.hash160 key) := fun heq => by
    rw [heq, ops_payToKeyHash] at hops
    cases hops
  refine ⟨(hmultisig 1 [key] (by decide) (by decide) (by decide) (by decide)).1,
    (hpubKey key (.inl rfl)).2.1, hdata [] (by decide), by decide,
    ((hdestination loose _ hloose).resolve_left hne).1⟩

/-- One byte more of data than a push can hold, which starts with a check of a signature and goes on
with a push that runs out. -/
theorem nullData_of_overlong :
    let data : Bytes := Opcode.checkSig ::
      ([Opcode.pushData4, 0xff, 0xff, 0xff, 0xff] ++ List.replicate (2 ^ 32 - 6) 0)
    data.length = 2 ^ 32 ∧ (nullData data).classify = .nonStandard := by
  intro data
  have hlength : data.length = 2 ^ 32 := by
    rw [List.length_cons, List.length_append, List.length_replicate]
    rfl
  exact ⟨hlength, classify_nullData_overlong hlength (by decide)⟩

end Script

end StakeChain
