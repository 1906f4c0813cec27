/-
Standard locking scripts.

Each template has a builder and a recognizer. Recognizers look at the
decoded operations or at the bytes; a script carries no tag.
-/
import StakeChain.Script

namespace StakeChain

/-- Whom an output pays. -/
inductive Destination where
  | keyHash (hash : Hash160)
  | witnessKeyHash (hash : Hash160)
  | scriptHash (hash : Hash160)
  | witnessScriptHash (hash : Digest 32)
deriving DecidableEq

/-- The kinds of locking scripts that are told apart. -/
inductive ScriptType where
  | nonStandard
  | pubKey
  | pubKeyHash
  | scriptHash
  | multisig
  | nullData
  | witnessV0KeyHash
  | witnessV0ScriptHash
  | witnessUnknown
  | coldStaking
deriving DecidableEq, Repr

/-- The name under which a kind is reported. -/
def ScriptType.label : ScriptType → String
  | nonStandard => "nonstandard"
  | pubKey => "pubkey"
  | pubKeyHash => "pubkeyhash"
  | scriptHash => "scripthash"
  | multisig => "multisig"
  | nullData => "nulldata"
  | witnessV0KeyHash => "witness_v0_keyhash"
  | witnessV0ScriptHash => "witness_v0_scripthash"
  | witnessUnknown => "witness_unknown"
  | coldStaking => "coldstaking"

namespace Script

/-- Whether a key of that many bytes is looked for in templates. -/
def isKeyLength (n : Nat) : Bool :=
  n == 33 || n == 65

/-! ## A single key -/

/-- Pays to a key. -/
def payToPubKey (key : Bytes) : Script :=
  ⟨pushData key ++ [Opcode.checkSig]⟩

/-- The key that a script pays to. -/
def pubKey? (s : Script) : Option Bytes :=
  match s.ops with
  | [.push _ key, .code opcode] =>
      if opcode = Opcode.checkSig ∧ isKeyLength key.length then some key else none
  | _ => none

/-- Pays to whoever shows a key of that hash and signs. -/
def payToKeyHash (hash : Hash160) : Script :=
  ⟨[Opcode.dup, Opcode.hash160] ++ pushData hash.bytes
    ++ [Opcode.equalVerify, Opcode.checkSig]⟩

/-- The key hash that a script pays to. -/
def keyHash? (s : Script) : Option Hash160 :=
  match s.bytes with
  | a :: b :: c :: rest =>
      if a = Opcode.dup ∧ b = Opcode.hash160 ∧ c = 20
          ∧ rest.drop 20 = [Opcode.equalVerify, Opcode.checkSig] then
        Digest.ofBytes? 20 (rest.take 20)
      else none
  | _ => none

/-! ## Several keys -/

/-- Pays to any `required` of the keys. -/
def multisig (required : Nat) (keys : List Bytes) : Script :=
  ⟨[Opcode.ofSmallInt required] ++ keys.flatMap pushData
    ++ [Opcode.ofSmallInt keys.length, Opcode.checkMultisig]⟩

/-- The data of an operation that pushes a key. -/
def keyOf? : Op → Option Bytes
  | .push _ key => if isKeyLength key.length then some key else none
  | _ => none

/-- The small number that an operation above the pushes stands for. -/
def smallIntOf? : Op → Option Nat
  | .code opcode => Opcode.smallInt? opcode
  | _ => none

/-- The number of signatures asked for and the keys of a multisig script. -/
def multisig? (s : Script) : Option (Nat × List Bytes) :=
  match s.ops with
  | first :: rest =>
      match rest.reverse with
      | last :: count :: keysReversed => do
          if last ≠ .code Opcode.checkMultisig then none
          let required ← smallIntOf? first
          if required < 1 then none
          let total ← smallIntOf? count
          let keys ← keysReversed.reverse.mapM keyOf?
          if keys.length ≠ total ∨ required > total then none
          pure (required, keys)
      | _ => none
  | [] => none

/-! ## Cold staking -/

/-- Pays to a hot key, which may only stake, and to a cold key, which may do anything. -/
def payToColdStaking (hot cold : Hash160) : Script :=
  ⟨[Opcode.dup, Opcode.hash160, Opcode.rot, Opcode.ifTrue, Opcode.checkColdStakeVerify]
    ++ pushData hot.bytes ++ [Opcode.otherwise] ++ pushData cold.bytes
    ++ [Opcode.endIf, Opcode.equalVerify, Opcode.checkSig]⟩

/-- The hot and the cold key hash of a cold-staking script. -/
def coldStaking? (s : Script) : Option (Hash160 × Hash160) :=
  match s.ops with
  | [.code a, .code b, .code c, .code d, .code e, .push _ hot, .code f, .push _ cold,
      .code g, .code h, .code i] =>
      if [a, b, c, d, e, f, g, h, i]
          = [Opcode.dup, Opcode.hash160, Opcode.rot, Opcode.ifTrue,
              Opcode.checkColdStakeVerify, Opcode.otherwise, Opcode.endIf,
              Opcode.equalVerify, Opcode.checkSig] then do
        let hot ← Digest.ofBytes? 20 hot
        let cold ← Digest.ofBytes? 20 cold
        pure (hot, cold)
      else none
  | _ => none

/-! ## Data, hashes and witness programs -/

/-- Carries data and cannot be spent. -/
def nullData (data : Bytes) : Script :=
  ⟨Opcode.halt :: pushData data⟩

/-- Whether it starts by halting and only pushes after that. -/
def isNullData (s : Script) : Bool :=
  match s.bytes with
  | opcode :: rest => opcode == Opcode.halt && isPushOnly ⟨rest⟩
  | [] => false

/-- The locking script of a destination. -/
def payTo : Destination → Script
  | .keyHash hash => payToKeyHash hash
  | .scriptHash hash => ⟨[Opcode.hash160] ++ pushData hash.bytes ++ [Opcode.equal]⟩
  | .witnessKeyHash hash => ⟨[Opcode.op0] ++ pushData hash.bytes⟩
  | .witnessScriptHash hash => ⟨[Opcode.op0] ++ pushData hash.bytes⟩

/-- The destination of a witness program of version zero. -/
def witnessDestination? (program : Bytes) : Option Destination :=
  match Digest.ofBytes? 20 program with
  | some hash => some (.witnessKeyHash hash)
  | none => (Digest.ofBytes? 32 program).map .witnessScriptHash

/-- Whom a script with a single destination pays. Paying to a key counts as paying to its
hash. -/
def destination? (s : Script) : Option Destination :=
  match s.scriptHash? with
  | some hash => some (.scriptHash hash)
  | none =>
      match s.witnessProgram? with
      | some (0, program) => witnessDestination? program
      | _ =>
          match s.keyHash? with
          | some hash => some (.keyHash hash)
          | none => s.pubKey?.map fun key => .keyHash (StakeChain.hash160 key)

/-- The kind of a witness program. -/
def witnessType (version : Nat) (program : Bytes) : ScriptType :=
  if version ≠ 0 then .witnessUnknown
  else if program.length = 20 then .witnessV0KeyHash
  else if program.length = 32 then .witnessV0ScriptHash
  else .nonStandard

/-- The kind of a locking script. -/
def classify (s : Script) : ScriptType :=
  if s.isScriptHash then .scriptHash
  else
    match s.witnessProgram? with
    | some (version, program) => witnessType version program
    | none =>
        if s.isNullData then .nullData
        else if s.pubKey?.isSome then .pubKey
        else if s.keyHash?.isSome then .pubKeyHash
        else if s.multisig?.isSome then .multisig
        else if s.coldStaking?.isSome then .coldStaking
        else .nonStandard

end Script

end StakeChain
