/-
The instructions that check signatures.

A multisig check walks down the keys and the signatures together: a valid
pair uses up both, an invalid one only the key, and the check fails as soon
as fewer keys than signatures are left. So the signatures have to be in
the order of their keys.
-/
import StakeChain.Eval.Machine
import StakeChain.Script.Edit

namespace StakeChain.Eval

namespace Step

/-- Demands that a signature is encoded as the flags ask. An empty signature is never valid and
always well encoded. -/
def demandSignatureEncoding (env : Env) (sig : Bytes) : Step Unit :=
  if sig.isEmpty then pure ()
  else do
    let f := env.flags
    demand (!(f.derSignatures || f.lowS || f.strictEncoding) || Key.isStrictSignature sig)
      .sigDer
    demand (!f.lowS || Key.isLowS sig.dropLast) .sigHighS
    demand (!f.strictEncoding || Key.hasKnownHashType sig) .sigHashType

/-- Demands that a key is encoded as the flags ask. -/
def demandKeyEncoding (env : Env) (key : Bytes) : Step Unit := do
  let f := env.flags
  demand (!f.strictEncoding || Key.isCompressedOrFull key) .pubkeyType
  demand (!(f.witnessPubkeyType && env.version == .witnessV0) || Key.isCompressed key)
    .witnessPubkeyType

/-- The script that the signatures commit to: what follows the last code separator, under the
legacy scheme without the signatures themselves. -/
def scriptCode (env : Env) (sigs : List Bytes) : Step Script := do
  let code : Script := ⟨(← get).code⟩
  match env.version with
  | .legacy => pure (sigs.foldl (fun c sig => c.findAndDelete ⟨Script.pushData sig⟩) code)
  | .witnessV0 => pure code

/-- Checks one signature. -/
def checkSig (env : Env) (verify : Bool) : Step Unit := do
  require 2
  let sig ← top 2
  let key ← top 1
  let code ← scriptCode env [sig]
  demandSignatureEncoding env sig
  demandKeyEncoding env key
  let valid ← askSignature env sig key code
  demand (valid || !env.flags.nullFail || sig.isEmpty) .sigNullFail
  dropTop 2
  pushBool valid
  if verify then do
    demand valid .checkSigVerify
    discard

/-- The items from one depth on, `count` of them. -/
def items (depth : Nat) : (count : Nat) → Step (List Bytes)
  | 0 => pure []
  | count + 1 => do
      let item ← top depth
      let rest ← items (depth + 1) count
      pure (item :: rest)

/-- Matches `sigs` signatures from depth `sigAt` on with `keys` keys from depth `keyAt` on. -/
def matchSigs (env : Env) (code : Script) :
    (keys keyAt sigAt sigs : Nat) → Step Bool
  | _, _, _, 0 => pure true
  | 0, _, _, _ + 1 => fault .overflow
  | keys + 1, keyAt, sigAt, sigs + 1 => do
      let sig ← top sigAt
      let key ← top keyAt
      demandSignatureEncoding env sig
      demandKeyEncoding env key
      let valid ← askSignature env sig key code
      let sigAt := if valid then sigAt + 1 else sigAt
      let left := if valid then sigs else sigs + 1
      if left > keys then pure false else matchSigs env code keys (keyAt + 1) sigAt left

/-- Drops the arguments of a multisig check, the keys and both counts first. When the check
failed, the signatures below them may have to be empty. -/
def dropArguments (env : Env) (valid : Bool) : (count : Nat) → (beforeSigs : Nat) → Step Unit
  | 0, _ => pure ()
  | count + 1, beforeSigs => do
      if !valid && env.flags.nullFail && beforeSigs == 0 then
        demand (← top 1).isEmpty .sigNullFail
      discard
      dropArguments env valid count (beforeSigs - 1)

/-- Reads a count of at most `limit` at a depth. -/
def count (env : Env) (depth limit : Nat) (e : ScriptError) : Step Nat := do
  let n ← number env (← top depth) numberWidth
  if n < 0 ∨ n > limit then fail e else pure n.toNat

/-- Checks several signatures. From the top the stack holds the number of keys, the keys, the
number of signatures, the signatures, and one item more. -/
def checkMultisig (env : Env) (verify : Bool) : Step Unit := do
  require 1
  let keys ← count env 1 maxKeysPerMultisig .pubkeyCount
  countOps keys
  require (keys + 2)
  let sigs ← count env (keys + 2) keys .sigCount
  let sigAt := keys + 3
  let size := keys + sigs + 3
  require size
  let code ← scriptCode env (← items sigAt sigs)
  let valid ← matchSigs env code keys 2 sigAt sigs
  dropArguments env valid (size - 1) (keys + 2)
  require 1
  let extra ← top 1
  demand (!env.flags.nullDummy || extra.isEmpty) .sigNullDummy
  discard
  pushBool valid
  if verify then do
    demand valid .checkMultiSigVerify
    discard

end Step

end StakeChain.Eval
