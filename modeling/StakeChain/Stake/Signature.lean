/-
Signatures of staked blocks.

A staked block is signed by the key that its coinstake pays to. Where the
coinstake pays to a hash of a key, the key is the one shown when spending
the staked coin, which has to have that hash.
-/
import StakeChain.Block
import StakeChain.Key.Verify
import StakeChain.Script.Template

namespace StakeChain.Stake

/-- The hash of the key that signs for an output which does not name its key: the hot key signs
for a cold-staking script. -/
def signerHash? (s : Script) : Option Hash160 :=
  match s.destination? with
  | some (.keyHash hash) => some hash
  | some (.witnessKeyHash hash) => some hash
  | _ => s.coldStaking?.map (·.1)

/-- The key that an input shows: the last push of its script, or else its last witness item. -/
def shownKey? (i : TxIn) : Option Bytes :=
  match i.scriptSig.lastPush? with
  | some key => some key
  | none => i.witness.getLast?

/-- The key of that hash that the first input shows. -/
def keyOfHash? (tx : Tx) (hash : Hash160) : Option Bytes := do
  let input ← tx.inputs.head?
  let key ← shownKey? input
  if hash160 key == hash then some key else none

/-- The key that has to sign a block. -/
def signer? (b : Block) : Option Bytes := do
  let tx ← b.txs[1]?
  let output ← tx.outputs[1]?
  match output.script.pubKey? with
  | some key => some key
  | none => keyOfHash? tx (← signerHash? output.script)

/-- Whether a block is signed as it has to be: a mined one is not. -/
def isSigned (b : Block) : Bool :=
  if b.isProofOfStake then
    match signer? b with
    | some key => !b.signature.isEmpty && Key.verifyEcdsa key b.signature b.id.bytes
    | none => false
  else b.signature.isEmpty

end StakeChain.Stake
