/-
Reports about transactions, blocks and branches.
-/
import StakeChain.Block.Check
import StakeChain.Chain.Fork
import StakeChain.Merkle.Commitment
import StakeChain.Readable.Wire
import StakeChain.Report
import StakeChain.Stake.Signature
import StakeChain.Tx.SigOps
import StakeChain.Validation.Candidate

namespace StakeChain

/-- The hexadecimal text of the encoding for the network. -/
def Codec.shownEncoding {α : Type} [Codec.Wire α] (a : α) : Json :=
  (Codec.encode Codec.Context.network a).shownHex

instance : Reported Tx where
  report tx :=
    Json.ofFields
      [("txid", shown tx.id), ("wtxid", shown tx.witnessId), ("base_size", shown tx.baseSize),
       ("total_size", shown tx.totalSize), ("weight", shown tx.weight),
       ("has_witness", shown tx.hasWitness), ("coinbase", shown tx.isCoinbase),
       ("coinstake", shown tx.isCoinstake), ("total_out", shown tx.totalOut?),
       ("legacy_sig_ops", shown tx.legacySigOps)]

instance : Reported Merkle.Root where
  report r := Json.ofFields [("root", shown r.hash), ("mutated", shown r.mutated)]

instance : Reported Block where
  report b :=
    Json.ofFields
      [("hash", shown b.id), ("base_size", shown b.baseSize), ("total_size", shown b.totalSize),
       ("merkle", report b.merkleRoot), ("witness_merkle", report b.witnessRoot),
       ("legacy_sig_ops", shown b.legacySigOps), ("pos", shown b.isProofOfStake),
       ("pow", shown !b.isProofOfStake), ("commitment_index", shown (Commitment.index? b)),
       ("signature_pubkey", shown ((Stake.signer? b).map Raw.mk)),
       ("signature_ok", shown (Stake.isSigned b))]

instance : Reported Coin where
  report c :=
    Json.ofFields
      [("script_code", shown c.scriptCode), ("hash_version", shown c.hashVersion),
       ("encoded", Codec.shownEncoding c)]

instance : Reported StakeRecord where
  report r :=
    Json.ofFields
      [("stake", shown r), ("pos", shown r.isProofOfStake), ("pow", shown !r.isProofOfStake),
       ("entropy", shown r.entropy), ("modifier", shown r.hasOwnModifier),
       ("encoded", Codec.shownEncoding r)]

instance : Reported Key.ExtendedKey where
  report k :=
    Json.ofFields
      [("encoded", Codec.shownEncoding k), ("fingerprint", k.fingerprint.bytes.shownHex),
       ("pubkey", k.secret.publicKey.shownHex)]

instance : Reported Branch where
  report b :=
    Json.ofFields
      [("hash", shown b.hash), ("height", shown b.height), ("work", shown b.tip.work),
       ("time", shown b.tip.header.time), ("pos", shown b.tip.isProofOfStake)]

instance : Reported Reorganization where
  report r :=
    Json.ofFields
      [("fork", shown r.fork.hash), ("disconnect", shown (r.disconnect.map Branch.hash)),
       ("connect", shown (r.connect.map Branch.hash)), ("depth", shown r.depth)]

instance : Reported Progress where
  report p :=
    Json.ofFields
      [("loaded", shown p.loaded.toList), ("spent", shown p.spent),
       ("created", shown p.created), ("fees", shown p.fees), ("minted", shown p.minted),
       ("stake", shown p.stake), ("input_coins", shown p.inputCoins)]

end StakeChain
