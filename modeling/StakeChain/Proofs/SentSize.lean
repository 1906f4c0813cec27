/-
How long a block is when it is sent.

The rule about sizes measures a block with its witnesses and without its
signature. Where no block is staked that is all of it, and the limit holds for
what is sent. Where blocks may be staked the signature follows, or at least its
length, and the rule does not look at either. There the limit holds exactly if
the signature fits into what the rest has left of it, and as far as the rule is
concerned a signature may be as long as one likes.
-/
import StakeChain.Proofs.Delegation
import StakeChain.Proofs.Faults

namespace StakeChain

open Codec (Context)

/-- How a network sends its blocks: with witnesses, and with signatures where they may be staked. -/
def Params.blockContext (p : Params) : Context :=
  { Context.network with proofOfStake := p.isProofOfStake }

namespace Block

/-- The size of a block as a network sends it. -/
def sentSize (p : Params) (b : Block) : Nat :=
  Codec.encodedSize p.blockContext b

/-- What follows the transactions of a block. -/
def sealing (p : Params) (b : Block) : Bytes :=
  if p.isProofOfStake then Codec.varBytes b.signature else []

theorem sentSize_eq (p : Params) (b : Block) :
    b.sentSize p = b.totalSize + (b.sealing p).length := by
  change (Codec.write Context.network.format b.header ++
    Codec.writeList Context.network.format b.txs ++ b.sealing p).length =
      (Codec.write Context.network.format b.header ++
        Codec.writeList Context.network.format b.txs ++ []).length + _
  rw [List.length_append, List.append_nil]

theorem length_sealing_of_staking {p : Params} (h : p.isProofOfStake = true) (b : Block) :
    (b.sealing p).length = (Codec.varBytes b.signature).length := by
  rw [sealing, if_pos h]

theorem length_sealing_of_mining {p : Params} (h : p.isProofOfStake = false) (b : Block) :
    (b.sealing p).length = 0 := by
  rw [sealing, h]
  rfl

theorem length_signature_le (b : Block) :
    b.signature.length ≤ (Codec.varBytes b.signature).length := by
  rw [Codec.varBytes, List.length_append]
  exact Nat.le_add_left _ _

end Block

namespace Candidate

variable {c : Candidate}

/-- The same block in the same place, with another signature. -/
def signed (c : Candidate) (signature : Bytes) : Candidate :=
  { c with block := { c.block with signature := signature } }

/-- The rule about sizes does not look at the signature. -/
theorem sizeRule_signed (c : Candidate) (signature : Bytes) :
    BodyRule.size.check (c.signed signature) = BodyRule.size.check c :=
  rfl

/-- So a block that passes it passes with a signature of any length. -/
theorem exists_signed_longer (h : BodyRule.size.check c = .ok ())
    (hstaking : c.params.isProofOfStake = true) (n : Nat) :
    ∃ signature, BodyRule.size.check (c.signed signature) = .ok () ∧
      n < (c.signed signature).block.sentSize c.params := by
  refine ⟨Bytes.zeros (n + 1), (c.sizeRule_signed _).trans h, ?_⟩
  have hlength : (Bytes.zeros (n + 1)).length = n + 1 := List.length_replicate
  have hsignature := (c.signed (Bytes.zeros (n + 1))).block.length_signature_le
  rw [Block.sentSize_eq, Block.length_sealing_of_staking hstaking]
  change (Bytes.zeros (n + 1)).length ≤ _ at hsignature
  omega

/-- What is sent of a block that passes the rule about sizes keeps within the limit exactly if no
signature is sent, or if it fits, with its length, into what is left of the limit. Where signatures
are sent, no length is too much for the rule. -/
theorem sent_within_limit_iff (c : Candidate) (h : BodyRule.size.check c = .ok ()) :
    (c.block.sentSize c.params ≤ c.params.maxBlockSerializedSize.toNat ↔
      c.params.isProofOfStake = false ∨
        (Codec.varBytes c.block.signature).length ≤
          c.params.maxBlockSerializedSize.toNat - c.block.totalSize) ∧
    (c.params.isProofOfStake = true → ∀ n, ∃ signature,
      BodyRule.size.check (c.signed signature) = .ok () ∧
        n < (c.signed signature).block.sentSize c.params) := by
  refine ⟨?_, exists_signed_longer h⟩
  obtain ⟨-, htotal⟩ := sizes_of_sizeRule h
  rw [Block.sentSize_eq]
  cases hstaking : c.params.isProofOfStake with
  | false =>
      rw [Block.length_sealing_of_mining hstaking]
      exact iff_of_true htotal (.inl rfl)
  | true =>
      rw [Block.length_sealing_of_staking hstaking]
      constructor
      · intro hsent
        exact .inr (Nat.le_sub_of_add_le' hsent)
      · rintro (hmining | hfits)
        · cases hmining
        · exact Nat.add_le_of_le_sub' htotal hfits

end Candidate

/-! ## A signature longer than the limit -/

namespace Sample

/-- A coinstake that spends the coin for anyone and pays it to the hot key. -/
def sole : Tx :=
  ⟨1, [⟨place, .empty, sequenceFinal, []⟩], [⟨0, .empty⟩, ⟨5, .payToPubKey hotKey⟩], 0⟩

/-- A staked block whose signature goes on with so many zeros. The signature is read by what it
says of its own length, so the key signs this one, too. -/
def padded (n : Nat) : Candidate :=
  staked sole
    (hotSignature 0x31d676ce88ebc25a5726a3cf17e013dbf39c8da28cd436c0c3da4991e866df88 ++
      Bytes.zeros n)

theorem accepted_padded : ∃ v, (padded 4000000).validate (.still soleCoin) = .ok v :=
  Verdict.exists_ok_of_isSome (by decide +kernel)

theorem lt_length_padded (n : Nat) : n < (padded n).block.signature.length := by
  change n < (hotSignature _ ++ Bytes.zeros n).length
  rw [List.length_append, Bytes.zeros, List.length_replicate]
  exact Nat.lt_add_of_pos_left (Nat.succ_pos _)

end Sample

/-- With the signature that fits, what is sent keeps within the limit. -/
theorem sent_within_limit_padded_none :
    BodyRule.size.check (Sample.padded 0) = .ok () ∧
      (Sample.padded 0).block.sentSize .stakeRegtest ≤ 4000000 := by
  have hsize : BodyRule.size.check (Sample.padded 0) = .ok () := by decide +kernel
  refine ⟨hsize, ((Sample.padded 0).sent_within_limit_iff hsize).1.mpr (.inr ?_)⟩
  decide +kernel

/-- A staked block is accepted with a signature that alone is longer than the limit. -/
theorem sent_beyond_limit_padded :
    (∃ v, (Sample.padded 4000000).validate (.still Sample.soleCoin) = .ok v) ∧
      BodyRule.size.check (Sample.padded 4000000) = .ok () ∧
      (Sample.padded 4000000).params.maxBlockSerializedSize.toNat <
        (Sample.padded 4000000).block.sentSize (Sample.padded 4000000).params := by
  obtain ⟨v, hv⟩ := Sample.accepted_padded
  have hrule : BodyRule.size ∈ (Sample.padded 4000000).params.plainRules := by
    simp [Params.plainRules, Params.integrityRules]
  have hsize : BodyRule.size.check (Sample.padded 4000000) = .ok () :=
    Candidate.check_of_checkPlain (Candidate.validate_eq_ok.mp hv).1 hrule
  refine ⟨⟨v, hv⟩, hsize, ?_⟩
  have hzeros := Sample.lt_length_padded 4000000
  have hsignature := (Sample.padded 4000000).block.length_signature_le
  have hsealing := Block.length_sealing_of_staking (p := .stakeRegtest) rfl
    (Sample.padded 4000000).block
  change 4000000 < (Sample.padded 4000000).block.sentSize .stakeRegtest
  rw [Block.sentSize_eq]
  omega

end StakeChain
