/-
What the commitment of a block says of its witnesses.

The ids of transactions leave witnesses out, so witnesses are free until
something else holds them. A commitment is a hash over the root of the ids
with witnesses and over a nonce, and it stands in an output, which the ids do
cover. From the output back: the hash shows the root and the nonce, the root
shows the ids with witnesses, for the number of transactions is known, and an
id shows the encoding of its transaction. The first transaction has no such
id; its only witness item is the nonce. Where nothing is committed to, there
is no witness to change.
-/
import StakeChain.Block.Check
import StakeChain.Merkle.Commitment
import StakeChain.Proofs.Delimited
import StakeChain.Proofs.MerkleTree
import StakeChain.Proofs.Outcome

namespace StakeChain

open Codec (Context Delimited Format)

/-! ## Encodings with witnesses -/

/-- A witness whose items can be counted in 64 bits, as can their bytes. So it is with all that a
machine holds. -/
def Witness.Countable (w : Witness) : Prop :=
  w.length < UInt64.size ∧ ∀ item ∈ w, item.length < UInt64.size

instance (w : Witness) : Decidable w.Countable :=
  inferInstanceAs (Decidable (_ ∧ _))

namespace Tx

theorem delimited_writeWitness : Delimited Witness.Countable writeWitness where
  inj := by
    intro w w' x y hw hw' h
    rw [writeWitness, writeWitness, List.append_assoc, List.append_assoc] at h
    obtain ⟨hlength, hitems⟩ := Delimited.varInt.inj hw.1 hw'.1 h
    exact Delimited.varBytes.many hw.2 hw'.2 hlength hitems

theorem stripped_of_not_hasWitness {tx : Tx} (h : tx.hasWitness = false) : tx.stripped = tx :=
  congrArg (fun inputs => { tx with inputs := inputs })
    (map_bare_eq_self.mpr (anyWitness_eq_false.mp h))

section Stripped

variable {a b : Tx} (h : a.stripped = b.stripped)
include h

theorem bare_inputs_eq : a.inputs.map TxIn.bare = b.inputs.map TxIn.bare :=
  congrArg Tx.inputs h

theorem length_inputs_eq : a.inputs.length = b.inputs.length := by
  simpa using congrArg List.length (bare_inputs_eq h)

theorem writeLists_eq (g : Format) :
    writeLists g (a.inputs, a.outputs) = writeLists g (b.inputs, b.outputs) := by
  rw [writeLists, writeLists, ← writeList_bare g a.inputs, bare_inputs_eq h, writeList_bare]
  exact congrArg (_ ++ Codec.writeList g ·) (congrArg Tx.outputs h)

/-- The witnesses are all that is left to tell. -/
theorem eq_of_witnesses (hw : a.inputs.map TxIn.witness = b.inputs.map TxIn.witness) : a = b := by
  have hinputs : a.inputs = b.inputs := by
    refine List.ext_getElem (length_inputs_eq h) fun i ha hb => ?_
    have hbare := List.getElem_of_eq (bare_inputs_eq h) (by simpa using ha)
    have hwitness := List.getElem_of_eq hw (by simpa using ha)
    rw [List.getElem_map, List.getElem_map] at hbare hwitness
    rw [bare_eq_bare.mp hbare, hwitness]
  calc a = { a.stripped with inputs := a.inputs } := rfl
    _ = { b.stripped with inputs := b.inputs } := by rw [h, hinputs]

end Stripped

/-- The mark of a body with witnesses is not the number of inputs of a body without. -/
theorem flag_ne_writeLists {g : Format} {inputs : List TxIn} {outputs : List TxOut}
    (hne : inputs ≠ []) {x : Bytes} : 0 :: x ≠ writeLists g (inputs, outputs) := by
  intro h
  rw [writeLists, Codec.writeList, Codec.varInt_eq_cons] at h
  have hmarker := Codec.marker_eq_iff.mp (List.cons.inj h).1.symm
  have hnil : inputs.length < 0xfd ∧ inputs = [] := by simpa using hmarker
  exact hne hnil.2

/-- Bodies with witnesses tell the witnesses, if all else agrees. -/
theorem witnesses_of_writeBody {g : Format} (hg : g.context.witness = true) {a b : Tx}
    (h : a.stripped = b.stripped) (ha : ∀ i ∈ a.inputs, i.witness.Countable)
    (hb : ∀ i ∈ b.inputs, i.witness.Countable)
    (hbody : writeBody g (a.inputs, a.outputs) = writeBody g (b.inputs, b.outputs)) :
    a.inputs.map TxIn.witness = b.inputs.map TxIn.witness := by
  have hne : ∀ {tx : Tx}, anyWitness tx.inputs = true → tx.inputs ≠ [] := by
    intro tx hany hnil
    rw [hnil] at hany
    cases hany
  have hlength := length_inputs_eq h
  rw [writeBody, writeBody, hg, Bool.true_and, Bool.true_and] at hbody
  cases hwa : anyWitness a.inputs <;> cases hwb : anyWitness b.inputs <;>
    rw [hwa, hwb] at hbody
  case true.true =>
    have hflagged : writeFlagged g (a.inputs, a.outputs) = writeFlagged g (b.inputs, b.outputs) :=
      (List.cons.inj (List.cons.inj hbody).2).2
    rw [writeFlagged, writeFlagged, writeLists_eq h] at hflagged
    have hwritten := List.append_cancel_left hflagged
    refine (delimited_writeWitness.many (x := []) (y := []) ?_ ?_ (by simpa using hlength) ?_).1
    · simpa using ha
    · simpa using hb
    · simpa [List.flatMap_map] using hwritten
  case false.false =>
    have hempty : ∀ {tx : Tx}, anyWitness tx.inputs = false →
        tx.inputs.map TxIn.witness = List.replicate tx.inputs.length [] := fun hw =>
      List.map_eq_replicate_iff.mpr (anyWitness_eq_false.mp hw)
    rw [hempty hwa, hempty hwb, hlength]
  case true.false =>
    have hpos := List.length_pos_of_ne_nil (hne hwa)
    exact absurd hbody (flag_ne_writeLists (List.ne_nil_of_length_pos (hlength ▸ hpos)))
  case false.true =>
    have hpos := List.length_pos_of_ne_nil (hne hwb)
    exact absurd hbody.symm (flag_ne_writeLists (List.ne_nil_of_length_pos (hlength ▸ hpos)))

/-- The bytes of which the id with witnesses is the hash. -/
def witnessed (tx : Tx) : Bytes :=
  Codec.encode Context.ids.withWitness tx

theorem eq_of_witnessed {a b : Tx} (h : a.stripped = b.stripped)
    (ha : ∀ i ∈ a.inputs, i.witness.Countable) (hb : ∀ i ∈ b.inputs, i.witness.Countable)
    (hbytes : a.witnessed = b.witnessed) : a = b := by
  have hbytes : Codec.write Context.ids.withWitness.format a =
    Codec.write Context.ids.withWitness.format b := hbytes
  have hversion : a.version = b.version := by injection h
  have hlockTime : a.lockTime = b.lockTime := by injection h
  rw [write_eq, write_eq, hversion, hlockTime] at hbytes
  have hbody := List.append_cancel_right (List.append_cancel_left hbytes)
  exact eq_of_witnesses h (witnesses_of_writeBody rfl h ha hb hbody)

theorem eq_of_map_witnessed {l l' : List Tx} (h : l.map stripped = l'.map stripped)
    (hl : ∀ tx ∈ l, ∀ i ∈ tx.inputs, i.witness.Countable)
    (hl' : ∀ tx ∈ l', ∀ i ∈ tx.inputs, i.witness.Countable)
    (hbytes : l.map witnessed = l'.map witnessed) : l = l' := by
  have hlength : l.length = l'.length := by simpa using congrArg List.length h
  refine List.ext_getElem hlength fun i hi hi' => ?_
  have hstripped := List.getElem_of_eq h (by simpa using hi)
  have hwitnessed := List.getElem_of_eq hbytes (by simpa using hi)
  rw [List.getElem_map, List.getElem_map] at hstripped hwitnessed
  exact eq_of_witnessed hstripped (hl _ (List.getElem_mem hi)) (hl' _ (List.getElem_mem hi'))
    hwitnessed

end Tx

namespace Block

/-- The witnesses of the block can be counted. -/
def WitnessesCountable (b : Block) : Prop :=
  ∀ tx ∈ b.txs, ∀ i ∈ tx.inputs, i.witness.Countable

instance (b : Block) : Decidable b.WitnessesCountable :=
  inferInstanceAs (Decidable (∀ tx ∈ b.txs, ∀ i ∈ tx.inputs, i.witness.Countable))

/-- The first transaction of a block that has its coinbase in place has one input. -/
theorem exists_coinbase {b : Block} (h : b.checkCoinbase = .ok ()) :
    ∃ coinbase rest input, b.txs = coinbase :: rest ∧ coinbase.inputs = [input] := by
  obtain ⟨_, hfirst, -⟩ := Verdict.bind_eq_ok.mp h
  rw [Verdict.demand_eq_ok, Option.any_eq_true] at hfirst
  obtain ⟨coinbase, hhead, hcoinbase⟩ := hfirst
  obtain ⟨rest, hrest⟩ := List.head?_eq_some_iff.mp hhead
  rw [Tx.isCoinbase] at hcoinbase
  split at hcoinbase
  · rename_i input hinput
    exact ⟨coinbase, rest, input, hrest, hinput⟩
  · cases hcoinbase

end Block

/-! ## The check -/

namespace Commitment

variable {b : Block} {coinbase : Tx} {rest : List Tx}

/-- What is hashed for a commitment with a nonce: the transactions after the first with their
witnesses, the pairs of the tree over their ids, and the root with the nonce. -/
def preimages (b : Block) (n : Digest 32) : List Bytes :=
  (b.txs.drop 1).map Tx.witnessed ++
    (Merkle.hashed b.witnessLeaves ++ [b.witnessRoot.hash.bytes ++ n.bytes])

/-- What is hashed where a block is checked. Without a commitment that counts, or a nonce, that is
nothing. -/
def hashed (b : Block) (enabled : Bool) : List Bytes :=
  match if enabled then output? b else none with
  | some (coinbase, _) =>
      match nonce coinbase with
      | .ok n => preimages b n
      | .error _ => []
  | none => []

theorem nonce_eq_ok {tx : Tx} {n : Digest 32} (h : nonce tx = .ok n) :
    ∃ input others, tx.inputs = input :: others ∧ input.witness = [n.bytes] := by
  rw [nonce] at h
  split at h
  · cases h
  rename_i input others hinputs
  split at h
  · rename_i item hitem
    split at h
    · rename_i d hd
      cases h
      rw [Digest.ofBytes?] at hd
      split at hd
      · cases hd
        exact ⟨input, others, hinputs, hitem⟩
      · cases hd
    · cases h
  · cases h

/-- The output that counts, where commitments have a meaning. -/
def counted (enabled : Bool) (outputs : List TxOut) : Option TxOut :=
  if enabled then (lastIndex? outputs).bind (outputs[·]?) else none

/-- The nonce is the whole witness of a first transaction with one input. -/
theorem eq_of_nonce {a b : Tx} {input : TxIn} {n : Digest 32} (h : a.stripped = b.stripped)
    (hinput : a.inputs = [input]) (ha : nonce a = .ok n) (hb : nonce b = .ok n) : a = b := by
  obtain ⟨inputₐ, others, hinputs, hwitness⟩ := nonce_eq_ok ha
  obtain ⟨inputᵦ, others', hinputs', hwitness'⟩ := nonce_eq_ok hb
  have hlength := Tx.length_inputs_eq h
  rw [hinput] at hinputs hlength
  obtain ⟨rfl, rfl⟩ := List.cons.inj hinputs
  rw [hinputs'] at hlength
  obtain rfl : others' = [] := by simpa using hlength.symm
  refine Tx.eq_of_witnesses h ?_
  rw [hinput, hinputs', List.map_singleton, List.map_singleton, hwitness, hwitness']

theorem output?_eq_counted (enabled : Bool) (hb : b.txs = coinbase :: rest) :
    (if enabled then output? b else none) =
      (counted enabled coinbase.outputs).map (coinbase, ·) := by
  cases enabled with
  | false => rfl
  | true => simp [output?, counted, hb, Option.map_eq_bind, Option.bind_assoc]

/-- The check of a block that has a first transaction. -/
theorem check_eq_ok {enabled : Bool} (hb : b.txs = coinbase :: rest) :
    check b enabled = .ok () ↔
      match counted enabled coinbase.outputs with
      | some output => ∃ n, nonce coinbase = .ok n ∧ committed output = (hash b n).bytes
      | none => ∀ tx ∈ b.txs, tx.hasWitness = false := by
  rw [check, output?_eq_counted enabled hb]
  cases counted enabled coinbase.outputs with
  | none =>
      rw [Option.map_none, Verdict.demand_eq_ok, Bool.not_eq_true', List.any_eq_false]
      simp
  | some output =>
      simp only [Option.map_some, Verdict.bind_eq_ok, Verdict.demand_eq_ok, beq_iff_eq]

theorem hashed_eq_preimages {enabled : Bool} {output : TxOut} {n : Digest 32}
    (hb : b.txs = coinbase :: rest) (hcounted : counted enabled coinbase.outputs = some output)
    (hn : nonce coinbase = .ok n) : hashed b enabled = preimages b n := by
  rw [hashed, output?_eq_counted enabled hb, hcounted, Option.map_some]
  dsimp only
  rw [hn]

theorem preimages_eq (hb : b.txs = coinbase :: rest) (n : Digest 32) :
    preimages b n = rest.map Tx.witnessed ++
      (Merkle.hashed b.witnessLeaves ++ [b.witnessRoot.hash.bytes ++ n.bytes]) := by
  rw [preimages, hb]
  rfl

theorem witnessLeaves_eq (hb : b.txs = coinbase :: rest) :
    b.witnessLeaves = Digest.zero :: (rest.map Tx.witnessed).map hash256 := by
  rw [Block.witnessLeaves, hb, List.map_map]
  rfl

/-- Equal commitments show equal nonces and equal bytes of all transactions but the first. -/
theorem eq_of_hash_eq {a b : Block} {coinbase coinbase' : Tx} {rest rest' : List Tx}
    {n n' : Digest 32} (ha : a.txs = coinbase :: rest) (hb : b.txs = coinbase' :: rest')
    (hlength : rest.length = rest'.length)
    (hfree : CollisionFree (preimages a n ++ preimages b n')) (hhash : hash a n = hash b n') :
    n = n' ∧ rest.map Tx.witnessed = rest'.map Tx.witnessed := by
  rw [preimages_eq ha, preimages_eq hb] at hfree
  have hpreimage : a.witnessRoot.hash.bytes ++ n.bytes = b.witnessRoot.hash.bytes ++ n'.bytes :=
    hfree.right.right.inj _ List.mem_cons_self _ (List.mem_append_right _ List.mem_cons_self) hhash
  obtain ⟨hroot, hnonce⟩ := Merkle.pair_inj hpreimage
  refine ⟨hnonce, ?_⟩
  have hleaves : a.witnessLeaves = b.witnessLeaves := by
    refine Merkle.eq_of_root_hash_of_length ?_ ?_ hfree.right.left hroot
    · simp [witnessLeaves_eq ha, witnessLeaves_eq hb, hlength]
    · simp [witnessLeaves_eq ha]
  rw [witnessLeaves_eq ha, witnessLeaves_eq hb] at hleaves
  exact hfree.left.map_hash256_inj (List.cons.inj hleaves).2

end Commitment

namespace Block

open Commitment (check hashed counted)

/-- Witnesses cannot be exchanged. Two blocks with the coinbase in place that differ in nothing
but witnesses, headers and signatures, and that both pass the check of the commitment, have the
same witnesses, the nonce included, if what is hashed for the two has hashes of its own. -/
theorem txs_eq_of_commitment (a b : Block) (enabled : Bool) (hcoinbase : a.checkCoinbase = .ok ())
    (htxs : a.txs.map Tx.stripped = b.txs.map Tx.stripped) (hac : a.WitnessesCountable)
    (hbc : b.WitnessesCountable) (hfree : CollisionFree (hashed a enabled ++ hashed b enabled))
    (ha : check a enabled = .ok ()) (hb : check b enabled = .ok ()) : a.txs = b.txs := by
  obtain ⟨coinbase, rest, input, htxsa, hinput⟩ := exists_coinbase hcoinbase
  obtain ⟨coinbase', rest', htxsb, hfirst, hrest⟩ : ∃ coinbase' rest', b.txs = coinbase' :: rest' ∧
      coinbase.stripped = coinbase'.stripped ∧ rest.map Tx.stripped = rest'.map Tx.stripped := by
    rw [htxsa, List.map_cons] at htxs
    obtain ⟨coinbase', rest', htxsb, hfirst, hrest⟩ := List.map_eq_cons_iff.mp htxs.symm
    exact ⟨coinbase', rest', htxsb, hfirst.symm, hrest.symm⟩
  have houtputs : coinbase.outputs = coinbase'.outputs := by injection hfirst
  rw [Commitment.check_eq_ok htxsa] at ha
  rw [Commitment.check_eq_ok htxsb, ← houtputs] at hb
  cases hcounted : counted enabled coinbase.outputs with
  | none =>
      -- no block has a witness
      rw [hcounted] at ha hb
      have hbare : ∀ {c : Block}, (∀ tx ∈ c.txs, tx.hasWitness = false) →
          c.txs.map Tx.stripped = c.txs := fun h =>
        map_eq_self.mpr fun tx htx => Tx.stripped_of_not_hasWitness (h tx htx)
      rw [← hbare ha, htxs, hbare hb]
  | some output =>
      rw [hcounted] at ha hb
      obtain ⟨n, hn, hcommitted⟩ := ha
      obtain ⟨n', hn', hcommitted'⟩ := hb
      rw [Commitment.hashed_eq_preimages htxsa hcounted hn,
        Commitment.hashed_eq_preimages htxsb (houtputs ▸ hcounted) hn'] at hfree
      have hlength : rest.length = rest'.length := by simpa using congrArg List.length hrest
      obtain ⟨rfl, hwitnessed⟩ := Commitment.eq_of_hash_eq htxsa htxsb hlength hfree
        (Digest.ext (hcommitted.symm.trans hcommitted'))
      rw [WitnessesCountable, htxsa, List.forall_mem_cons] at hac
      rw [WitnessesCountable, htxsb, List.forall_mem_cons] at hbc
      have hfirst := Commitment.eq_of_nonce hfirst hinput hn hn'
      have hrest := Tx.eq_of_map_witnessed hrest hac.2 hbc.2 hwitnessed
      rw [htxsa, htxsb, hfirst, hrest]

/-- A transaction whose only witness item is this one. -/
def showing (item : Bytes) : Tx :=
  ⟨1, [⟨⟨.one, 0⟩, .empty, sequenceFinal, [item]⟩], [], 0⟩

/-- A block that commits to one item and shows another. -/
def committing (committed shown : Bytes) : Block where
  header := default
  txs :=
    [⟨1, [⟨.null, .empty, sequenceFinal, [nonce]⟩], [⟨0, Commitment.script commitment⟩], 0⟩,
      showing shown]
  signature := []
where
  nonce := Bytes.zeros 32
  commitment :=
    hash256 ((Merkle.root [Digest.zero, (showing committed).witnessId]).hash.bytes ++ nonce)

/-- The block that shows what it commits to passes, signed or not, and has the same transactions
then. With another item it does not pass. -/
theorem txs_eq_of_commitment_item :
    Commitment.check (committing [1] [1]) true = .ok () ∧
      (committing [1] [1]).txs = { committing [1] [1] with signature := [0] }.txs ∧
      Commitment.check (committing [1] [2]) true ≠ .ok () := by
  have hpasses : check (committing [1] [1]) true = .ok () := by decide +kernel
  have hfree : CollisionFree
      (hashed (committing [1] [1]) true ++ hashed (committing [1] [2]) true) :=
    .of_nodup (by decide +kernel)
  have hsigned := (hfree.mono (List.subset_append_left _ _)).twice
  refine ⟨hpasses, ?_, fun h => ?_⟩
  · exact txs_eq_of_commitment (committing [1] [1]) { committing [1] [1] with signature := [0] }
      true rfl rfl (by decide) (by decide) hsigned hpasses hpasses
  · have hsame := txs_eq_of_commitment (committing [1] [1]) (committing [1] [2]) true rfl rfl
      (by decide) (by decide) hfree hpasses h
    exact absurd (List.cons.inj hsame).2 (by decide)

end Block

end StakeChain
