/-
The wire format of transactions and blocks is exact.

What is written in a context is read back in it, whatever follows, up to the
parts that the context leaves out; and nothing else is read. Both come from
one equivalence for each type.
-/
import StakeChain.Block
import StakeChain.Proofs.TxWire

namespace StakeChain

open Stateful
open Codec (Wire Read Format Context Stream ExactWire maxSize fits reads)

/-! ## Headers and blocks -/

instance : ExactWire BlockHeader where
  fits _ _ := True
  reads := by
    have h := (reads (α := Int32)).bind BlockHeader.version (fun version =>
      (reads (α := Hash256)).bind BlockHeader.prev (fun prev =>
        (reads (α := Hash256)).bind BlockHeader.merkleRoot (fun merkleRoot =>
          (reads (α := UInt32)).bind BlockHeader.time (fun time =>
            (reads (α := UInt32)).bind BlockHeader.bits (fun bits =>
              (reads (α := UInt32)).bind BlockHeader.nonce (fun nonce =>
                .pure ⟨version, prev, merkleRoot, time, bits, nonce⟩)
                (fun _ h => congrArg BlockHeader.nonce h))
                (fun _ h => congrArg BlockHeader.bits h.2))
                (fun _ h => congrArg BlockHeader.time h.2.2))
                (fun _ h => congrArg BlockHeader.merkleRoot h.2.2.2))
                (fun _ h => congrArg BlockHeader.prev h.2.2.2.2))
                fun _ h => congrArg BlockHeader.version h.2.2.2.2.2
    refine h.congr (fun _ _ => iff_of_true trivial
      ⟨trivial, trivial, trivial, trivial, trivial, trivial, rfl⟩) fun g h _ => ?_
    simp only [List.append_nil, ← List.append_assoc]
    rfl

namespace Block

/-- A block that can be sent in a context: its transactions can be sent and counted, and so can
the bytes of its signature where the context has one. -/
structure Sendable (c : Context) (b : Block) : Prop where
  txs : ∀ tx ∈ b.txs, tx.Sendable c
  count : b.txs.length ≤ maxSize
  signature : c.proofOfStake = true → b.signature.length ≤ maxSize

/-- What a context keeps of a block. -/
def kept (c : Context) (b : Block) : Block where
  header := b.header
  txs := b.txs.map (Tx.kept c)
  signature := if c.proofOfStake then b.signature else []

theorem kept_eq_self {c : Context} {b : Block} :
    b.kept c = b ↔ (∀ tx ∈ b.txs, tx.kept c = tx) ∧
      (c.proofOfStake = false → b.signature = []) := by
  obtain ⟨header, txs, signature⟩ := b
  rw [kept, Block.mk.injEq, and_iff_right rfl]
  refine and_congr ?_ ?_
  · exact map_eq_self
  · cases c.proofOfStake with
    | true => exact iff_of_true rfl nofun
    | false => exact ⟨fun h _ => h.symm, fun h => (h rfl).symm⟩

theorem Sendable.kept {c : Context} {b : Block} (h : b.Sendable c) : (b.kept c).Sendable c := by
  refine ⟨fun tx htx => ?_, (List.length_map _).trans_le h.count, fun hc => ?_⟩
  · obtain ⟨tx', htx', rfl⟩ := List.mem_map.mp htx
    exact (h.txs tx' htx').kept
  · rw [Block.kept, hc]
    exact h.signature hc

theorem kept_kept (c : Context) (b : Block) : (b.kept c).kept c = b.kept c := by
  refine kept_eq_self.mpr ⟨fun tx htx => ?_, fun hc => ?_⟩
  · obtain ⟨tx, _, rfl⟩ := List.mem_map.mp htx
    exact tx.kept_kept c
  · rw [kept, hc]
    rfl

theorem write_kept (g : Format) (b : Block) :
    Codec.write g (b.kept g.context) = Codec.write g b := by
  have htxs : Codec.writeList g (b.txs.map (Tx.kept g.context)) = Codec.writeList g b.txs := by
    rw [Codec.writeList, Codec.writeList, List.length_map, List.flatMap_map]
    congr 2
    funext tx
    exact tx.write_kept g
  change Codec.write g b.header ++ Codec.writeList g (b.txs.map (Tx.kept g.context)) ++
    (if g.context.proofOfStake then Codec.varBytes (b.kept g.context).signature else []) = _
  rw [htxs, kept]
  cases hc : g.context.proofOfStake with
  | true =>
      change _ = Codec.write g b.header ++ Codec.writeList g b.txs ++ (if _ then _ else _)
      rw [hc]
      rfl
  | false =>
      change _ = Codec.write g b.header ++ Codec.writeList g b.txs ++ (if _ then _ else _)
      rw [hc]
      rfl

theorem readSignature_exact (header : BlockHeader) (txs : List Tx) (c : Context) :
    (do
      let signature ← if c.proofOfStake then Read.varBytes else pure []
      pure ⟨header, txs, signature⟩ : Read Block).Exact
      (fun _ b => ((c.proofOfStake = true → b.signature.length ≤ maxSize) ∧
        (c.proofOfStake = false → b.signature = [])) ∧ b = ⟨header, txs, b.signature⟩)
      (fun _ b => if c.proofOfStake then Codec.varBytes b.signature else []) := by
  cases c.proofOfStake with
  | true =>
      have h := Read.Exact.varBytes.bind Block.signature (fun signature =>
        .pure ⟨header, txs, signature⟩) fun _ h => congrArg Block.signature h
      refine h.congr (fun _ b => ?_) fun _ b _ => ?_
      · simp
      · rw [List.append_nil]
        rfl
  | false =>
      have h := (Read.Exact.pure ([] : Bytes)).bind Block.signature (fun signature =>
        .pure ⟨header, txs, signature⟩) fun _ h => congrArg Block.signature h
      refine h.congr (fun _ b => ?_) fun _ b _ => ?_
      · simp
      · rfl

instance : ExactWire Block where
  fits g b := b.Sendable g.context ∧ b.kept g.context = b
  reads := by
    have h := (reads (α := BlockHeader)).bind Block.header (fun header =>
      (Read.Exact.list (α := Tx)).bind Block.txs (fun txs =>
        .context fun c => readSignature_exact header txs c)
        (fun _ h => congrArg Block.txs h.2))
        fun _ h => congrArg Block.header h.2.2
    refine h.congr (fun g b => ?_) fun g b _ => ?_
    · rw [kept_eq_self]
      constructor
      · rintro ⟨h, hkept, hsig⟩
        exact ⟨trivial, ⟨h.count, fun tx htx => ⟨h.txs tx htx, hkept tx htx⟩⟩,
          ⟨h.signature, hsig⟩, rfl⟩
      · rintro ⟨-, ⟨hcount, htxs⟩, ⟨hpos, hsig⟩, -⟩
        exact ⟨⟨fun tx htx => (htxs tx htx).1, hcount, hpos⟩, fun tx htx => (htxs tx htx).2, hsig⟩
    · rw [← List.append_assoc]
      rfl

end Block

/-! ## What was sent is what is read -/

/-- What is written is read back and no more: a transaction or a block that can be sent in a
context is read off the front of any stream that starts with its encoding, up to the parts that
the context leaves out, and the stream goes on right after the encoding. -/
theorem read_of_write (g : Format) (consumed : Nat) (rest : Bytes) :
    (∀ tx : Tx, tx.Sendable g.context →
      (Codec.read : Read Tx) ⟨g, consumed, Codec.write g tx ++ rest⟩ =
        .ok (tx.kept g.context) ⟨g, consumed + (Codec.write g tx).length, rest⟩) ∧
    (∀ b : Block, b.Sendable g.context →
      (Codec.read : Read Block) ⟨g, consumed, Codec.write g b ++ rest⟩ =
        .ok (b.kept g.context) ⟨g, consumed + (Codec.write g b).length, rest⟩) := by
  constructor
  · intro tx h
    rw [← tx.write_kept g]
    exact (reads (α := Tx)).read_of_append ⟨h.kept, tx.kept_kept g.context⟩ consumed rest
  · intro b h
    rw [← b.write_kept g]
    exact (reads (α := Block)).read_of_append ⟨h.kept, b.kept_kept g.context⟩ consumed rest

/-- A spend with a witness, and a block of it with a signature. -/
theorem read_of_write_signed :
    let tx : Tx := ⟨2, [⟨⟨Digest.zero, 0⟩, ⟨[]⟩, 0xffffffff, [[1, 2], []]⟩], [⟨5, ⟨[0x51]⟩⟩], 0⟩
    let b : Block := ⟨⟨1, Digest.zero, Digest.zero, 3, 4, 5⟩, [tx], [6]⟩
    let g : Format := Context.format ⟨true, true⟩
    (tx.Sendable g.context ∧ (Codec.read : Read Tx) ⟨g, 0, Codec.write g tx ++ [7]⟩ =
      .ok tx ⟨g, 68, [7]⟩) ∧
    (b.Sendable g.context ∧ (Codec.read : Read Block) ⟨g, 0, Codec.write g b ++ [7]⟩ =
      .ok b ⟨g, 151, [7]⟩) := by
  intro tx b g
  have htx : tx.Sendable g.context :=
    ⟨by decide, by decide, by decide, by decide, by decide, by decide⟩
  have hb : b.Sendable g.context := ⟨by simpa [b] using htx, by decide, by decide⟩
  obtain ⟨hreadTx, hreadBlock⟩ := read_of_write g 0 [7]
  have hlenTx : (Codec.write g tx).length = 68 := by decide +kernel
  have hlenBlock : (Codec.write g b).length = 151 := by decide +kernel
  refine ⟨⟨htx, ?_⟩, hb, ?_⟩
  · rw [hreadTx tx htx, hlenTx]
    rfl
  · rw [hreadBlock b hb, hlenBlock]
    rfl

/-- A byte string is an encoding of the value that is read from it. -/
theorem Codec.encode_of_decode {α : Type} [Wire α] [ExactWire α] {c : Context} {bs : Bytes} {a : α}
    (h : Codec.decode c bs = .ok a) : Codec.encode c a = bs := by
  rw [Codec.decode] at h
  split at h
  · rename_i a' s hread
    split at h
    · rename_i hempty
      cases h
      have hs := (reads.read_eq_ok.mp hread).2.rest
      rw [List.isEmpty_iff.mp hempty, List.append_nil] at hs
      exact hs.symm
    · cases h
  · cases h

/-- The wire format is canonical: a byte string from which a transaction or a block is read is
the encoding of that value in the same context, so no other byte string is read as the same
value. -/
theorem canonical_encoding (c : Context) (bs : Bytes) :
    (∀ tx : Tx, Codec.decode c bs = .ok tx →
      Codec.encode c tx = bs ∧ ∀ bs', Codec.decode c bs' = .ok tx → bs' = bs) ∧
    (∀ b : Block, Codec.decode c bs = .ok b →
      Codec.encode c b = bs ∧ ∀ bs', Codec.decode c bs' = .ok b → bs' = bs) := by
  constructor
  · intro tx h
    refine ⟨Codec.encode_of_decode h, fun bs' h' => ?_⟩
    exact (Codec.encode_of_decode h').symm.trans (Codec.encode_of_decode h)
  · intro b h
    refine ⟨Codec.encode_of_decode h, fun bs' h' => ?_⟩
    exact (Codec.encode_of_decode h').symm.trans (Codec.encode_of_decode h)

/-- The same spend from its bytes. -/
theorem canonical_encoding_signed :
    let tx : Tx := ⟨2, [⟨⟨Digest.zero, 0⟩, ⟨[]⟩, 0xffffffff, [[1, 2], []]⟩], [⟨5, ⟨[0x51]⟩⟩], 0⟩
    let b : Block := ⟨⟨1, Digest.zero, Digest.zero, 3, 4, 5⟩, [tx], [6]⟩
    let bs : Bytes := [2, 0, 0, 0, 0, 1, 1] ++ Bytes.zeros 36 ++ [0, 255, 255, 255, 255, 1, 5] ++
      Bytes.zeros 7 ++ [1, 0x51, 2, 2, 1, 2, 0] ++ Bytes.zeros 4
    let bs' : Bytes := [1, 0, 0, 0] ++ Bytes.zeros 64 ++ [3, 0, 0, 0, 4, 0, 0, 0, 5, 0, 0, 0, 1] ++
      bs ++ [1, 6]
    (Codec.decode ⟨true, true⟩ bs = .ok tx ∧ Codec.encode ⟨true, true⟩ tx = bs) ∧
    (Codec.decode ⟨true, true⟩ bs' = .ok b ∧ Codec.encode ⟨true, true⟩ b = bs') := by
  intro tx b bs bs'
  have htx : Codec.decode ⟨true, true⟩ bs = .ok tx := by decide +kernel
  have hb : Codec.decode ⟨true, true⟩ bs' = .ok b := by decide +kernel
  exact ⟨⟨htx, ((canonical_encoding _ bs).1 tx htx).1⟩, hb, ((canonical_encoding _ bs').2 b hb).1⟩

end StakeChain
