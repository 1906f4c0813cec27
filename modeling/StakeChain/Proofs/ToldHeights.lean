/-
Coinbases tell their height.

A coinbase that passes starts with the push of the height of its block, and a
script starts with one height at most. So it passes at one height only, and
the coinbases of two heights differ. They differ in what is hashed for their
ids as well: there the script of the first input comes after its length, whose
first byte says how long that length is, so two encodings that agree have
their scripts begin at the same place. Nothing is asked of the lengths. What
is behind the script does not matter, since the height is at its start.
-/
import StakeChain.Proofs.Delimited
import StakeChain.Proofs.HeightPush
import StakeChain.Proofs.MerkleTree
import StakeChain.Proofs.Outcome

namespace StakeChain

open Codec (Context Delimited)

/-! ## Coinbases that tell their height -/

namespace Tx

/-- The script of the first input starts with a height. -/
def TellsHeight (tx : Tx) (height : Nat) : Prop :=
  ∃ input, tx.inputs.head? = some input ∧ Script.pushInt height <+: input.scriptSig.bytes

theorem tellsHeight_of_checkHeight {b : Block} {first : Tx} {height : Nat}
    (h : b.checkHeight height = .ok ()) (hfirst : b.txs.head? = some first) :
    first.TellsHeight height := by
  rw [Block.checkHeight, hfirst, Option.bind_some] at h
  cases hinput : first.inputs.head? with
  | none =>
      rw [hinput] at h
      cases h
  | some input =>
      rw [hinput] at h
      exact ⟨input, hinput, List.isPrefixOf_iff_prefix.mp (Verdict.demand_eq_ok.mp h)⟩

/-- A block that passes has a coinbase, and that tells the height. -/
theorem exists_tellsHeight {b : Block} {height : Nat} (h : b.checkHeight height = .ok ()) :
    ∃ first, b.txs.head? = some first ∧ first.TellsHeight height := by
  cases hfirst : b.txs.head? with
  | none =>
      rw [Block.checkHeight, hfirst] at h
      cases h
  | some first => exact ⟨first, rfl, tellsHeight_of_checkHeight h hfirst⟩

/-- A transaction tells one height, whatever its witnesses. -/
theorem TellsHeight.eq {a b : Tx} {m n : Nat} (ha : a.TellsHeight m) (hb : b.TellsHeight n)
    (hm : m < 2 ^ 32) (hn : n < 2 ^ 32) (hsame : a.stripped = b.stripped) : m = n := by
  obtain ⟨i, hi, hpush⟩ := ha
  obtain ⟨j, hj, hpush'⟩ := hb
  have hscripts : a.stripped.inputs.head?.map TxIn.scriptSig =
      b.stripped.inputs.head?.map TxIn.scriptSig := by rw [hsame]
  rw [stripped, stripped, List.head?_map, List.head?_map, hi, hj] at hscripts
  have hscript : i.scriptSig = j.scriptSig := Option.some.inj hscripts
  rw [hscript] at hpush
  exact Script.eq_of_pushInt_prefix hm hn hpush hpush'

end Tx

/-! ## The place of the script in an encoding -/

namespace Codec

variable {m n : Nat} {x y : Bytes}

/-- How long a number is that starts with a byte. -/
def markedLength (b : UInt8) : Nat :=
  if b.toNat < 0xfd then 1 else if b = 0xfd then 3 else if b = 0xfe then 5 else 9

theorem varIntLength_eq_markedLength (n : Nat) : varIntLength n = markedLength (marker n) := by
  rw [varIntLength, marker]
  split
  · have hbyte : (UInt8.ofNat n).toNat < 0xfd := by
      rw [UInt8.toNat_ofNat']
      omega
    rw [markedLength, if_pos hbyte]
  split
  · rfl
  split
  · rfl
  · rfl

/-- What follows two numbers is the same if all of it is. -/
theorem eq_of_varInt_append (h : varInt m ++ x = varInt n ++ y) : x = y := by
  have hmarker : marker m = marker n := by
    rw [varInt_eq_cons, varInt_eq_cons, List.cons_append, List.cons_append] at h
    exact (List.cons.inj h).1
  refine (List.append_inj h ?_).2
  rw [length_varInt, length_varInt, varIntLength_eq_markedLength, hmarker,
    ← varIntLength_eq_markedLength]

end Codec

namespace Tx

variable {a b : Tx} {i j : TxIn} {m n : Nat}

/-- What is hashed for the id, up to the script of the first input. -/
theorem exists_encode (h : a.inputs.head? = some i) :
    ∃ rest, Codec.encode .ids a =
      Codec.write Context.ids.format a.version ++
        (Codec.varInt a.inputs.length ++
          (Codec.write Context.ids.format i.prevout ++
            (Codec.varInt i.scriptSig.bytes.length ++ (i.scriptSig.bytes ++ rest)))) := by
  cases hinputs : a.inputs with
  | nil =>
      rw [hinputs] at h
      cases h
  | cons input inputs =>
      rw [hinputs] at h
      obtain rfl := Option.some.inj h
      let f := Context.ids.format
      refine ⟨Codec.write f input.sequence ++ (inputs.flatMap (Codec.write f) ++
        (Codec.writeList f a.outputs ++ Codec.write f a.lockTime)), ?_⟩
      have hencode : Codec.encode .ids a = Codec.write f a.version ++
          (Codec.varInt a.inputs.length ++ a.inputs.flatMap (Codec.write f) ++
            Codec.writeList f a.outputs ++ Codec.write f a.lockTime) := write_eq f a
      have hinput : Codec.write f input = Codec.write f input.prevout ++
          (Codec.varInt input.scriptSig.bytes.length ++ input.scriptSig.bytes) ++
            Codec.write f input.sequence := rfl
      rw [hencode, hinputs, List.flatMap_cons, hinput]
      simp only [List.append_assoc]
      rfl

/-- Where two encodings agree, the scripts of the first inputs are the start of the same bytes. -/
theorem exists_scripts_prefix (hi : a.inputs.head? = some i) (hj : b.inputs.head? = some j)
    (hsame : Codec.encode .ids a = Codec.encode .ids b) :
    ∃ bytes, i.scriptSig.bytes <+: bytes ∧ j.scriptSig.bytes <+: bytes := by
  obtain ⟨rest, ha⟩ := exists_encode hi
  obtain ⟨rest', hb⟩ := exists_encode hj
  rw [ha, hb] at hsame
  obtain ⟨-, hinputs⟩ := (Delimited.of_wire Int32 _).inj trivial trivial hsame
  obtain ⟨-, hscript⟩ := (Delimited.of_wire OutPoint _).inj trivial trivial
    (Codec.eq_of_varInt_append hinputs)
  have hbytes := Codec.eq_of_varInt_append hscript
  refine ⟨_, List.prefix_append _ rest, ?_⟩
  rw [hbytes]
  exact List.prefix_append _ rest'

/-- Transactions of one encoding tell one height. -/
theorem TellsHeight.eq_of_encode (ha : a.TellsHeight m) (hb : b.TellsHeight n)
    (hm : m < 2 ^ 32) (hn : n < 2 ^ 32) (hsame : Codec.encode .ids a = Codec.encode .ids b) :
    m = n := by
  obtain ⟨i, hi, hpush⟩ := ha
  obtain ⟨j, hj, hpush'⟩ := hb
  obtain ⟨bytes, hbytes, hbytes'⟩ := exists_scripts_prefix hi hj hsame
  exact Script.eq_of_pushInt_prefix hm hn (hpush.trans hbytes) (hpush'.trans hbytes')

end Tx

/-- No bytes start with two heights. So no coinbase passes at two heights, and blocks that pass at
different heights have coinbases of different ids, unless what is hashed for the two collides. -/
theorem Block.one_height_told {m n : UInt32} (hne : m ≠ n) :
    (∀ bytes, ¬ ((heightPush m.toNat).bytes <+: bytes ∧ (heightPush n.toNat).bytes <+: bytes)) ∧
    (∀ a b : Block, a.txs.head? = b.txs.head? →
      ¬ (a.checkHeight m.toNat = .ok () ∧ b.checkHeight n.toNat = .ok ())) ∧
    (∀ a b : Block, a.checkHeight m.toNat = .ok () → b.checkHeight n.toNat = .ok () →
      ∃ tx tx', a.txs.head? = some tx ∧ b.txs.head? = some tx' ∧
        Codec.encode .ids tx ≠ Codec.encode .ids tx' ∧
        (CollisionFree [Codec.encode .ids tx, Codec.encode .ids tx'] → tx.id ≠ tx'.id)) := by
  have hnat : m.toNat ≠ n.toNat := fun h => hne (UInt32.toNat_inj.mp h)
  have htold : ∀ a b : Block, a.checkHeight m.toNat = .ok () → b.checkHeight n.toNat = .ok () →
      ∃ tx tx', a.txs.head? = some tx ∧ b.txs.head? = some tx' ∧
        Codec.encode .ids tx ≠ Codec.encode .ids tx' := by
    intro a b ha hb
    obtain ⟨tx, htx, htells⟩ := Tx.exists_tellsHeight ha
    obtain ⟨tx', htx', htells'⟩ := Tx.exists_tellsHeight hb
    refine ⟨tx, tx', htx, htx', fun hsame => hnat ?_⟩
    exact htells.eq_of_encode htells' m.toNat_lt n.toNat_lt hsame
  refine ⟨?_, ?_, ?_⟩
  · rintro bytes ⟨hm, hn⟩
    exact hnat (Script.eq_of_pushInt_prefix m.toNat_lt n.toNat_lt hm hn)
  · rintro a b hhead ⟨ha, hb⟩
    obtain ⟨tx, tx', htx, htx', hdiffer⟩ := htold a b ha hb
    rw [hhead, htx'] at htx
    cases htx
    exact hdiffer rfl
  · intro a b ha hb
    obtain ⟨tx, tx', htx, htx', hdiffer⟩ := htold a b ha hb
    refine ⟨tx, tx', htx, htx', hdiffer, fun hfree hid => hdiffer ?_⟩
    exact hfree.inj _ List.mem_cons_self _ (List.mem_cons_of_mem _ List.mem_cons_self) hid

namespace Sample

/-- A block of a coinbase that starts with these bytes. -/
def telling (bytes : Bytes) : Block :=
  ⟨⟨4, Digest.zero, Digest.zero, 1600000000, 0x207fffff, 0⟩,
    [⟨1, [⟨OutPoint.null, ⟨bytes⟩, sequenceFinal, []⟩], [⟨5000000000, .empty⟩], 0⟩], []⟩

end Sample

/-- Two scripts of the pushes of sixteen and of seventeen, each with another one first. -/
theorem Block.one_height_told_sixteen :
    ∃ tx tx', (Sample.telling [0x60, 0x01, 0x11]).txs.head? = some tx ∧
      (Sample.telling [0x01, 0x11, 0x60]).txs.head? = some tx' ∧ tx.id ≠ tx'.id := by
  have hne : (16 : UInt32) ≠ 17 := by decide
  obtain ⟨-, -, hids⟩ := one_height_told hne
  obtain ⟨tx, tx', htx, htx', -, hid⟩ := hids (Sample.telling [0x60, 0x01, 0x11])
    (Sample.telling [0x01, 0x11, 0x60]) (by decide +kernel) (by decide +kernel)
  refine ⟨tx, tx', htx, htx', hid ?_⟩
  cases htx
  cases htx'
  exact CollisionFree.of_nodup (by decide +kernel)

end StakeChain
