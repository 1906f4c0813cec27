/-
What is stored on disk is read back.

Coins, the records of blocks and extended keys are written one part after
another and read in the same way. What is written for a value is read back,
and reading goes on right after it, in the byte order that was in force.

The converse holds of extended keys only. A coin and a record of a block are
stored with numbers of 64 bits, which are then cut to the width of the field. So
both readers are taken apart: what is stored is read exactly, and is then turned
into a value. Bytes are the form of the value that was read from them just when
nothing was cut.
-/
import StakeChain.Coin
import StakeChain.Key.Extended
import StakeChain.Proofs.Base128
import StakeChain.Proofs.Delimited
import StakeChain.Proofs.Wire
import StakeChain.Stake.Record

namespace StakeChain

open Stateful
open Codec (Wire Read Format Context Stream ExactWire Delimited maxSize maxUInt64 fits reads)

/-! ## Parts -/

instance : ExactWire UInt8 where
  fits _ _ := True
  reads := Read.Exact.byte

/-- A reader that is run in the other byte order reads what is written in it, and leaves the byte
order as it was. -/
theorem Codec.Read.Exact.bigEndian {α : Type} {r : Read α} {fits : Format → α → Prop}
    {write : Format → α → Bytes} (h : r.Exact fits write) :
    (Read.bigEndian r).Exact (fun g => fits { g with order := .big })
      (fun g => write { g with order := .big }) where
  read_eq_ok := by
    rintro ⟨g, consumed, bs⟩ a ⟨g', consumed', bs'⟩
    rw [Read.bigEndian]
    dsimp only
    cases hr : r ⟨{ g with order := .big }, consumed, bs⟩ with
    | error e u =>
        refine ⟨nofun, fun ⟨hfits, hrest, _, _⟩ => ?_⟩
        obtain rfl : bs = _ ++ bs' := hrest
        rw [h.read_of_append hfits] at hr
        cases hr
    | ok b u =>
        obtain ⟨hb, hrest, hformat, hconsumed⟩ := h.read_eq_ok.mp hr
        have hback : { u.format with order := g.order } = g := by rw [hformat]
        constructor
        · intro heq
          cases heq
          exact ⟨hb, hrest, hback, hconsumed⟩
        · rintro ⟨ha, hrest', hformat', hconsumed'⟩
          have hagain := h.read_eq_ok.mpr
            ⟨ha, (⟨hrest', rfl, hconsumed'⟩ : Stream.Passes ⟨{ g with order := .big }, consumed, bs⟩
              _ ⟨{ g with order := .big }, consumed', bs'⟩)⟩
          rw [hr] at hagain
          cases hagain
          obtain rfl : g' = g := hformat'
          rfl

/-! ## Extended keys -/

namespace Key

theorem SecretKey.ofNat?_eq_some {n : Nat} {k : SecretKey} :
    SecretKey.ofNat? n = some k ↔ k.value = n := by
  constructor
  · intro h
    rw [ofNat?] at h
    split at h
    · cases h
      rfl
    · cases h
  · rintro rfl
    exact dif_pos ⟨k.pos, k.lt_order⟩

theorem SecretKey.value_lt (k : SecretKey) : k.value < 256 ^ 32 :=
  Nat.lt_trans k.lt_order (by decide)

/-- Thirty-two bytes are a key just when they are written for it. -/
theorem SecretKey.toBytes_eq_iff {k : SecretKey} {bs : Bytes} (h : bs.length = 32) :
    k.toBytes = bs ↔ k.value = Bytes.toNatBE bs := by
  constructor
  · rintro rfl
    have hback : Bytes.toNat .big (Bytes.ofNat .big 32 k.value) = k.value :=
      Bytes.toNat_ofNat k.value_lt
    exact hback.symm
  · intro hk
    rw [toBytes, hk]
    change Bytes.ofNat .big 32 (Bytes.toNat .big bs) = bs
    exact Bytes.ofNat_toNat h

namespace ExtendedKey

/-- Reads the secret key after the other parts. -/
def readSecret (depth : UInt8) (parent : Digest 4) (child : UInt32) (chainCode : Digest 32) :
    Read ExtendedKey := do
  let secret ← Read.bytes 32
  match SecretKey.ofNat? (Bytes.toNatBE secret) with
  | some secret => pure ⟨depth, parent, child, chainCode, secret⟩
  | none => throw .invalidKeyMaterial

/-- Reads the zero byte before the secret key, and the secret key. -/
def readPadded (depth : UInt8) (parent : Digest 4) (child : UInt32) (chainCode : Digest 32) :
    Read ExtendedKey := do
  let zero ← Read.byte
  if zero ≠ 0 then throw .invalidKeyMaterial
  readSecret depth parent child chainCode

section

variable (depth : UInt8) (parent : Digest 4) (child : UInt32) (chainCode : Digest 32)

theorem readSecret_exact :
    (readSecret depth parent child chainCode).Exact
      (fun _ k => k = ⟨depth, parent, child, chainCode, k.secret⟩)
      (fun _ k => k.secret.toBytes) := by
  have hkey (bs : Bytes) :
      (match SecretKey.ofNat? (Bytes.toNatBE bs) with
        | some secret => pure ⟨depth, parent, child, chainCode, secret⟩
        | none => throw .invalidKeyMaterial : Read ExtendedKey).Exact
        (fun _ k => k.secret.value = Bytes.toNatBE bs ∧
          k = ⟨depth, parent, child, chainCode, k.secret⟩)
        (fun _ _ => []) := by
    cases hsecret : SecretKey.ofNat? (Bytes.toNatBE bs) with
    | none =>
        refine .never (fun _ _ _ => throw_ne_ok) fun _ k ⟨hk, _⟩ => ?_
        rw [SecretKey.ofNat?_eq_some.mpr hk] at hsecret
        cases hsecret
    | some secret =>
        have hvalue := SecretKey.ofNat?_eq_some.mp hsecret
        refine (Read.Exact.pure _).congr (fun _ k => ?_) fun _ _ _ => rfl
        constructor
        · rintro ⟨hk, heq⟩
          rw [SecretKey.ofNat?_eq_some.mpr hk] at hsecret
          cases hsecret
          exact heq
        · rintro rfl
          exact ⟨hvalue, rfl⟩
  refine ((Read.Exact.bytes 32).bind (fun k : ExtendedKey => k.secret.toBytes) hkey
    fun hlength hk => (SecretKey.toBytes_eq_iff hlength).mpr hk.1).congr
    (fun _ k => ?_) fun _ k _ => (List.append_nil _).symm
  have hlength : k.secret.toBytes.length = 32 := Bytes.length_ofNatBE ..
  exact ⟨fun hk => ⟨hlength, (SecretKey.toBytes_eq_iff hlength).mp rfl, hk⟩, fun hk => hk.2.2⟩

theorem readPadded_exact :
    (readPadded depth parent child chainCode).Exact
      (fun _ k => k = ⟨depth, parent, child, chainCode, k.secret⟩)
      (fun _ k => 0 :: k.secret.toBytes) := by
  have hkey (zero : UInt8) :
      (do
        if zero ≠ 0 then throw .invalidKeyMaterial
        readSecret depth parent child chainCode : Read ExtendedKey).Exact
        (fun _ k => zero = 0 ∧ k = ⟨depth, parent, child, chainCode, k.secret⟩)
        (fun _ k => k.secret.toBytes) := by
    by_cases hzero : zero = 0
    · subst zero
      exact (readSecret_exact depth parent child chainCode).congr
        (fun _ k => and_iff_right rfl) fun _ _ _ => rfl
    · rw [if_pos hzero]
      exact .never (fun _ _ _ h => nomatch h) fun _ _ hk => hzero hk.1
  exact (Read.Exact.byte.bind (fun _ => 0) hkey fun _ hk => hk.1.symm).congr
    (fun _ k => ⟨fun hk => ⟨trivial, rfl, hk⟩, fun hk => hk.2.2⟩) fun _ _ _ => rfl

end

instance : ExactWire ExtendedKey where
  fits _ _ := True
  reads := by
    have h := (reads (α := UInt8)).bind ExtendedKey.depth (fun depth =>
      (reads (α := Digest 4)).bind ExtendedKey.parent (fun parent =>
        (reads (α := UInt32)).bigEndian.bind ExtendedKey.child (fun child =>
          (reads (α := Digest 32)).bind ExtendedKey.chainCode (fun chainCode =>
            readPadded_exact depth parent child chainCode)
            (fun _ h => congrArg ExtendedKey.chainCode h))
            (fun _ h => congrArg ExtendedKey.child h.2))
            (fun _ h => congrArg ExtendedKey.parent h.2.2))
            fun _ h => congrArg ExtendedKey.depth h.2.2.2
    refine h.congr (fun _ _ => iff_of_true trivial
      ⟨trivial, trivial, trivial, trivial, rfl⟩) fun g k _ => ?_
    simp only [← List.append_assoc]
    rfl

theorem length_write (g : Format) (k : ExtendedKey) : (Codec.write g k).length = 74 := by
  change (Codec.write g k.depth ++ k.parent.bytes ++ Bytes.ofNat .big 4 k.child.toNat ++
    k.chainCode.bytes ++ 0 :: k.secret.toBytes).length = 74
  have hdepth : (Codec.write g k.depth).length = 1 := rfl
  have hsecret : k.secret.toBytes.length = 32 := Bytes.length_ofNatBE ..
  simp only [List.length_append, List.length_cons, Bytes.length_ofNat, k.parent.length_bytes,
    k.chainCode.length_bytes, hdepth, hsecret]

end ExtendedKey

end Key

/-! ## Coins -/

namespace Coin

/-- A coin as it is stored: its numbers before they are cut, and the byte that says whether a script
follows. -/
structure Stored where
  code : Nat
  time : Nat
  output : TxOut
  known : UInt8
  redeemScript : Option Script
deriving DecidableEq

namespace Stored

/-- The coin that is read from what is stored. -/
def coin (k : Stored) : Coin where
  output := k.output
  height := UInt32.ofNat (k.code / 4)
  isCoinbase := k.code % 2 == 1
  isCoinstake := k.code / 2 % 2 == 1
  time := UInt32.ofNat k.time
  redeemScript := k.redeemScript

/-- The script after the byte that says whether there is one. -/
def readScript (known : UInt8) : Read (Option Script) :=
  if known = 0 then pure none else some <$> Codec.read

/-- Reads what is stored. -/
def read : Read Stored := do
  let code ← Read.compactVarInt
  let time ← Read.compactVarInt
  let output ← Codec.read
  let known ← Read.byte
  let redeemScript ← readScript known
  pure ⟨code, time, output, known, redeemScript⟩

instance : Wire Stored where
  write g k :=
    Codec.compactVarInt k.code ++ Codec.compactVarInt k.time ++ Codec.write g k.output
      ++ k.known :: (k.redeemScript.map (Codec.write g)).getD []
  read := read

/-- Nothing is cut: height and time fit 32 bits, and the byte before the script is one of the two
that are written. -/
structure Whole (k : Stored) : Prop where
  code : k.code < 2 ^ 34
  time : k.time < 2 ^ 32
  known : k.known ≤ 1

instance (k : Stored) : Decidable k.Whole :=
  decidable_of_iff (k.code < 2 ^ 34 ∧ k.time < 2 ^ 32 ∧ k.known ≤ 1)
    ⟨fun ⟨hcode, htime, hknown⟩ => ⟨hcode, htime, hknown⟩, fun h => ⟨h.code, h.time, h.known⟩⟩

/-- A script is there if the byte before it is not zero. -/
theorem readScript_exact (known : UInt8) :
    (readScript known).Exact (fun g o => (known ≠ 0 ↔ o.isSome) ∧ ∀ s ∈ o, fits g s)
      (fun g o => (o.map (Codec.write g)).getD []) := by
  rw [readScript]
  split
  · next hknown =>
      refine (Read.Exact.pure none).congr (fun _ o => ?_) fun _ o ho => ?_
      · cases o <;> simp [hknown]
      · cases o with
        | none => rfl
        | some s => simp at ho
  · next hknown =>
      have hsome {o : Option Script} (h : known ≠ 0 ↔ o.isSome) :
          some (o.getD Script.empty) = o := by
        obtain ⟨s, rfl⟩ := Option.isSome_iff_exists.mp (h.mp hknown)
        rfl
      have hread : (some <$> Codec.read : Read (Option Script)).Exact
          (fun g o => (known ≠ 0 ↔ o.isSome) ∧ ∀ s ∈ o, fits g s)
          (fun g o => Codec.write g (o.getD Script.empty)) := by
        refine (reads (α := Script)).map (fun o : Option Script => o.getD Script.empty)
          (fun hs => ?_) fun ho => ?_
        · refine ⟨⟨iff_of_true hknown rfl, ?_⟩, rfl⟩
          rintro _ ⟨⟩
          exact hs
        · exact ⟨ho.2 _ (hsome ho.1).symm, hsome ho.1⟩
      refine hread.congr (fun _ _ => Iff.rfl) fun g o ho => ?_
      rw [← hsome ho.1]
      rfl

instance : ExactWire Stored where
  fits g k := (k.code ≤ maxUInt64 ∧ k.time ≤ maxUInt64 ∧ fits g k.output) ∧
    (k.known ≠ 0 ↔ k.redeemScript.isSome) ∧ ∀ s ∈ k.redeemScript, fits g s
  reads := by
    have h := Read.Exact.compactVarInt.bind Stored.code (fun code =>
      Read.Exact.compactVarInt.bind Stored.time (fun time =>
        (reads (α := TxOut)).bind Stored.output (fun output =>
          Read.Exact.byte.bind Stored.known (fun known =>
            (readScript_exact known).bind Stored.redeemScript (fun redeemScript =>
              .pure ⟨code, time, output, known, redeemScript⟩)
              (fun _ h => congrArg Stored.redeemScript h))
              (fun _ h => congrArg Stored.known h.2))
              (fun _ h => congrArg Stored.output h.2.2))
              (fun _ h => congrArg Stored.time h.2.2.2))
              fun _ h => congrArg Stored.code h.2.2.2.2
    refine h.congr (fun g k => ?_) fun g k _ => ?_
    · constructor
      · rintro ⟨⟨hcode, htime, houtput⟩, hscript⟩
        exact ⟨hcode, htime, houtput, trivial, hscript, rfl⟩
      · rintro ⟨hcode, htime, houtput, -, hscript, -⟩
        exact ⟨⟨hcode, htime, houtput⟩, hscript⟩
    · rw [List.append_nil, ← List.append_assoc, ← List.append_assoc]
      rfl

end Stored

/-- A coin is read as it is stored, and then cut. -/
theorem read_eq_map : (Codec.read : Read Coin) = Stored.coin <$> (Codec.read : Read Stored) := by
  change Coin.read = Stored.coin <$> Stored.read
  simp only [Coin.read, Stored.read, map_bind, map_pure]
  refine bind_congr fun code => bind_congr fun time => bind_congr fun output => ?_
  change ((· != 0) <$> Read.byte >>= _) = _
  rw [bind_map_left]
  refine bind_congr fun known => ?_
  rw [Stored.readScript]
  by_cases hknown : known = 0
  · subst known
    rfl
  · rw [if_pos (bne_iff_ne.mpr hknown), if_neg hknown]
    rfl

/-- What is stored of a coin. -/
def stored (c : Coin) : Stored :=
  ⟨c.code, c.time.toNat, c.output, if c.redeemScript.isSome then 1 else 0, c.redeemScript⟩

theorem write_stored (g : Format) (c : Coin) : Codec.write g c.stored = Codec.write g c := by
  obtain ⟨output, height, isCoinbase, isCoinstake, time, redeemScript⟩ := c
  cases redeemScript with
  | none => rfl
  | some s => rfl

theorem code_lt (c : Coin) : c.code < 2 ^ 34 := by
  have hheight := c.height.toNat_lt
  have hbase := Bool.toNat_le c.isCoinbase
  have hstake := Bool.toNat_le c.isCoinstake
  rw [code]
  omega

theorem coin_stored (c : Coin) : c.stored.coin = c := by
  obtain ⟨output, height, isCoinbase, isCoinstake, time, redeemScript⟩ := c
  have hbase := Bool.toNat_le isCoinbase
  have hstake := Bool.toNat_le isCoinstake
  have hheight : (height.toNat * 4 + isCoinstake.toNat * 2 + isCoinbase.toNat) / 4 =
      height.toNat := by omega
  have hstakeBit : (height.toNat * 4 + isCoinstake.toNat * 2 + isCoinbase.toNat) / 2 % 2 =
      isCoinstake.toNat := by omega
  have hbaseBit : (height.toNat * 4 + isCoinstake.toNat * 2 + isCoinbase.toNat) % 2 =
      isCoinbase.toNat := by omega
  have hbit (b : Bool) : (b.toNat == 1) = b := by cases b <;> rfl
  simp only [stored, Stored.coin, code, hheight, hstakeBit, hbaseBit, hbit, UInt32.ofNat_toNat]

/-- What is stored is what would be stored of the coin that is read from it just when nothing is
cut. -/
theorem stored_coin_iff {k : Stored} {g : Format} (h : fits g k) : k.coin.stored = k ↔ k.Whole := by
  constructor
  · intro hk
    refine ⟨?_, ?_, ?_⟩
    · rw [← hk]
      exact k.coin.code_lt
    · rw [← hk]
      exact k.coin.time.toNat_lt
    · rw [← hk, stored]
      split
      · exact UInt8.le_refl 1
      · exact UInt8.zero_le
  · rintro ⟨hcode, htime, hknown⟩
    obtain ⟨code, time, output, known, redeemScript⟩ := k
    have hscript : known ≠ 0 ↔ redeemScript.isSome := h.2.1
    have hheight : (UInt32.ofNat (code / 4)).toNat = code / 4 :=
      UInt32.toNat_ofNat_of_lt' (Nat.div_lt_of_lt_mul hcode)
    have htime' : (UInt32.ofNat time).toNat = time := UInt32.toNat_ofNat_of_lt' htime
    have hbit (n : Nat) : (n % 2 == 1).toNat = n % 2 := by
      rcases Nat.mod_two_eq_zero_or_one n with h | h <;> rw [h] <;> rfl
    have hflag : (if redeemScript.isSome then 1 else 0) = known := by
      split
      · next hsome =>
          have hle : known.toNat ≤ 1 := UInt8.le_iff_toNat_le.mp hknown
          have hne : known.toNat ≠ 0 := UInt8.toNat_inj.not.mpr (hscript.mpr hsome)
          exact UInt8.toNat_inj.mp (Nat.le_antisymm (Nat.pos_of_ne_zero hne) hle)
      · next hnone => exact (not_not.mp (mt hscript.mp hnone)).symm
    simp only [stored, Stored.coin, Coin.code, Stored.mk.injEq, hheight, htime', hbit, and_true,
      true_and]
    exact ⟨by omega, hflag⟩

theorem fits_stored {c : Coin} {g : Format} (houtput : fits g c.output)
    (hredeem : ∀ s ∈ c.redeemScript, fits g s) : fits g c.stored := by
  have hcode := c.code_lt
  have htime := c.time.toNat_lt
  refine ⟨⟨?_, ?_, houtput⟩, ?_, hredeem⟩
  · change c.code ≤ maxUInt64
    rw [maxUInt64]
    omega
  · change c.time.toNat ≤ maxUInt64
    rw [maxUInt64]
    omega
  · change (if c.redeemScript.isSome then 1 else 0) ≠ (0 : UInt8) ↔ c.redeemScript.isSome
    cases c.redeemScript <;> simp

end Coin

/-! ## Records of blocks -/

namespace StakeRecord

/-- The record of a block as it is stored: its flags before they are cut. -/
structure Stored where
  flags : Nat
  modifier : Hash256
  prevout : OutPoint
  time : UInt32
  proof : Hash256
deriving DecidableEq

namespace Stored

/-- Reads what is stored. -/
def read : Read Stored := do
  let flags ← Read.compactVarInt
  let modifier ← Codec.read
  let prevout ← Codec.read
  let time ← Codec.read
  let proof ← Codec.read
  pure ⟨flags, modifier, prevout, time, proof⟩

/-- The record that is read from what is stored. -/
def record (k : Stored) : StakeRecord :=
  ⟨UInt32.ofNat k.flags, k.modifier, k.prevout, k.time, k.proof⟩

instance : Wire Stored where
  write g k :=
    Codec.compactVarInt k.flags ++ Codec.write g k.modifier ++ Codec.write g k.prevout
      ++ Codec.write g k.time ++ Codec.write g k.proof
  read := read

instance : ExactWire Stored where
  fits _ k := k.flags ≤ maxUInt64
  reads := by
    have h := Read.Exact.compactVarInt.bind Stored.flags (fun flags =>
      (reads (α := Hash256)).bind Stored.modifier (fun modifier =>
        (reads (α := OutPoint)).bind Stored.prevout (fun prevout =>
          (reads (α := UInt32)).bind Stored.time (fun time =>
            (reads (α := Hash256)).bind Stored.proof (fun proof =>
              .pure ⟨flags, modifier, prevout, time, proof⟩)
              (fun _ h => congrArg Stored.proof h))
              (fun _ h => congrArg Stored.time h.2))
              (fun _ h => congrArg Stored.prevout h.2.2))
              (fun _ h => congrArg Stored.modifier h.2.2.2))
              fun _ h => congrArg Stored.flags h.2.2.2.2
    refine h.congr (fun _ _ => ⟨fun h => ⟨h, trivial, trivial, trivial, trivial, rfl⟩, And.left⟩)
      fun g k _ => ?_
    simp only [List.append_nil, ← List.append_assoc]
    rfl

end Stored

/-- A record is read as it is stored, and then cut. -/
theorem read_eq_map :
    (Codec.read : Read StakeRecord) = Stored.record <$> (Codec.read : Read Stored) := by
  change _ = Stored.record <$> Stored.read
  simp only [Stored.read, map_bind, map_pure]
  rfl

/-- What is stored of a record. -/
def stored (r : StakeRecord) : Stored :=
  ⟨r.flags.toNat, r.modifier, r.prevout, r.time, r.proof⟩

theorem write_stored (g : Format) (r : StakeRecord) : Codec.write g r.stored = Codec.write g r :=
  rfl

theorem record_stored (r : StakeRecord) : r.stored.record = r := by
  rw [stored, Stored.record, UInt32.ofNat_toNat]

theorem fits_stored (g : Format) (r : StakeRecord) : fits g r.stored := by
  have hflags := r.flags.toNat_lt
  change r.flags.toNat ≤ maxUInt64
  rw [maxUInt64]
  omega

theorem stored_record_iff {k : Stored} : k.record.stored = k ↔ k.flags < 2 ^ 32 := by
  constructor
  · intro hk
    rw [← hk]
    exact k.record.flags.toNat_lt
  · intro hflags
    rw [stored, Stored.record, UInt32.toNat_ofNat_of_lt' hflags]

end StakeRecord

/-! ## What is stored, and what is made of it -/

theorem Codec.decode_eq_ok {α : Type} [Wire α] {c : Context} {bs : Bytes} {a : α} :
    Codec.decode c bs = .ok a ↔
      ∃ s, Codec.read (Stream.ofBytes c bs) = .ok a s ∧ s.rest = [] := by
  rw [Codec.decode]
  cases (Codec.read : Read α) (Stream.ofBytes c bs) with
  | error e s =>
      constructor
      · intro h
        cases h
      · rintro ⟨_, h, _⟩
        cases h
  | ok b s =>
      dsimp only
      by_cases hend : s.rest = []
      · rw [if_pos (List.isEmpty_iff.mpr hend)]
        constructor
        · intro h
          cases h
          exact ⟨s, rfl, hend⟩
        · rintro ⟨_, h, _⟩
          cases h
          rfl
      · rw [if_neg (List.isEmpty_iff.not.mpr hend)]
        constructor
        · intro h
          cases h
        · rintro ⟨_, h, hrest⟩
          cases h
          exact absurd hrest hend

section

variable {α β : Type} [Wire α] [Wire β] [ExactWire β] {value : β → α} {stored : α → β}

/-- A value that is made of what is stored is read back where what is stored of it is. -/
theorem read_of_stored (hread : (Codec.read : Read α) = value <$> (Codec.read : Read β))
    (hwrite : ∀ g a, Codec.write g (stored a) = Codec.write g a) {g : Format} {a : α}
    (hvalue : value (stored a) = a) (hfits : fits g (stored a)) (consumed : Nat) (rest : Bytes) :
    Codec.read ⟨g, consumed, Codec.write g a ++ rest⟩ =
      .ok a ⟨g, consumed + (Codec.write g a).length, rest⟩ := by
  rw [hread, map_eq_ok]
  refine ⟨stored a, ?_, hvalue.symm⟩
  rw [← hwrite]
  exact reads.read_of_append hfits consumed rest

/-- A value is made of what its bytes keep, and is written as it was read just when that is what
would be stored of it. -/
theorem stored_of_decode (hread : (Codec.read : Read α) = value <$> (Codec.read : Read β))
    (hwrite : ∀ g a, Codec.write g (stored a) = Codec.write g a) {c : Context} {bs : Bytes} {a : α}
    (hstored : ∀ k, fits c.format k → value k = a → fits c.format (stored a))
    (h : Codec.decode c bs = .ok a) :
    ∃ k : β, Codec.decode c bs = .ok k ∧ Codec.encode c k = bs ∧ value k = a ∧
      fits c.format k ∧ (Codec.encode c a = bs ↔ stored a = k) := by
  obtain ⟨s, hs, hend⟩ := Codec.decode_eq_ok.mp h
  rw [hread] at hs
  obtain ⟨k, hk, rfl⟩ := map_eq_ok.mp hs
  have hfits : fits c.format k := (reads.read_eq_ok.mp hk).1
  have hdecode : Codec.decode c bs = .ok k := Codec.decode_eq_ok.mpr ⟨s, hk, hend⟩
  have hencode : Codec.encode c k = bs := Codec.encode_of_decode hdecode
  refine ⟨k, hdecode, hencode, rfl, hfits, ?_⟩
  rw [← hencode, Codec.encode, ← hwrite]
  constructor
  · exact (Delimited.of_wire β c.format).eq (hstored k hfits rfl) hfits
  · intro hk
    rw [hk]
    rfl

end

/-! ## Read back, and written as read -/

/-- What is written for a coin, the record of a block or an extended key is read back, whatever
follows it, and the stream goes on right after it in the byte order it had. -/
theorem records_read_back (g : Format) (consumed : Nat) (rest : Bytes) :
    (∀ coin : Coin, coin.output.script.bytes.length ≤ maxSize →
      (∀ s ∈ coin.redeemScript, s.bytes.length ≤ maxSize) →
      Codec.read ⟨g, consumed, Codec.write g coin ++ rest⟩ =
        .ok coin ⟨g, consumed + (Codec.write g coin).length, rest⟩) ∧
    (∀ record : StakeRecord, Codec.read ⟨g, consumed, Codec.write g record ++ rest⟩ =
      .ok record ⟨g, consumed + (Codec.write g record).length, rest⟩) ∧
    (∀ key : Key.ExtendedKey, (Codec.write g key).length = 74 ∧
      Codec.read ⟨g, consumed, Codec.write g key ++ rest⟩ = .ok key ⟨g, consumed + 74, rest⟩) := by
  refine ⟨fun coin houtput hredeem => ?_, fun record => ?_, fun key => ⟨key.length_write g, ?_⟩⟩
  · exact read_of_stored Coin.read_eq_map Coin.write_stored coin.coin_stored
      (Coin.fits_stored houtput hredeem) consumed rest
  · exact read_of_stored StakeRecord.read_eq_map StakeRecord.write_stored record.record_stored
      (record.fits_stored g) consumed rest
  · rw [← key.length_write g]
    exact reads.read_of_append trivial consumed rest

/-- The coin with the largest numbers and a script, the record with all flags and the last key of
all, in a stream in the other byte order. -/
theorem records_read_back_largest :
    let coin : Coin :=
      ⟨⟨Int64.maxValue, ⟨[0x51]⟩⟩, 0xffffffff, true, true, 0xffffffff, some ⟨[1, 2]⟩⟩
    let record : StakeRecord := { StakeRecord.empty with flags := 0xffffffff }
    let key : Key.ExtendedKey :=
      ⟨255, Digest.zero, 0xffffffff, Digest.zero, Curve.n - 1, by decide, by decide⟩
    let g : Format := ⟨Context.network, .big⟩
    ((coin.output.script.bytes.length ≤ maxSize ∧
        ∀ s ∈ coin.redeemScript, s.bytes.length ≤ maxSize) ∧
      Codec.read ⟨g, 0, Codec.write g coin ++ [7]⟩ = .ok coin ⟨g, 24, [7]⟩) ∧
    Codec.read ⟨g, 0, Codec.write g record ++ [7]⟩ = .ok record ⟨g, 109, [7]⟩ ∧
    Codec.read ⟨g, 0, Codec.write g key ++ [7]⟩ = .ok key ⟨g, 74, [7]⟩ := by
  intro coin record key g
  obtain ⟨hcoin, hrecord, hkey⟩ := records_read_back g 0 [7]
  have houtput : coin.output.script.bytes.length ≤ maxSize := by decide
  have hredeem : ∀ s ∈ coin.redeemScript, s.bytes.length ≤ maxSize := by decide
  have hlenCoin : (Codec.write g coin).length = 24 := by decide +kernel
  have hlenRecord : (Codec.write g record).length = 109 := by decide +kernel
  refine ⟨⟨⟨houtput, hredeem⟩, ?_⟩, ?_, (hkey key).2⟩
  · rw [hcoin coin houtput hredeem, hlenCoin]
  · rw [hrecord record, hlenRecord]

/-- Bytes that a coin or the record of a block is read from are what is written for it just when
nothing was cut: the numbers that are stored have a place in their fields, and the byte before a
script is zero or one. -/
theorem written_as_read_iff (c : Context) (bs : Bytes) :
    (∀ coin : Coin, Codec.decode c bs = .ok coin →
      ∃ k : Coin.Stored, Codec.decode c bs = .ok k ∧ Codec.encode c k = bs ∧ k.coin = coin ∧
        (Codec.encode c coin = bs ↔ k.Whole)) ∧
    (∀ record : StakeRecord, Codec.decode c bs = .ok record →
      ∃ k : StakeRecord.Stored, Codec.decode c bs = .ok k ∧ Codec.encode c k = bs ∧
        k.record = record ∧ (Codec.encode c record = bs ↔ k.flags < 2 ^ 32)) := by
  constructor
  · intro coin h
    obtain ⟨k, hdecode, hencode, rfl, hfits, hiff⟩ :=
      stored_of_decode Coin.read_eq_map Coin.write_stored
        (fun k hk hcoin => by
          subst hcoin
          exact Coin.fits_stored hk.1.2.2 hk.2.2) h
    exact ⟨k, hdecode, hencode, rfl, hiff.trans (Coin.stored_coin_iff hfits)⟩
  · intro record h
    obtain ⟨k, hdecode, hencode, rfl, -, hiff⟩ :=
      stored_of_decode StakeRecord.read_eq_map StakeRecord.write_stored
        (fun k _ _ => StakeRecord.fits_stored _ _) h
    exact ⟨k, hdecode, hencode, rfl, hiff.trans StakeRecord.stored_record_iff⟩

/-- The largest height, time and flags that have a place. -/
theorem written_as_read_largest :
    let coin : Coin := ⟨⟨5, ⟨[]⟩⟩, 0xffffffff, true, true, 0xffffffff, some ⟨[0x51]⟩⟩
    let record : StakeRecord := { StakeRecord.empty with flags := 0xffffffff }
    let coinBytes : Bytes := [0xbe, 0xfe, 0xfe, 0xfe, 0x7f, 0x8e, 0xfe, 0xfe, 0xfe, 0x7f, 5] ++
      Bytes.zeros 8 ++ [1, 1, 0x51]
    let recordBytes : Bytes := [0x8e, 0xfe, 0xfe, 0xfe, 0x7f] ++ Bytes.zeros 64 ++
      [0xff, 0xff, 0xff, 0xff] ++ Bytes.zeros 36
    (Codec.decode Context.network coinBytes = .ok coin ∧
      Codec.encode Context.network coin = coinBytes) ∧
    (Codec.decode Context.network recordBytes = .ok record ∧
      Codec.encode Context.network record = recordBytes) := by
  intro coin record coinBytes recordBytes
  have hcoin : Codec.decode Context.network coinBytes = .ok coin := by decide +kernel
  have hrecord : Codec.decode Context.network recordBytes = .ok record := by decide +kernel
  have hstoredCoin : Codec.decode Context.network coinBytes =
      .ok (⟨2 ^ 34 - 1, 2 ^ 32 - 1, ⟨5, ⟨[]⟩⟩, 1, some ⟨[0x51]⟩⟩ : Coin.Stored) := by
    decide +kernel
  have hstoredRecord : Codec.decode Context.network recordBytes =
      .ok (⟨2 ^ 32 - 1, Digest.zero, OutPoint.null, 0, Digest.zero⟩ : StakeRecord.Stored) := by
    decide +kernel
  obtain ⟨k, hk, -, -, hiff⟩ := (written_as_read_iff Context.network coinBytes).1 coin hcoin
  obtain ⟨k', hk', -, -, hiff'⟩ :=
    (written_as_read_iff Context.network recordBytes).2 record hrecord
  rw [hstoredCoin] at hk
  rw [hstoredRecord] at hk'
  cases hk
  cases hk'
  exact ⟨⟨hcoin, hiff.mpr (by decide)⟩, hrecord, hiff'.mpr (by decide)⟩

/-- A height and a time of 33 bits lose the top one, the byte before a script is any but zero, and
flags of 33 bits lose the top one: none of these is refused, and none is written as it was read. -/
theorem records_cut_on_reading :
    let output : TxOut := ⟨5, ⟨[]⟩⟩
    let outputBytes : Bytes := 5 :: Bytes.zeros 8
    let high : Bytes := [0xbe, 0xfe, 0xfe, 0xff, 0, 0] ++ outputBytes ++ [0]
    let late : Bytes := [0, 0x8e, 0xfe, 0xfe, 0xff, 0] ++ outputBytes ++ [0]
    let told : Bytes := [0, 0] ++ outputBytes ++ [2, 1, 0x51]
    let flagged : Bytes := [0x8e, 0xfe, 0xfe, 0xff, 0] ++ Bytes.zeros 64 ++
      [0xff, 0xff, 0xff, 0xff] ++ Bytes.zeros 36
    (∀ bs ∈ [high, late], Codec.decode Context.network bs =
        .ok (⟨output, 0, false, false, 0, none⟩ : Coin) ∧
      Codec.encode Context.network (⟨output, 0, false, false, 0, none⟩ : Coin) ≠ bs) ∧
    (Codec.decode Context.network told =
        .ok (⟨output, 0, false, false, 0, some ⟨[0x51]⟩⟩ : Coin) ∧
      Codec.encode Context.network (⟨output, 0, false, false, 0, some ⟨[0x51]⟩⟩ : Coin) ≠ told) ∧
    (Codec.decode Context.network flagged = .ok StakeRecord.empty ∧
      Codec.encode Context.network StakeRecord.empty ≠ flagged) := by
  decide +kernel

end StakeChain
