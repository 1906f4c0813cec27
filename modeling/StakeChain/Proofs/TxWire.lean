/-
The wire format of transactions is exact.

Most of a transaction is one part after another, and is read as such. The
one place where it takes an argument is its body: an empty list of inputs
is also the mark of a body with witnesses, so which of the two forms was
written has to be found again in the value.
-/
import StakeChain.Tx
import StakeChain.Proofs.Reading

namespace StakeChain

open Stateful
open Codec (Wire Read Format Context Stream ExactWire maxSize fits reads)

/-! ## Scripts, inputs and outputs -/

instance : ExactWire Script where
  fits _ s := s.bytes.length ≤ maxSize
  reads := Read.Exact.varBytes.map Script.bytes (fun h => ⟨h, rfl⟩) fun h => ⟨h, rfl⟩

instance : ExactWire OutPoint where
  fits _ _ := True
  reads := by
    have h := (reads (α := Hash256)).bind OutPoint.hash (fun hash =>
      (reads (α := UInt32)).bind OutPoint.index (fun index => .pure ⟨hash, index⟩)
        (fun _ h => congrArg OutPoint.index h)) fun _ h => congrArg OutPoint.hash h.2
    refine h.congr (fun _ o => iff_of_true trivial ⟨trivial, trivial, rfl⟩) fun g o _ => ?_
    rw [List.append_nil]
    rfl

/-- Inputs are sent without their witness. -/
instance : ExactWire TxIn where
  fits g i := fits g i.scriptSig ∧ i.witness = []
  reads := by
    have h := (reads (α := OutPoint)).bind TxIn.prevout (fun prevout =>
      (reads (α := Script)).bind TxIn.scriptSig (fun scriptSig =>
        (reads (α := UInt32)).bind TxIn.sequence (fun sequence =>
          .pure ⟨prevout, scriptSig, sequence, []⟩)
          (fun _ h => congrArg TxIn.sequence h))
          (fun _ h => congrArg TxIn.scriptSig h.2)) fun _ h => congrArg TxIn.prevout h.2.2
    refine h.congr (fun _ i => ?_) fun g i _ => ?_
    · obtain ⟨prevout, scriptSig, sequence, witness⟩ := i
      constructor
      · rintro ⟨h, rfl⟩
        exact ⟨trivial, h, trivial, rfl⟩
      · rintro ⟨-, h, -, hi⟩
        exact ⟨h, congrArg TxIn.witness hi⟩
    · rw [List.append_nil, ← List.append_assoc]
      rfl

instance : ExactWire TxOut where
  fits g o := fits g o.script
  reads := by
    have h := (reads (α := Int64)).bind TxOut.value (fun value =>
      (reads (α := Script)).bind TxOut.script (fun script => .pure ⟨value, script⟩)
        (fun _ h => congrArg TxOut.script h)) fun _ h => congrArg TxOut.value h.2
    refine h.congr (fun _ o => ⟨fun h => ⟨trivial, h, rfl⟩, fun ⟨_, h, _⟩ => h⟩) fun g o _ => ?_
    rw [List.append_nil]
    rfl

/-- A list is left as it is just when each of its members is. -/
theorem map_eq_self {α : Type} {k : α → α} {l : List α} : l.map k = l ↔ ∀ a ∈ l, k a = a := by
  have h := List.map_inj_left (l := l) (f := k) (g := id)
  rwa [List.map_id] at h

/-! ## Witnesses -/

/-- The input as it is sent before the witnesses. -/
def TxIn.bare (i : TxIn) : TxIn :=
  { i with witness := [] }

/-- A witness whose items can be counted, as can their bytes. -/
def Tx.WitnessFits (w : Witness) : Prop :=
  w.length ≤ maxSize ∧ ∀ item ∈ w, item.length ≤ maxSize

/-- Whether any input has a witness item. -/
def Tx.anyWitness (inputs : List TxIn) : Bool :=
  inputs.any fun i => !i.witness.isEmpty

namespace Tx

theorem writeList_bare (g : Format) (inputs : List TxIn) :
    Codec.writeList g (inputs.map TxIn.bare) = Codec.writeList g inputs := by
  rw [Codec.writeList, Codec.writeList, List.length_map, List.flatMap_map]
  rfl

theorem all_isEmpty_eq (inputs : List TxIn) :
    (inputs.all fun i => i.witness.isEmpty) = !anyWitness inputs := by
  rw [anyWitness, List.not_any_eq_all_not]
  simp

theorem anyWitness_eq_false {inputs : List TxIn} :
    anyWitness inputs = false ↔ ∀ i ∈ inputs, i.witness = [] := by
  rw [anyWitness, List.any_eq_false]
  simp

theorem map_bare_eq_self {inputs : List TxIn} :
    inputs.map TxIn.bare = inputs ↔ ∀ i ∈ inputs, i.witness = [] := by
  refine map_eq_self.trans (forall₂_congr fun i _ => ?_)
  constructor
  · intro h
    exact (congrArg TxIn.witness h).symm
  · intro h
    rw [TxIn.bare, ← h]

theorem bare_eq_bare {i j : TxIn} : j.bare = i.bare ↔ j = { i with witness := j.witness } := by
  constructor
  · intro h
    exact congrArg (fun k : TxIn => { k with witness := j.witness }) h
  · intro h
    rw [h]
    rfl

theorem readWitness_exact :
    readWitness.Exact (fun _ w => WitnessFits w) (fun _ w => writeWitness w) := by
  refine (Read.Exact.size.bind List.length (Read.Exact.varBytes.many) fun _ h => h.1).congr
    (fun _ w => ?_) (fun _ w _ => rfl)
  rw [WitnessFits, and_iff_right rfl]

/-- Inputs that were sent without their witnesses get them one after another. -/
theorem mapM_readWitness_exact (inputs : List TxIn) :
    (inputs.mapM fun i => do
      let witness ← readWitness
      pure { i with witness := witness } : Read (List TxIn)).Exact
      (fun _ out => out.map TxIn.bare = inputs.map TxIn.bare ∧
        ∀ i ∈ out, WitnessFits i.witness)
      (fun _ out => out.flatMap fun i => writeWitness i.witness) := by
  induction inputs with
  | nil =>
      rw [List.mapM_nil]
      refine (Read.Exact.pure []).congr (fun _ out => ?_) (fun _ out h => ?_)
      · constructor
        · rintro ⟨h, -⟩
          exact List.map_eq_nil_iff.mp h
        · rintro rfl
          exact ⟨rfl, nofun⟩
      · rw [h]
        rfl
  | cons i rest ih =>
      rw [List.mapM_cons]
      have hone : (do
          let witness ← readWitness
          pure { i with witness := witness } : Read TxIn).Exact
          (fun _ j => WitnessFits j.witness ∧ j = { i with witness := j.witness })
          (fun _ j => writeWitness j.witness ++ []) := by
        exact readWitness_exact.bind TxIn.witness (fun w => .pure { i with witness := w })
          fun _ h => congrArg TxIn.witness h
      refine (hone.bind (fun out => out.headD i) (fun j =>
        ih.bind List.tail (fun rest => .pure (j :: rest))
          (fun _ h => congrArg List.tail h)) (fun _ h => congrArg (List.headD · i) h.2)).congr
        (fun _ out => ?_) (fun _ out h => ?_)
      · cases out with
        | nil =>
            constructor
            · rintro ⟨h, -⟩
              cases h
            · rintro ⟨_, _, h⟩
              cases h
        | cons j out =>
            rw [List.map_cons, List.map_cons, List.cons.injEq, List.forall_mem_cons,
              bare_eq_bare]
            constructor
            · rintro ⟨⟨hj, hout⟩, hfits, hall⟩
              exact ⟨⟨hfits, hj⟩, ⟨hout, hall⟩, rfl⟩
            · rintro ⟨⟨hfits, hj⟩, ⟨hout, hall⟩, -⟩
              exact ⟨⟨hj, hout⟩, hfits, hall⟩
      · rw [h.2.2]
        simp

/-- The witnesses of inputs, unless all of them are empty. -/
theorem readWitnesses_exact (inputs : List TxIn) :
    (readWitnesses inputs).Exact
      (fun _ out => (out.map TxIn.bare = inputs.map TxIn.bare ∧
        ∀ i ∈ out, WitnessFits i.witness) ∧ anyWitness out = true)
      (fun _ out => out.flatMap fun i => writeWitness i.witness) := by
  refine (Read.Exact.refuse (p := fun out => (out.all fun i => i.witness.isEmpty) = true)
    (mapM_readWitness_exact inputs)).congr (fun _ out => ?_) (fun _ _ _ => rfl)
  rw [all_isEmpty_eq, Bool.not_eq_true', Bool.not_eq_false]

/-! ## Bodies of transactions -/

/-- The lists of inputs and outputs as they are sent, inputs without their witnesses. -/
def writeLists (g : Format) (body : List TxIn × List TxOut) : Bytes :=
  Codec.writeList g body.1 ++ Codec.writeList g body.2

/-- Lists that can be counted, as can the bytes of their scripts. -/
structure ListsFit (body : List TxIn × List TxOut) : Prop where
  inputs : body.1.length ≤ maxSize
  outputs : body.2.length ≤ maxSize
  scriptSigs : ∀ i ∈ body.1, i.scriptSig.bytes.length ≤ maxSize
  scripts : ∀ o ∈ body.2, o.script.bytes.length ≤ maxSize

/-- Lists with the witnesses after them. -/
theorem readListsAndWitnesses_exact :
    (do
      let inputs ← Read.list
      let outputs ← Read.list
      let inputs ← readWitnesses inputs
      pure (inputs, outputs) : Read (List TxIn × List TxOut)).Exact
      (fun _ body => (ListsFit body ∧ ∀ i ∈ body.1, WitnessFits i.witness) ∧
        anyWitness body.1 = true)
      (fun g body => writeLists g body ++ body.1.flatMap fun i => writeWitness i.witness) := by
  have h := (Read.Exact.list (α := TxIn)).bind
    (fun body : List TxIn × List TxOut => body.1.map TxIn.bare) (fun inputs =>
      (Read.Exact.list (α := TxOut)).bind Prod.snd (fun outputs =>
        (readWitnesses_exact inputs).bind Prod.fst (fun inputs => .pure (inputs, outputs))
        (fun _ h => congrArg Prod.fst h)) fun _ h => congrArg Prod.snd h.2)
      fun h₁ h₂ => h₂.2.1.1.1.trans (map_bare_eq_self.mpr fun i hi => (h₁.2 i hi).2)
  refine h.congr (fun g body => ?_) fun g body _ => ?_
  · have hbare : body.1.map TxIn.bare = (body.1.map TxIn.bare).map TxIn.bare := by
      rw [List.map_map]
      rfl
    constructor
    · rintro ⟨⟨h, hw⟩, hany⟩
      refine ⟨⟨?_, fun i hi => ?_⟩, ⟨h.outputs, h.scripts⟩, ⟨⟨hbare, hw⟩, hany⟩, rfl⟩
      · rw [List.length_map]
        exact h.inputs
      · obtain ⟨j, hj, rfl⟩ := List.mem_map.mp hi
        exact ⟨h.scriptSigs j hj, rfl⟩
    · rintro ⟨⟨hi, hinputs⟩, ⟨ho, houtputs⟩, ⟨⟨-, hw⟩, hany⟩, -⟩
      rw [List.length_map] at hi
      exact ⟨⟨⟨hi, ho, fun i hi => (hinputs _ (List.mem_map_of_mem hi)).1, houtputs⟩, hw⟩, hany⟩
  · rw [List.append_nil, writeList_bare, ← List.append_assoc]
    rfl

/-- The bytes of a body with witnesses after the flag. -/
def writeFlagged (g : Format) (body : List TxIn × List TxOut) : Bytes :=
  writeLists g body ++ body.1.flatMap fun i => writeWitness i.witness

theorem flag_and_ne_zero {flag : UInt8} (h₀ : flag ≠ 0) (h₁ : flag ≠ 1) :
    flag &&& 0xfe ≠ 0 := by
  obtain ⟨⟨b⟩⟩ := flag
  revert b
  decide +kernel

/-- After the flag: nothing for a zero flag, lists and witnesses for the witness flag, and no
other flag is known. -/
theorem readAfterFlag_exact (flag : UInt8) :
    (if flag = 0 then pure ([], [])
    else do
      let inputs ← Read.list
      let outputs ← Read.list
      let inputs ← if flag &&& 1 ≠ 0 then readWitnesses inputs else pure inputs
      if flag &&& 0xfe ≠ 0 then throw .unknownTransactionOptionalData
      else pure (inputs, outputs) : Read (List TxIn × List TxOut)).Exact
      (fun _ body => flag = 0 ∧ body = ([], []) ∨
        flag = 1 ∧ (ListsFit body ∧ ∀ i ∈ body.1, WitnessFits i.witness) ∧
          anyWitness body.1 = true)
      (fun g body => if anyWitness body.1 then writeFlagged g body else []) := by
  by_cases h₀ : flag = 0
  · subst flag
    refine (Read.Exact.pure ([], [])).congr (fun _ body => ?_) fun _ body h => ?_
    · simp
    · rw [h]
      rfl
  rw [if_neg h₀]
  by_cases h₁ : flag = 1
  · subst flag
    refine readListsAndWitnesses_exact.congr (fun _ body => ?_) fun _ body h => ?_
    · simp
    · rw [if_pos h.2]
      rfl
  · refine .never (fun s body t h => ?_) fun _ body h => ?_
    · obtain ⟨_, _, _, h⟩ := bind_eq_ok.mp h
      obtain ⟨_, _, _, h⟩ := bind_eq_ok.mp h
      -- whether witnesses are read or not, the flag is refused after that
      dsimp only at h
      split at h <;>
      · obtain ⟨_, _, _, h⟩ := bind_eq_ok.mp h
        split at h
        · exact throw_ne_ok h
        · rename_i hflag
          exact hflag (flag_and_ne_zero h₀ h₁)
    · rcases h with ⟨h, _⟩ | ⟨h, _⟩
      · exact h₀ h
      · exact h₁ h

/-- After the mark of a body with witnesses: a zero flag stands for no outputs after all. -/
theorem readFlagged_exact :
    readFlagged.Exact
      (fun _ body => body = ([], []) ∨
        (ListsFit body ∧ ∀ i ∈ body.1, WitnessFits i.witness) ∧ anyWitness body.1 = true)
      (fun g body => if anyWitness body.1 then 1 :: writeFlagged g body else [0]) := by
  have h := Read.Exact.byte.bind
    (fun body : List TxIn × List TxOut => if anyWitness body.1 then (1 : UInt8) else 0)
    readAfterFlag_exact ?_
  · refine h.congr (fun _ body => ?_) fun _ body _ => ?_
    · cases hany : anyWitness body.1 with
      | true =>
          have hne : body ≠ ([], []) := by
            rintro rfl
            cases hany
          simp [hne]
      | false => simp
    · cases anyWitness body.1 with
      | true => rfl
      | false => rfl
  · rintro flag _ body - (⟨rfl, rfl⟩ | ⟨rfl, -, hany⟩)
    · rfl
    · exact if_pos hany

/-- Bodies that can be sent, with witnesses or without. -/
def BodyFits (witness : Bool) (body : List TxIn × List TxOut) : Prop :=
  ListsFit body ∧
    if witness then (∀ i ∈ body.1, WitnessFits i.witness) ∧ (body.1 = [] → body.2 = [])
    else ∀ i ∈ body.1, i.witness = []

/-- A body as it is sent. -/
def writeBody (g : Format) (body : List TxIn × List TxOut) : Bytes :=
  if g.context.witness && anyWitness body.1 then 0 :: 1 :: writeFlagged g body
  else writeLists g body

/-- The inputs that stand at the start of a body as it is sent: none before witnesses. -/
def leading (witness : Bool) (body : List TxIn × List TxOut) : List TxIn :=
  if witness && anyWitness body.1 then [] else body.1

/-- The bodies that may follow these leading inputs. -/
def RestFits (witness : Bool) (inputs : List TxIn) (body : List TxIn × List TxOut) : Prop :=
  if inputs.isEmpty && witness then
    body = ([], []) ∨
      (ListsFit body ∧ ∀ i ∈ body.1, WitnessFits i.witness) ∧ anyWitness body.1 = true
  else (body.2.length ≤ maxSize ∧ ∀ o ∈ body.2, o.script.bytes.length ≤ maxSize) ∧
    body = (inputs, body.2)

/-- What is sent of a body after these leading inputs. -/
def writeRest (witness : Bool) (inputs : List TxIn) (g : Format)
    (body : List TxIn × List TxOut) : Bytes :=
  if inputs.isEmpty && witness then
    if anyWitness body.1 then 1 :: writeFlagged g body else [0]
  else Codec.writeList g body.2

theorem readRest_exact (witness : Bool) (inputs : List TxIn) :
    (if inputs.isEmpty && witness then readFlagged
    else do
      let outputs ← Read.list
      pure (inputs, outputs) : Read (List TxIn × List TxOut)).Exact
      (fun _ body => RestFits witness inputs body) (writeRest witness inputs) := by
  unfold RestFits writeRest
  split
  · exact readFlagged_exact
  · have h := (Read.Exact.list (α := TxOut)).bind Prod.snd (fun outputs => .pure (inputs, outputs))
      fun _ h => congrArg Prod.snd h
    refine h.congr (fun _ _ => Iff.rfl) fun _ _ _ => ?_
    rw [List.append_nil]

/-- The leading inputs are found again in the body. -/
theorem leading_eq {witness : Bool} {inputs : List TxIn} {body : List TxIn × List TxOut}
    (hinputs : ∀ i ∈ inputs, i.witness = []) (h : RestFits witness inputs body) :
    leading witness body = inputs := by
  rw [RestFits] at h
  split at h
  · rename_i hempty
    rw [Bool.and_eq_true, List.isEmpty_iff] at hempty
    obtain ⟨rfl, hw⟩ := hempty
    rcases h with rfl | ⟨_, hany⟩
    · exact ite_self _
    · rw [leading, hw, hany]
      rfl
  · rw [h.2, leading, anyWitness_eq_false.mpr hinputs, Bool.and_false]
    rfl

/-- Without a witness item a body is its plain lists. -/
theorem bodyFits_of_bare {witness : Bool} {body : List TxIn × List TxOut}
    (h : ∀ i ∈ body.1, i.witness = []) :
    BodyFits witness body ↔ ListsFit body ∧ (witness = true → body.1 = [] → body.2 = []) := by
  refine and_congr_right fun _ => ?_
  cases witness with
  | false => exact iff_of_true h nofun
  | true =>
      have hfits : ∀ i ∈ body.1, WitnessFits i.witness := by
        intro i hi
        rw [h i hi]
        exact ⟨Nat.zero_le _, nofun⟩
      exact ⟨fun h _ => h.2, fun h => ⟨hfits, h rfl⟩⟩

theorem bare_of_bodyFits {witness : Bool} {body : List TxIn × List TxOut}
    (h : BodyFits witness body) (hw : (witness && anyWitness body.1) = false) :
    ∀ i ∈ body.1, i.witness = [] := by
  cases witness with
  | false => exact h.2
  | true => exact anyWitness_eq_false.mp hw

/-- A body with witnesses goes through the flag. -/
theorem bodyFits_of_anyWitness {inputs : List TxIn} {outputs : List TxOut}
    (hany : anyWitness inputs = true) :
    BodyFits true (inputs, outputs) ↔ RestFits true [] (inputs, outputs) := by
  have hne : inputs ≠ [] := by
    rintro rfl
    cases hany
  simp [BodyFits, RestFits, hany, hne]

/-- A body without witnesses has its inputs in front. -/
theorem bodyFits_of_leading {witness : Bool} {inputs : List TxIn} {outputs : List TxOut}
    (hw : (witness && anyWitness inputs) = false) :
    BodyFits witness (inputs, outputs) ↔
      (inputs.length ≤ maxSize ∧
        ∀ i ∈ inputs, i.scriptSig.bytes.length ≤ maxSize ∧ i.witness = []) ∧
      RestFits witness inputs (inputs, outputs) := by
  have hrest : inputs.isEmpty = true ∧ witness = true →
      (RestFits witness inputs (inputs, outputs) ↔ outputs = []) := by
    rintro ⟨hi, rfl⟩
    obtain rfl := List.isEmpty_iff.mp hi
    simp [RestFits, anyWitness]
  constructor
  · intro hbody
    have hbare := bare_of_bodyFits hbody hw
    obtain ⟨hlists, hshape⟩ := (bodyFits_of_bare hbare).mp hbody
    refine ⟨⟨hlists.inputs, fun i hi => ⟨hlists.scriptSigs i hi, hbare i hi⟩⟩, ?_⟩
    by_cases hempty : inputs.isEmpty = true ∧ witness = true
    · exact (hrest hempty).mpr (hshape hempty.2 (List.isEmpty_iff.mp hempty.1))
    · rw [RestFits, if_neg (by rwa [Bool.and_eq_true])]
      exact ⟨⟨hlists.outputs, hlists.scripts⟩, rfl⟩
  · rintro ⟨⟨hlen, hinputs⟩, h⟩
    rw [bodyFits_of_bare fun i hi => (hinputs i hi).2]
    by_cases hempty : inputs.isEmpty = true ∧ witness = true
    · obtain rfl := (hrest hempty).mp h
      exact ⟨⟨hlen, Nat.zero_le _, fun i hi => (hinputs i hi).1, nofun⟩, fun _ _ => rfl⟩
    · rw [RestFits, if_neg (by rwa [Bool.and_eq_true])] at h
      refine ⟨⟨hlen, h.1.1, fun i hi => (hinputs i hi).1, h.1.2⟩, fun hw hi => ?_⟩
      exact absurd ⟨List.isEmpty_iff.mpr hi, hw⟩ hempty

theorem bodyFits_iff {witness : Bool} {body : List TxIn × List TxOut} :
    BodyFits witness body ↔
      ((leading witness body).length ≤ maxSize ∧ ∀ i ∈ leading witness body,
        i.scriptSig.bytes.length ≤ maxSize ∧ i.witness = []) ∧
      RestFits witness (leading witness body) body := by
  obtain ⟨inputs, outputs⟩ := body
  cases hw : witness && anyWitness inputs with
  | true =>
      obtain ⟨rfl, hany⟩ := Bool.and_eq_true_iff.mp hw
      rw [bodyFits_of_anyWitness hany, leading, hw]
      exact (and_iff_right ⟨Nat.zero_le _, nofun⟩).symm
  | false =>
      rw [bodyFits_of_leading hw, leading, hw]
      rfl

theorem writeBody_eq {g : Format} {body : List TxIn × List TxOut}
    (h : BodyFits g.context.witness body) :
    writeBody g body =
      Codec.writeList g (leading g.context.witness body) ++
        writeRest g.context.witness (leading g.context.witness body) g body := by
  obtain ⟨inputs, outputs⟩ := body
  cases hw : g.context.witness && anyWitness inputs with
  | true =>
      obtain ⟨hc, hany⟩ := Bool.and_eq_true_iff.mp hw
      simp only [writeBody, leading, writeRest, hc, hany]
      rfl
  | false =>
      have hlead : leading g.context.witness (inputs, outputs) = inputs := by
        rw [leading, hw]
        rfl
      rw [hlead, writeBody, hw, writeRest]
      change Codec.writeList g inputs ++ Codec.writeList g outputs = _
      split
      · rename_i hempty
        rw [Bool.and_eq_true, List.isEmpty_iff] at hempty
        obtain ⟨rfl, hc⟩ := hempty
        obtain rfl : outputs = [] :=
          ((bodyFits_of_bare (bare_of_bodyFits h hw)).mp h).2 hc rfl
        rfl
      · rfl

theorem readBody_exact :
    readBody.Exact (fun g body => BodyFits g.context.witness body) writeBody := by
  have h := Read.Exact.context fun c => (Read.Exact.list (α := TxIn)).bind (leading c.witness)
    (readRest_exact c.witness) fun h₁ h₂ => leading_eq (fun i hi => (h₁.2 i hi).2) h₂
  refine h.congr (fun g body => bodyFits_iff) fun g body hbody => ?_
  exact writeBody_eq (bodyFits_iff.mpr hbody)

/-! ## Transactions -/

/-- A transaction that can be sent in a context: what has to be counted there can be, and it does
not look like one with witnesses where it has none. -/
structure Sendable (c : Context) (tx : Tx) : Prop where
  inputs : tx.inputs.length ≤ maxSize
  outputs : tx.outputs.length ≤ maxSize
  scriptSigs : ∀ i ∈ tx.inputs, i.scriptSig.bytes.length ≤ maxSize
  scripts : ∀ o ∈ tx.outputs, o.script.bytes.length ≤ maxSize
  witnesses : c.witness = true → ∀ i ∈ tx.inputs,
    i.witness.length ≤ maxSize ∧ ∀ item ∈ i.witness, item.length ≤ maxSize
  shape : c.witness = true → tx.inputs ≠ [] ∨ tx.outputs = []

/-- What a context keeps of a transaction. -/
def kept (c : Context) (tx : Tx) : Tx :=
  if c.witness then tx else tx.stripped

theorem write_eq (g : Format) (tx : Tx) :
    Codec.write g tx = Codec.write g tx.version ++
      (writeBody g (tx.inputs, tx.outputs) ++ Codec.write g tx.lockTime) := by
  change Tx.write g tx = _
  rw [Tx.write, writeBody]
  change _ = Codec.write g tx.version ++ ((if g.context.witness && tx.hasWitness then _ else _) ++
    Codec.write g tx.lockTime)
  cases g.context.witness && tx.hasWitness with
  | true => simp [writeFlagged, writeLists]
  | false => simp [writeLists]

theorem kept_eq_self {c : Context} {tx : Tx} :
    tx.kept c = tx ↔ (c.witness = false → ∀ i ∈ tx.inputs, i.witness = []) := by
  rw [kept]
  cases c.witness with
  | true => exact iff_of_true rfl nofun
  | false =>
      rw [← map_bare_eq_self]
      constructor
      · intro h _
        exact congrArg Tx.inputs h
      · intro h
        exact congrArg (fun inputs => { tx with inputs := inputs }) (h rfl)

theorem kept_kept (c : Context) (tx : Tx) : (tx.kept c).kept c = tx.kept c := by
  rw [kept_eq_self, kept]
  intro hc i hi
  rw [hc] at hi
  obtain ⟨j, _, rfl⟩ := List.mem_map.mp hi
  rfl

theorem Sendable.kept {c : Context} {tx : Tx} (h : tx.Sendable c) : (tx.kept c).Sendable c := by
  rw [Tx.kept]
  cases hc : c.witness with
  | true => exact h
  | false =>
      refine ⟨?_, h.outputs, fun i hi => ?_, h.scripts, ?_, ?_⟩
      · exact (List.length_map _).trans_le h.inputs
      · obtain ⟨j, hj, rfl⟩ := List.mem_map.mp hi
        exact h.scriptSigs j hj
      · rw [hc]
        exact nofun
      · rw [hc]
        exact nofun

/-- The parts that a context leaves out are not written in it. -/
theorem write_kept (g : Format) (tx : Tx) :
    Codec.write g (tx.kept g.context) = Codec.write g tx := by
  rw [kept]
  cases hc : g.context.witness with
  | true => rfl
  | false =>
      rw [write_eq, write_eq, writeBody, writeBody, hc]
      change Codec.write g tx.version ++
        ((Codec.writeList g (tx.inputs.map TxIn.bare) ++ Codec.writeList g tx.outputs) ++ _) = _
      rw [writeList_bare]
      rfl

theorem bodyFits_iff_sendable {c : Context} {tx : Tx} :
    BodyFits c.witness (tx.inputs, tx.outputs) ↔ tx.Sendable c ∧ tx.kept c = tx := by
  rw [kept_eq_self]
  constructor
  · rintro ⟨hlists, h⟩
    refine ⟨⟨hlists.inputs, hlists.outputs, hlists.scriptSigs, hlists.scripts, fun hc => ?_,
      fun hc => ?_⟩, fun hc => ?_⟩
    · rw [hc] at h
      exact h.1
    · rw [hc] at h
      exact or_iff_not_imp_left.mpr fun hne => h.2 (not_not.mp hne)
    · rw [hc] at h
      exact h
  · rintro ⟨h, hbare⟩
    refine ⟨⟨h.inputs, h.outputs, h.scriptSigs, h.scripts⟩, ?_⟩
    cases hc : c.witness with
    | true => exact ⟨h.witnesses hc, (h.shape hc).resolve_left ∘ not_not.mpr⟩
    | false => exact hbare hc

instance : ExactWire Tx where
  fits g tx := tx.Sendable g.context ∧ tx.kept g.context = tx
  reads := by
    have h := (reads (α := Int32)).bind Tx.version (fun version =>
      readBody_exact.bind (fun tx => (tx.inputs, tx.outputs)) (fun body =>
        (reads (α := UInt32)).bind Tx.lockTime (fun lockTime =>
          .pure ⟨version, body.1, body.2, lockTime⟩)
          (fun _ h => congrArg Tx.lockTime h))
          (fun _ h => congrArg (fun tx : Tx => (tx.inputs, tx.outputs)) h.2))
          fun _ h => congrArg Tx.version h.2.2
    refine h.congr (fun g tx => ?_) fun g tx _ => ?_
    · rw [← bodyFits_iff_sendable]
      exact ⟨fun h => ⟨trivial, h, trivial, rfl⟩, fun ⟨_, h, _⟩ => h⟩
    · rw [write_eq, List.append_nil]

end Tx

end StakeChain
