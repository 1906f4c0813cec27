/-
Writers that show where what they write ends.

If two byte strings agree and each starts with what is written for a value,
the values agree and so does what follows them. That is all one needs to
take the parts of a hashed message off its front one by one. Whatever is
read back exactly is delimited; byte strings and lists are so beyond the
lengths that a reader takes, as long as 64 bits can count them.
-/
import StakeChain.Proofs.TxWire

namespace StakeChain.Codec

/-- What is written for a value that fits shows the value and where it ends, whatever follows. -/
structure Delimited {α : Type} (fits : α → Prop) (write : α → Bytes) : Prop where
  inj : ∀ {a b : α} {x y : Bytes}, fits a → fits b → write a ++ x = write b ++ y → a = b ∧ x = y

namespace Delimited

variable {α : Type} {fits : α → Prop} {write : α → Bytes}

theorem eq (h : Delimited fits write) {a b : α} (ha : fits a) (hb : fits b)
    (hab : write a = write b) : a = b :=
  (h.inj ha hb (congrArg (· ++ []) hab)).1

theorem of_exact {r : Read α} {fits : Format → α → Prop} {write : Format → α → Bytes}
    (h : r.Exact fits write) (g : Format) : Delimited (fits g) (write g) where
  inj := by
    intro a b x y ha hb hab
    have hread := h.read_of_append ha 0 x
    rw [hab, h.read_of_append hb 0 y] at hread
    cases hread
    exact ⟨rfl, rfl⟩

theorem of_wire (α : Type) [Wire α] [ExactWire α] (g : Format) :
    Delimited (ExactWire.fits g : α → Prop) (Codec.write g) :=
  of_exact reads g

theorem varInt : Delimited (· < UInt64.size) Codec.varInt :=
  of_exact Read.Exact.varInt Context.ids.format

theorem varBytes : Delimited (fun bs => bs.length < UInt64.size) Codec.varBytes where
  inj := by
    intro a b x y ha hb h
    rw [Codec.varBytes, Codec.varBytes, List.append_assoc, List.append_assoc] at h
    obtain ⟨hlength, h⟩ := varInt.inj ha hb h
    exact List.append_inj h hlength

/-! ## Lists -/

/-- Lists of one length. -/
theorem many (h : Delimited fits write) {l l' : List α} {x y : Bytes} (hl : ∀ a ∈ l, fits a)
    (hl' : ∀ a ∈ l', fits a) (hlength : l.length = l'.length)
    (heq : l.flatMap write ++ x = l'.flatMap write ++ y) : l = l' ∧ x = y := by
  induction l generalizing l' with
  | nil =>
      obtain rfl := List.eq_nil_of_length_eq_zero hlength.symm
      exact ⟨rfl, heq⟩
  | cons a l ih =>
      cases l' with
      | nil => cases hlength
      | cons b l' =>
          obtain ⟨ha, hitems⟩ := List.forall_mem_cons.mp hl
          obtain ⟨hb, hitems'⟩ := List.forall_mem_cons.mp hl'
          rw [List.flatMap_cons, List.flatMap_cons, List.append_assoc, List.append_assoc] at heq
          obtain ⟨rfl, hrest⟩ := h.inj ha hb heq
          obtain ⟨rfl, hxy⟩ := ih hitems hitems' (Nat.succ.inj hlength) hrest
          exact ⟨rfl, hxy⟩

/-- Lists without a count: they end where the bytes end, if no value is written as nothing. -/
theorem flatMap_inj (h : Delimited fits write) (hne : ∀ a, write a ≠ []) {l l' : List α}
    (hl : ∀ a ∈ l, fits a) (hl' : ∀ a ∈ l', fits a) (heq : l.flatMap write = l'.flatMap write) :
    l = l' := by
  induction l generalizing l' with
  | nil =>
      cases l' with
      | nil => rfl
      | cons b l' => exact absurd (List.append_eq_nil_iff.mp heq.symm).1 (hne b)
  | cons a l ih =>
      cases l' with
      | nil => exact absurd (List.append_eq_nil_iff.mp heq).1 (hne a)
      | cons b l' =>
          obtain ⟨ha, hitems⟩ := List.forall_mem_cons.mp hl
          obtain ⟨hb, hitems'⟩ := List.forall_mem_cons.mp hl'
          obtain ⟨rfl, hrest⟩ := h.inj ha hb heq
          rw [ih hitems hitems' hrest]

/-- Lists after their count. -/
theorem list [Wire α] {g : Format} (h : Delimited fits (Codec.write g)) :
    Delimited (fun l : List α => l.length < UInt64.size ∧ ∀ a ∈ l, fits a) (writeList g) where
  inj := by
    intro a b x y ha hb heq
    rw [writeList, writeList, List.append_assoc, List.append_assoc] at heq
    obtain ⟨hlength, heq⟩ := varInt.inj ha.1 hb.1 heq
    exact h.many ha.2 hb.2 hlength heq

end Delimited

end StakeChain.Codec

namespace StakeChain

open Codec (Delimited Format)

/-! ## Numbers and places -/

theorem write_uint32_ne_nil (g : Format) (n : UInt32) : Codec.write g n ≠ [] := by
  have hlength : (Codec.write g n).length = 4 := Bytes.length_ofNat ..
  exact List.ne_nil_of_length_pos (by omega)

theorem write_int64_ne_nil (g : Format) (n : Int64) : Codec.write g n ≠ [] := by
  have hlength : (Codec.write g n).length = 8 := Bytes.length_ofNat ..
  exact List.ne_nil_of_length_pos (by omega)

theorem OutPoint.write_ne_nil (g : Format) (o : OutPoint) : Codec.write g o ≠ [] :=
  List.append_ne_nil_of_right_ne_nil _ (write_uint32_ne_nil g o.index)

theorem TxOut.write_ne_nil (g : Format) (o : TxOut) : Codec.write g o ≠ [] :=
  List.append_ne_nil_of_left_ne_nil (write_int64_ne_nil g o.value) _

/-! ## Scripts, inputs and outputs -/

/-- The bytes of the script can be counted. -/
def Script.Countable (s : Script) : Prop :=
  s.bytes.length < UInt64.size

instance (s : Script) : Decidable s.Countable :=
  inferInstanceAs (Decidable (_ < _))

theorem Script.countable_empty : Script.empty.Countable := by
  decide

theorem Script.delimited (g : Format) : Delimited Script.Countable (Codec.write g) where
  inj := by
    intro a b x y ha hb h
    obtain ⟨hbytes, hxy⟩ := Delimited.varBytes.inj ha hb h
    cases a
    cases b
    cases hbytes
    exact ⟨rfl, hxy⟩

/-- Inputs are written without their witness. -/
theorem TxIn.delimited (g : Format) :
    Delimited (fun i : TxIn => i.scriptSig.Countable ∧ i.witness = []) (Codec.write g) where
  inj := by
    rintro ⟨prevout, script, sequence, witness⟩ ⟨prevout', script', sequence', witness'⟩ x y
      ⟨ha, rfl⟩ ⟨hb, rfl⟩ h
    have h : Codec.write g prevout ++ (Codec.write g script ++ (Codec.write g sequence ++ x)) =
        Codec.write g prevout' ++ (Codec.write g script' ++ (Codec.write g sequence' ++ y)) := by
      rw [← List.append_assoc, ← List.append_assoc, ← List.append_assoc, ← List.append_assoc]
      exact h
    obtain ⟨rfl, hscript⟩ := (Delimited.of_wire OutPoint g).inj trivial trivial h
    obtain ⟨rfl, hsequence⟩ := (Script.delimited g).inj ha hb hscript
    obtain ⟨rfl, hxy⟩ := (Delimited.of_wire UInt32 g).inj trivial trivial hsequence
    exact ⟨rfl, hxy⟩

theorem TxOut.delimited (g : Format) :
    Delimited (fun o : TxOut => o.script.Countable) (Codec.write g) where
  inj := by
    rintro ⟨value, script⟩ ⟨value', script'⟩ x y ha hb h
    have h : Codec.write g value ++ (Codec.write g script ++ x) =
        Codec.write g value' ++ (Codec.write g script' ++ y) := by
      rw [← List.append_assoc, ← List.append_assoc]
      exact h
    obtain ⟨rfl, hscript⟩ := (Delimited.of_wire Int64 g).inj trivial trivial h
    obtain ⟨rfl, hxy⟩ := (Script.delimited g).inj ha hb hscript
    exact ⟨rfl, hxy⟩

end StakeChain
