/-
Cutting out of a script is keeping the other operations.

Both cuts walk over the bytes, and one of them compares bytes with a pattern wherever
it comes to stand. It comes to stand only where operations start, and there the pattern,
being an operation itself, is found just when it is the operation that stands there. So
what a cut leaves is a choice among the operations, with the undecodable tail after
them, and cuts follow each other like choices do: in any order, and once is enough.

Data of `2 ^ 32` bytes and more cannot be pushed, and what is written for it is no operation. In a
script that is shorter it is not found; in a longer one it may be.
-/
import Mathlib.Data.List.Flatten
import StakeChain.Proofs.Tiling

namespace StakeChain.Script

open Op (Fits Undecodable)

/-! ## A choice among the operations -/

/-- The script with those of its operations that pass a test, and its undecodable tail. -/
def keeping (keep : Op → Bool) (s : Script) : Script :=
  ⟨(s.decoded.filter keep).flatMap Op.encode ++ s.undecoded⟩

variable (f g : Op → Bool) (s : Script)

theorem fits_of_mem_filter : ∀ op ∈ s.decoded.filter f, op.Fits :=
  fun op hop => fits_of_mem_decoded op (List.mem_filter.mp hop).1

@[simp] theorem decoded_keeping : (s.keeping f).decoded = s.decoded.filter f :=
  decoded_append (s.fits_of_mem_filter f) s.undecodable_undecoded

@[simp] theorem undecoded_keeping : (s.keeping f).undecoded = s.undecoded :=
  undecoded_append (s.fits_of_mem_filter f) s.undecodable_undecoded

theorem keeping_keeping : (s.keeping f).keeping g = s.keeping fun op => g op && f op := by
  rw [keeping, decoded_keeping, undecoded_keeping, List.filter_filter, keeping]

theorem keeping_comm : (s.keeping f).keeping g = (s.keeping g).keeping f := by
  simp only [keeping_keeping, Bool.and_comm]

theorem keeping_idem : (s.keeping f).keeping f = s.keeping f := by
  simp only [keeping_keeping, Bool.and_self]

variable {f g s}

theorem keeping_congr (h : ∀ op ∈ s.decoded, f op = g op) : s.keeping f = s.keeping g := by
  rw [keeping, List.filter_congr h, keeping]

theorem keeping_eq_self (h : ∀ op ∈ s.decoded, f op = true) : s.keeping f = s := by
  rw [keeping, List.filter_eq_self.mpr h, decoded_append_undecoded]

theorem size_keeping_le : (s.keeping f).size ≤ s.size := by
  have hkept := (List.filter_sublist (p := f) (l := s.decoded)).flatMap Op.encode
  change ((s.decoded.filter f).flatMap Op.encode ++ s.undecoded).length ≤ s.bytes.length
  rw [← s.decoded_append_undecoded, List.length_append, List.length_append]
  exact Nat.add_le_add_right hkept.length_le _

/-! ## Deleting a pattern -/

variable {pattern bs rest : Bytes} {op p : Op} {front : List Op} {tail : Bytes}

theorem dropRepeats_of_not_starts (h : ¬ pattern <+: bs) (fuel : Nat) :
    dropRepeats pattern fuel bs = bs := by
  cases fuel with
  | zero => rfl
  | succ fuel => rw [dropRepeats, if_neg (List.isPrefixOf_iff_prefix.not.mpr h)]

/-- The repetitions in front are the operations in front that are the pattern. -/
theorem dropRepeats_append (hp : p.Fits) (hfront : ∀ op ∈ front, op.Fits)
    (htail : Undecodable tail) {fuel : Nat} (hfuel : front.length ≤ fuel) :
    dropRepeats p.encode fuel (front.flatMap Op.encode ++ tail) =
      (front.dropWhile (· == p)).flatMap Op.encode ++ tail := by
  induction front generalizing fuel with
  | nil => exact dropRepeats_of_not_starts (htail.not_starts hp) fuel
  | cons op front ih =>
      obtain ⟨hop, hrest⟩ := List.forall_mem_cons.mp hfront
      rw [List.flatMap_cons, List.append_assoc, List.dropWhile_cons]
      by_cases heq : op = p
      · obtain ⟨fuel, rfl⟩ := Nat.exists_eq_succ_of_ne_zero (Nat.ne_zero_of_lt hfuel)
        rw [if_pos (beq_iff_eq.mpr heq), heq, dropRepeats,
          if_pos (List.isPrefixOf_iff_prefix.mpr (List.prefix_append _ _)), List.drop_left,
          ih hrest (Nat.le_of_succ_le_succ hfuel)]
      · have hnot : ¬ p.encode <+: op.encode ++ (front.flatMap Op.encode ++ tail) :=
          fun hstarts => heq (Op.eq_of_encode_starts hp hop hstarts).symm
        rw [if_neg (beq_iff_eq.not.mpr heq), dropRepeats_of_not_starts hnot, List.flatMap_cons,
          List.append_assoc]

theorem filter_dropWhile (p : Op) (front : List Op) :
    (front.dropWhile (· == p)).filter (· != p) = front.filter (· != p) := by
  induction front with
  | nil => rfl
  | cons op front ih =>
      rw [List.dropWhile_cons]
      split
      · next heq => rw [ih, List.filter_cons_of_neg (by simpa using heq)]
      · rfl

theorem deleteFrom_of_decode {fuel : Nat} (acc : List Bytes)
    (h : Op.decode (dropRepeats pattern (fuel + 1) bs) = some (op, rest))
    (hvalid : op.isValid) :
    deleteFrom pattern acc (fuel + 1) bs = deleteFrom pattern (op.encode :: acc) fuel rest := by
  rw [deleteFrom, h]
  cases op with
  | push | code => rfl
  | invalid => cases hvalid

theorem deleteFrom_of_undecodable {fuel : Nat} (acc : List Bytes)
    (h : Undecodable (dropRepeats pattern (fuel + 1) bs)) :
    deleteFrom pattern acc (fuel + 1) bs =
      acc.reverse.flatten ++ dropRepeats pattern (fuel + 1) bs := by
  rw [deleteFrom]
  cases hdecode : Op.decode (dropRepeats pattern (fuel + 1) bs) with
  | none => rw [Op.eq_nil_of_decode_none hdecode, List.append_nil]
  | some next =>
      obtain ⟨op, rest⟩ := next
      cases op with
      | push | code => cases h _ _ hdecode
      | invalid opcode => simp

theorem deleteFrom_append (hp : p.Fits) (hfront : ∀ op ∈ front, op.Fits)
    (htail : Undecodable tail) (acc : List Bytes) {fuel : Nat} (hfuel : front.length < fuel) :
    deleteFrom p.encode acc fuel (front.flatMap Op.encode ++ tail) =
      acc.reverse.flatten ++ ((front.filter (· != p)).flatMap Op.encode ++ tail) := by
  induction fuel generalizing acc front with
  | zero => exact absurd hfuel (Nat.not_lt_zero _)
  | succ fuel ih =>
      have hleft := dropRepeats_append hp hfront htail (Nat.le_of_lt hfuel)
      have hsuffix : front.dropWhile (· == p) <:+ front := List.dropWhile_suffix _
      have hhead := List.head?_dropWhile_not (· == p) front
      rw [← filter_dropWhile]
      generalize front.dropWhile (· == p) = left at *
      cases left with
      | nil =>
          rw [List.flatMap_nil, List.nil_append] at hleft
          rw [deleteFrom_of_undecodable acc (by rwa [hleft]), hleft]
          rfl
      | cons op rest =>
          obtain ⟨hop, hrest⟩ :=
            List.forall_mem_cons.mp fun op hop => hfront op (hsuffix.subset hop)
          have hlength := hsuffix.length_le
          rw [List.length_cons] at hlength
          rw [List.flatMap_cons, List.append_assoc] at hleft
          rw [deleteFrom_of_decode acc (by rw [hleft, Op.decode_encode hop]) hop.isValid,
            ih hrest _ (by omega), List.filter_cons_of_pos (by simpa using hhead)]
          simp

/-- A pattern that is longer than the script is found nowhere. -/
theorem deleteFrom_of_length_lt (acc : List Bytes) (fuel : Nat) (h : bs.length < pattern.length) :
    deleteFrom pattern acc fuel bs = acc.reverse.flatten ++ bs := by
  induction fuel generalizing acc bs with
  | zero => simp [deleteFrom]
  | succ fuel ih =>
      have hleft : dropRepeats pattern (fuel + 1) bs = bs :=
        dropRepeats_of_not_starts (fun hstarts => absurd hstarts.length_le (Nat.not_le.mpr h)) _
      by_cases htail : Undecodable bs
      · rw [deleteFrom_of_undecodable acc (hleft.symm ▸ htail), hleft]
      · obtain ⟨op, rest, hdecode, hvalid⟩ := Op.exists_of_not_undecodable htail
        rw [deleteFrom_of_decode acc (by rw [hleft, hdecode]) hvalid,
          ih _ ((Op.length_lt_of_decode hdecode).trans h), ← Op.append_of_decode hdecode hvalid]
        simp

/-- Data whose push can be cut out of a script: its length has a place in the four bytes that the
largest push opcode provides for it, or what is written to push it is longer than the script. -/
def Cuttable (d : Bytes) (s : Script) : Prop :=
  d.length < 2 ^ 32 ∨ s.size < (pushData d).length

theorem Cuttable.keeping {d : Bytes} (h : Cuttable d s) (f : Op → Bool) :
    Cuttable d (s.keeping f) :=
  h.imp_right (size_keeping_le.trans_lt ·)

/-- Deleting pushed data is keeping the operations that do not push it in the same bytes. -/
theorem findAndDelete_pushData {d : Bytes} (h : Cuttable d s) :
    s.findAndDelete ⟨pushData d⟩ = s.keeping fun op => op.encode != pushData d := by
  have hdelete : s.findAndDelete ⟨pushData d⟩ =
      ⟨deleteFrom (pushData d) [] (s.bytes.length + 1) s.bytes⟩ := by
    rw [findAndDelete, if_neg (by rw [pushData_eq]; exact Bool.false_ne_true)]
  rw [hdelete]
  rcases h with hshort | hlong
  · have hp := Op.fits_ofData hshort
    have hleft := deleteFrom_append hp fits_of_mem_decoded s.undecodable_undecoded []
      (Nat.lt_succ_of_le s.length_decoded_le)
    rw [s.decoded_append_undecoded, ← pushData_eq] at hleft
    rw [← size, hleft]
    refine (keeping_congr fun op hop => ?_).symm
    rw [Bool.eq_iff_iff, bne_iff_ne, bne_iff_ne, pushData_eq]
    exact (Op.encode_inj (fits_of_mem_decoded op hop) hp).not
  · rw [deleteFrom_of_length_lt [] _ hlong]
    refine Eq.symm (keeping_eq_self fun op hop => bne_iff_ne.mpr fun heq => ?_)
    have hle := length_encode_le_of_mem hop
    rw [heq] at hle
    exact absurd hle (Nat.not_le.mpr hlong)

/-! ## Leaving out code separators -/

theorem filterFrom_append (hfront : ∀ op ∈ front, op.Fits) (htail : Undecodable tail)
    (acc : List Bytes) {fuel : Nat} (hfuel : front.length < fuel) :
    filterFrom f acc fuel (front.flatMap Op.encode ++ tail) =
      acc.reverse.flatten ++ ((front.filter f).flatMap Op.encode ++ tail) := by
  induction front generalizing acc fuel with
  | nil =>
      obtain ⟨fuel, rfl⟩ := Nat.exists_eq_succ_of_ne_zero (Nat.ne_zero_of_lt hfuel)
      change filterFrom f acc (fuel + 1) tail = acc.reverse.flatten ++ tail
      cases hdecode : Op.decode tail with
      | none =>
          obtain rfl := Op.eq_nil_of_decode_none hdecode
          exact (List.append_nil _).symm
      | some next =>
          obtain ⟨op, rest⟩ := next
          exact filterFrom_of_invalid hdecode (by simp [htail op rest hdecode]) f acc fuel
  | cons op front ih =>
      obtain ⟨fuel, rfl⟩ := Nat.exists_eq_succ_of_ne_zero (Nat.ne_zero_of_lt hfuel)
      obtain ⟨hop, hrest⟩ := List.forall_mem_cons.mp hfront
      rw [List.flatMap_cons, List.append_assoc,
        filterFrom_of_decode (Op.decode_encode hop _) hop.isValid,
        ih hrest _ (Nat.lt_of_succ_lt_succ hfuel), List.filter_cons]
      split
      · simp
      · rfl

/-- The script without its code separators keeps all other operations. -/
theorem withoutCodeSeparators_eq_keeping :
    s.withoutCodeSeparators = s.keeping (· != .code Opcode.codeSeparator) := by
  have hleft := filterFrom_append (f := (· != .code Opcode.codeSeparator)) fits_of_mem_decoded
    s.undecodable_undecoded [] (Nat.lt_succ_of_le s.length_decoded_le)
  rw [s.decoded_append_undecoded] at hleft
  exact congrArg Script.mk hleft

/-! ## Both cuts -/

/-- Leaving out the code separators of a script, and deleting the push of some data from it, keep
the other operations with their bytes, in their order, and the undecodable tail, and nothing else:
what is left decodes to the operations that were kept. So such cuts can be made in any order,
and making one again changes nothing. -/
theorem cuts_keep_operations (s : Script) :
    let delete (d : Bytes) (s : Script) : Script := s.findAndDelete ⟨pushData d⟩
    let others (d : Bytes) : List Op := s.decoded.filter fun op => op.encode != pushData d
    let unseparated : List Op := s.decoded.filter (· != .code Opcode.codeSeparator)
    s.bytes = s.decoded.flatMap Op.encode ++ s.undecoded ∧
    (s.withoutCodeSeparators.bytes = unseparated.flatMap Op.encode ++ s.undecoded ∧
      s.withoutCodeSeparators.decoded = unseparated ∧
      s.withoutCodeSeparators.undecoded = s.undecoded) ∧
    s.withoutCodeSeparators.withoutCodeSeparators = s.withoutCodeSeparators ∧
    ∀ d, Cuttable d s →
      ((delete d s).bytes = (others d).flatMap Op.encode ++ s.undecoded ∧
        (delete d s).decoded = others d ∧ (delete d s).undecoded = s.undecoded) ∧
      (delete d s).withoutCodeSeparators = delete d s.withoutCodeSeparators ∧
      delete d (delete d s) = delete d s ∧
      ∀ d', Cuttable d' s → delete d' (delete d s) = delete d (delete d' s) := by
  intro delete others unseparated
  have hseparated := withoutCodeSeparators_eq_keeping (s := s)
  refine ⟨s.decoded_append_undecoded.symm, ?_, ?_, fun d hd => ?_⟩
  · rw [hseparated]
    exact ⟨rfl, decoded_keeping _ s, undecoded_keeping _ s⟩
  · rw [hseparated, withoutCodeSeparators_eq_keeping]
    exact keeping_idem _ s
  · have hdelete : delete d s = s.keeping fun op => op.encode != pushData d :=
      findAndDelete_pushData hd
    refine ⟨?_, ?_, ?_, fun d' hd' => ?_⟩
    · rw [hdelete]
      exact ⟨rfl, decoded_keeping _ s, undecoded_keeping _ s⟩
    · rw [hdelete, hseparated, withoutCodeSeparators_eq_keeping]
      exact (keeping_comm _ _ s).trans (findAndDelete_pushData (hd.keeping _)).symm
    · rw [hdelete]
      exact (findAndDelete_pushData (hd.keeping _)).trans (keeping_idem _ s)
    · have hdelete' : delete d' s = s.keeping fun op => op.encode != pushData d' :=
        findAndDelete_pushData hd'
      rw [hdelete, hdelete']
      calc ((s.keeping fun op => op.encode != pushData d).findAndDelete ⟨pushData d'⟩)
        _ = (s.keeping fun op => op.encode != pushData d).keeping
              fun op => op.encode != pushData d' := findAndDelete_pushData (hd'.keeping _)
        _ = (s.keeping fun op => op.encode != pushData d').keeping
              fun op => op.encode != pushData d := keeping_comm _ _ s
        _ = _ := (findAndDelete_pushData (hd.keeping _)).symm

/-- A push twice in a row, its bytes inside another push, a code separator, the same byte inside a
push, and a tail in which both stand: `[0x51]` and the empty byte string are deleted. -/
theorem cuts_keep_operations_mixed :
    let s : Script :=
      ⟨[0x01, 0x51, 0x01, 0x51, 0x03, 0x01, 0x51, 0xab, 0xab, 0x00, 0x4d, 0xab, 0x00]⟩
    s.findAndDelete ⟨pushData [0x51]⟩ =
        ⟨[0x03, 0x01, 0x51, 0xab, 0xab, 0x00, 0x4d, 0xab, 0x00]⟩ ∧
      (s.findAndDelete ⟨pushData [0x51]⟩).findAndDelete ⟨pushData []⟩ =
        (s.findAndDelete ⟨pushData []⟩).findAndDelete ⟨pushData [0x51]⟩ ∧
      (s.findAndDelete ⟨pushData [0x51]⟩).decoded =
        [.push 3 [0x01, 0x51, 0xab], .code 0xab, .push 0 []] := by
  intro s
  obtain ⟨-, -, -, hcuts⟩ := cuts_keep_operations s
  obtain ⟨⟨hbytes, hdecoded, -⟩, -, -, hcomm⟩ := hcuts [0x51] (.inl (by decide))
  refine ⟨?_, hcomm [] (.inl (by decide)), ?_⟩
  · exact congrArg Script.mk (hbytes.trans (by decide))
  · exact hdecoded.trans (by decide)

/-! ## Data too long for a push -/

/-- What is written to push so much data is no operation. -/
theorem encode_ne_pushData {d : Bytes} (h : d.length = 2 ^ 32) (hop : op.Fits) :
    op.encode ≠ pushData d := by
  intro heq
  have hstarts : (Op.push Opcode.pushData4 []).encode <+: op.encode ++ [] :=
    ⟨d, by rw [heq, pushData_overlong h, List.append_nil]⟩
  rw [← Op.eq_of_encode_starts (by decide) hop hstarts, pushData_overlong h] at heq
  have hlength := congrArg List.length heq
  rw [List.length_append, h] at hlength
  omega

theorem findAndDelete_self (h : pattern ≠ []) : findAndDelete ⟨pattern⟩ ⟨pattern⟩ = .empty := by
  have hnil : dropRepeats pattern (pattern.length + 1) pattern = [] := by
    rw [dropRepeats, if_pos (List.isPrefixOf_iff_prefix.mpr List.prefix_rfl), List.drop_length,
      dropRepeats_of_not_starts (mt List.prefix_nil.mp h)]
  have hleft : deleteFrom pattern [] (pattern.length + 1) pattern = [] := by
    rw [deleteFrom_of_undecodable [] (by rw [hnil]; exact nofun), hnil]
    rfl
  rw [findAndDelete, if_neg (mt List.isEmpty_iff.mp h), hleft]
  rfl

/-- A push that announces no data, and after it as many code separators as would be its data: no
operation is what is deleted, and all of them are. -/
theorem cut_of_overlong_push :
    let d : Bytes := List.replicate (2 ^ 32) Opcode.codeSeparator
    let s : Script := ⟨pushData d⟩
    let others : List Op := s.decoded.filter fun op => op.encode != pushData d
    others = s.decoded ∧ s.findAndDelete ⟨pushData d⟩ = .empty ∧
      (s.findAndDelete ⟨pushData d⟩).bytes ≠ others.flatMap Op.encode ++ s.undecoded := by
  intro d s others
  have hlength : d.length = 2 ^ 32 := List.length_replicate
  -- the length is all that matters of so long a list
  clear_value d
  have hne : pushData d ≠ [] := by
    rw [pushData_overlong hlength]
    exact List.cons_ne_nil _ _
  have hothers : others = s.decoded := List.filter_eq_self.mpr fun op hop =>
    bne_iff_ne.mpr (encode_ne_pushData hlength (fits_of_mem_decoded op hop))
  have hdelete : s.findAndDelete ⟨pushData d⟩ = .empty := findAndDelete_self hne
  refine ⟨hothers, hdelete, ?_⟩
  rw [hdelete, hothers, s.decoded_append_undecoded]
  exact hne.symm

end StakeChain.Script
