/-
The text of a script is read back.

The text holds a token for each operation, and no token holds a blank, so reading finds the
same tokens and it is enough to see what becomes of each. Small numbers and short pushes
are shown as numbers, everything else by a name or in hexadecimal, and one form is not taken
for another, with one exception: a number may have ten digits, and so has the
hexadecimal form of five bytes. If these are decimal digits, they are read as a number.
-/
import Mathlib.Algebra.Order.BigOperators.Group.List
import Mathlib.Data.List.Nodup
import StakeChain.Proofs.HexText
import StakeChain.Proofs.SameDigits
import StakeChain.Proofs.ScriptNumbers
import StakeChain.Proofs.Tiling
import StakeChain.Script.Text

namespace StakeChain.Script

/-! ## Tokens -/

/-- What is read as one token where blanks surround it. -/
def IsWord (token : List Char) : Prop :=
  token ≠ [] ∧ ∀ c ∈ token, isBlank c = false

theorem tokensFrom_append {w : List Char} (h : ∀ c ∈ w, isBlank c = false) (word rest : List Char) :
    tokensFrom word (w ++ rest) = tokensFrom (w.reverse ++ word) rest := by
  induction w generalizing word with
  | nil => rfl
  | cons c w ih =>
      obtain ⟨hc, hw⟩ := List.forall_mem_cons.mp h
      rw [List.cons_append, tokensFrom, hc, if_neg Bool.false_ne_true, ih hw, List.reverse_cons,
        List.append_assoc]
      rfl

/-- Words with single blanks between them are found again. -/
theorem tokensFrom_intercalate {words : List (List Char)} (h : ∀ w ∈ words, IsWord w) :
    tokensFrom [] ([' '].intercalate words) = words := by
  induction words with
  | nil => rfl
  | cons w words ih =>
      obtain ⟨⟨hne, hw⟩, hwords⟩ := List.forall_mem_cons.mp h
      have hempty : (w.reverse ++ []).isEmpty = false := by simpa using hne
      cases words with
      | nil =>
          rw [List.intercalate_singleton, ← List.append_nil w, tokensFrom_append hw, tokensFrom,
            hempty]
          simp
      | cons w' words =>
          rw [List.intercalate_cons_cons, List.append_assoc, tokensFrom_append hw,
            List.singleton_append, tokensFrom, if_pos (by decide), hempty, ih hwords]
          simp

theorem tokens_display {s : Script} (h : ∀ op ∈ s.ops, IsWord (showOp op).toList) :
    tokens s.display = s.ops.map fun op => (showOp op).toList := by
  rw [tokens, display, String.toList_intercalate, List.map_map]
  exact tokensFrom_intercalate (List.forall_mem_map.mpr h)

theorem mapM_ok {α β : Type} {read : α → Except ParseError β} {f : α → β} {list : List α}
    (h : ∀ x ∈ list, read x = .ok (f x)) : list.mapM read = .ok (list.map f) := by
  induction list with
  | nil => rfl
  | cons x list ih =>
      obtain ⟨hx, hlist⟩ := List.forall_mem_cons.mp h
      rw [List.mapM_cons, hx, ih hlist]
      rfl

theorem parse_of_readToken {s : Script} {f : Op → Bytes}
    (hword : ∀ op ∈ s.ops, IsWord (showOp op).toList)
    (hread : ∀ op ∈ s.ops, readToken (showOp op).toList = .ok (f op)) :
    parse s.display = .ok ⟨s.ops.flatMap f⟩ := by
  have hparts : (s.ops.map fun op => (showOp op).toList).mapM readToken = .ok (s.ops.map f) :=
    List.mapM_map.trans (mapM_ok hread)
  rw [parse, tokens_display hword, hparts]
  rfl

/-! ## Numbers -/

/-- The number that decimal digits stand for. -/
def decimal (digits : List Char) : Nat :=
  digits.foldl (fun n c => 10 * n + (c.toNat - 48)) 0

/-- What is read as a number without a sign. -/
def IsNumeral (token : List Char) : Prop :=
  token ≠ [] ∧ token.length ≤ 10 ∧ token.all Char.isDigit

instance : DecidablePred IsNumeral := fun _ => inferInstanceAs (Decidable (_ ∧ _))

theorem number?_unsigned {token : List Char} (h : ∀ rest, token ≠ '-' :: rest) :
    number? token = if IsNumeral token then some (decimal token : Int) else none := by
  unfold number?
  split
  rename_i negative digits hmatch
  split at hmatch
  · exact absurd rfl (h _)
  · cases hmatch
    rfl

theorem number?_of_isNumeral {digits : List Char} (h : IsNumeral digits) :
    number? digits = some (decimal digits : Int) := by
  have hsign : ∀ rest, digits ≠ '-' :: rest := by
    rintro rest rfl
    cases h.2.2
  rw [number?_unsigned hsign, if_pos h]

theorem number?_minus {digits : List Char} (h : IsNumeral digits) :
    number? ('-' :: digits) = some (-(decimal digits : Int)) :=
  if_pos h

theorem isNumeral_repr {n : Nat} (h : n < 10 ^ 10) :
    IsNumeral (Nat.repr n).toList ∧ decimal (Nat.repr n).toList = n := by
  rw [Nat.toList_repr]
  have hlength := (Nat.length_toDigits_le_iff (by decide) (by decide)).mpr h
  have hdigits : (Nat.toDigits 10 n).all Char.isDigit := List.all_eq_true.mpr fun c hc =>
    Nat.isDigit_of_mem_toDigits (by decide) (by decide) hc
  exact ⟨⟨Nat.toDigits_ne_nil, hlength, hdigits⟩,
    Nat.ofDigitChars_eq_foldl.symm.trans Nat.ofDigitChars_ten_toDigits⟩

theorem number?_toString {n : Int} (h : n.natAbs < 10 ^ 10) :
    number? (toString n).toList = some n := by
  cases n with
  | ofNat n =>
      obtain ⟨hnumeral, hdecimal⟩ := isNumeral_repr (n := n) h
      change number? (Nat.repr n).toList = _
      rw [number?_of_isNumeral hnumeral, hdecimal]
      rfl
  | negSucc n =>
      obtain ⟨hnumeral, hdecimal⟩ := isNumeral_repr (n := n + 1) h
      have htoken : (toString (Int.negSucc n)).toList = '-' :: (Nat.repr (n + 1)).toList := by
        change ("-" ++ Nat.repr (n + 1)).toList = _
        rw [String.toList_append]
        rfl
      rw [htoken, number?_minus hnumeral, hdecimal]
      rfl

theorem readToken_of_number {token : List Char} {n : Int} (h : number? token = some n) :
    readToken token = .ok (pushInt n) := by
  simp only [readToken, h]

/-! ## Names -/

/-- What is no number, not marked as raw bytes and not quoted: a name or hexadecimal. -/
def IsPlain (token : List Char) : Prop :=
  number? token = none ∧ (∀ raw, token ≠ '0' :: 'x' :: raw) ∧ token.head? ≠ some '\''

theorem IsPlain.quoted?_eq_none {token : List Char} (h : IsPlain token) : quoted? token = none := by
  unfold quoted?
  split
  · exact absurd rfl h.2.2
  · rfl

theorem readToken_of_name {token : List Char} {opcode : UInt8} (h : IsPlain token)
    (hname : Opcode.ofName? (String.ofList token) = some opcode) :
    readToken token = .ok [opcode] := by
  have hquoted := h.quoted?_eq_none
  obtain ⟨hnumber, hraw, -⟩ := h
  simp only [readToken, hnumber, hquoted, hname]

theorem readToken_of_hex {token : List Char} {data : Bytes} (h : IsPlain token)
    (hname : Opcode.ofName? (String.ofList token) = none)
    (hdata : Hex.decode (String.ofList token) = .ok data) :
    readToken token = .ok (pushData data) := by
  have hquoted := h.quoted?_eq_none
  obtain ⟨hnumber, hraw, -⟩ := h
  simp only [readToken, hnumber, hquoted, hname, hdata]

/-- A number by which the shown names can be told apart. -/
def spellingKey (name : String) : Nat :=
  name.toList.foldl (fun n c => 31 * n + c.toNat) 0

/-- How the shown names are spelled. -/
theorem names_spelled :
    (∀ e ∈ Opcode.names, e.2.toList.take 3 = ['O', 'P', '_'] ∧
      e.2.toList.all fun c => c.toUpper == c && !isBlank c) ∧
    (Opcode.names.map fun e => spellingKey e.2).Nodup := by
  decide +kernel

section Name

variable {opcode : UInt8} {name : String} (h : Opcode.name? opcode = some name)
include h

theorem mem_names_of_name? : (opcode, name) ∈ Opcode.names := by
  obtain ⟨e, he, rfl⟩ := Option.map_eq_some_iff.mp h
  have hopcode := List.find?_some he
  obtain rfl := beq_iff_eq.mp hopcode
  exact List.mem_of_find?_eq_some he

theorem spelled_of_name? : ∀ c ∈ name.toList, c.toUpper = c ∧ isBlank c = false := by
  intro c hc
  have hall := List.all_eq_true.mp (names_spelled.1 _ (mem_names_of_name? h)).2 c hc
  rwa [Bool.and_eq_true, beq_iff_eq, Bool.not_eq_true'] at hall

theorem exists_toList_of_name? : ∃ rest, name.toList = 'O' :: 'P' :: '_' :: rest := by
  have htake := (names_spelled.1 _ (mem_names_of_name? h)).1
  refine ⟨name.toList.drop 3, ?_⟩
  conv_lhs => rw [← List.take_append_drop 3 name.toList, htake]
  rfl

/-- The shown name of an operation is understood as that operation. -/
theorem ofName?_of_name? : Opcode.ofName? name = some opcode := by
  have hmem := mem_names_of_name? h
  have hupper : name.map Char.toUpper = name := by
    refine String.toList_inj.mp ?_
    rw [String.toList_map, List.map_congr_left fun c hc => (spelled_of_name? h c hc).1,
      List.map_id']
  have hbare : name.startsWith "OP_" = true := by
    obtain ⟨rest, hrest⟩ := exists_toList_of_name? h
    exact String.startsWith_string_iff.mpr ⟨rest, hrest.symm⟩
  have hfind : Opcode.names.find? (fun e => e.2 == name) = some (opcode, name) := by
    cases hfound : Opcode.names.find? (fun e => e.2 == name) with
    | none => exact absurd (beq_self_eq_true name) (List.find?_eq_none.mp hfound _ hmem)
    | some e =>
        have hname := List.find?_some hfound
        have hkey := congrArg spellingKey (beq_iff_eq.mp hname)
        rw [List.inj_on_of_nodup_map names_spelled.2 (List.mem_of_find?_eq_some hfound) hmem hkey]
  simp only [Opcode.ofName?, hupper, hbare, if_true, hfind]

theorem readToken_name : readToken name.toList = .ok [opcode] := by
  obtain ⟨rest, hrest⟩ := exists_toList_of_name? h
  have hplain : IsPlain name.toList := by
    rw [hrest]
    refine ⟨?_, nofun, by simp⟩
    rw [number?_unsigned (by simp)]
    exact if_neg fun hnumeral => nomatch hnumeral.2.2
  exact readToken_of_name hplain (by rw [String.ofList_toList, ofName?_of_name? h])

theorem isWord_name : IsWord name.toList := by
  obtain ⟨rest, hrest⟩ := exists_toList_of_name? h
  exact ⟨by rw [hrest]; exact List.cons_ne_nil _ _, fun c hc => (spelled_of_name? h c hc).2⟩

end Name

/-- All names that are understood. -/
def spellings : List String :=
  Opcode.names.map Prod.snd ++ Opcode.aliases.map Prod.fst

/-- Nothing is understood that would be no name with `OP_` in front either. -/
theorem ofName?_eq_none {text : String} (hbare : (text.map Char.toUpper).startsWith "OP_" = false)
    (h : "OP_" ++ text.map Char.toUpper ∉ spellings) : Opcode.ofName? text = none := by
  obtain ⟨hnames, haliases⟩ := not_or.mp (mt List.mem_append.mpr h)
  have hname : Opcode.names.find? (fun e => e.2 == "OP_" ++ text.map Char.toUpper) = none :=
    List.find?_eq_none.mpr fun e he heq => hnames (List.mem_map.mpr ⟨e, he, beq_iff_eq.mp heq⟩)
  have halias : Opcode.aliases.find? (fun e => e.1 == "OP_" ++ text.map Char.toUpper) = none :=
    List.find?_eq_none.mpr fun e he heq => haliases (List.mem_map.mpr ⟨e, he, beq_iff_eq.mp heq⟩)
  simp only [Opcode.ofName?, hbare, Bool.false_eq_true, if_false, hname, halias, Option.map_none]

/-! ## Hexadecimal -/

/-- No name is as long as five bytes and made of hexadecimal digits. -/
theorem spellings_not_hex : ∀ name ∈ spellings, name.toList.length < 13 ∨
    (name.toList.drop 3).any fun c => (List.range 16).all fun n => c != (Hex.digit n).toUpper := by
  decide +kernel

theorem ofName?_encode {data : Bytes} (h : 5 ≤ data.length) :
    Opcode.ofName? (Hex.encode data) = none := by
  have hupper : ∀ c ∈ ((Hex.encode data).map Char.toUpper).toList,
      ∃ n < 16, c = (Hex.digit n).toUpper := by
    rw [String.toList_map, List.forall_mem_map]
    intro c hc
    obtain ⟨n, hn, rfl⟩ := Hex.exists_digit_of_mem hc
    exact ⟨n, hn, rfl⟩
  refine ofName?_eq_none (Bool.eq_false_iff.mpr fun hstarts => ?_) fun hname => ?_
  · obtain ⟨rest, hrest⟩ := String.startsWith_string_iff.mp hstarts
    obtain ⟨n, hn, heq⟩ := hupper 'O' (hrest ▸ List.mem_cons_self)
    exact absurd heq ((by decide : ∀ n < 16, 'O' ≠ (Hex.digit n).toUpper) n hn)
  · have hlength : ("OP_" ++ (Hex.encode data).map Char.toUpper).toList.length =
        3 + 2 * data.length := by
      rw [String.toList_append, List.length_append, String.toList_map, List.length_map,
        Hex.length_encode]
      rfl
    rcases spellings_not_hex _ hname with hshort | hany
    · omega
    · obtain ⟨c, hc, hother⟩ := List.any_eq_true.mp hany
      rw [String.toList_append] at hc
      obtain ⟨n, hn, rfl⟩ := hupper c hc
      have hne := List.all_eq_true.mp hother n (List.mem_range.mpr hn)
      rw [bne_self_eq_false] at hne
      cases hne

theorem isPlain_encode {data : Bytes} (hnumber : number? (Hex.encode data).toList = none) :
    IsPlain (Hex.encode data).toList := by
  refine ⟨hnumber, fun raw heq => ?_, fun heq => ?_⟩
  · refine Hex.not_mem_encode (by decide : ∀ n < 16, 'x' ≠ Hex.digit n) data ?_
    rw [heq]
    exact List.mem_cons_of_mem _ List.mem_cons_self
  · exact Hex.not_mem_encode (by decide : ∀ n < 16, '\'' ≠ Hex.digit n) data
      (List.mem_of_mem_head? heq)

/-- Data whose hexadecimal form is ten decimal digits. -/
def LooksNumeric (data : Bytes) : Prop :=
  data.length = 5 ∧ (Hex.encode data).toList.all Char.isDigit

instance : DecidablePred LooksNumeric := fun _ => inferInstanceAs (Decidable (_ ∧ _))

/-- Longer data is shown with more digits than a number may have, and five bytes with as many. -/
theorem isNumeral_encode_iff {data : Bytes} (h : 5 ≤ data.length) :
    IsNumeral (Hex.encode data).toList ↔ LooksNumeric data := by
  have hlength := Hex.length_encode data
  have hne : (Hex.encode data).toList ≠ [] := List.ne_nil_of_length_pos (by omega)
  constructor
  · rintro ⟨-, hle, hdigits⟩
    exact ⟨by omega, hdigits⟩
  · rintro ⟨hfive, hdigits⟩
    exact ⟨hne, by omega, hdigits⟩

theorem number?_encode {data : Bytes} (h : 5 ≤ data.length) (hother : ¬ LooksNumeric data) :
    number? (Hex.encode data).toList = none := by
  have hsign : ∀ rest, (Hex.encode data).toList ≠ '-' :: rest := fun rest heq => by
    refine Hex.not_mem_encode (by decide : ∀ n < 16, '-' ≠ Hex.digit n) data ?_
    rw [heq]
    exact List.mem_cons_self
  rw [number?_unsigned hsign, if_neg (mt (isNumeral_encode_iff h).mp hother)]

/-! ## Operations -/

/-- The text of an operation says all of it: it has a name, or it is the smallest push of its
data; and data that is shown as a number is the shortest form of one that no other operation
pushes. -/
def Legible : Op → Prop
  | .push opcode data => opcode = Op.pushOpcode data.length ∧
      (data.length ≤ 4 → ScriptNumber.isMinimal data ∧ ¬ IsSmall (ScriptNumber.value data))
  | .code opcode => (Opcode.name? opcode).isSome
  | .invalid _ => False

/-- A push whose hexadecimal text is taken for a number. -/
def Misread : Op → Prop
  | .push _ data => LooksNumeric data
  | .code _ => False
  | .invalid _ => False

/-- What the text of an operation is read as. -/
def readBack : Op → Bytes
  | .push opcode data =>
      if LooksNumeric data then pushInt (decimal (Hex.encode data).toList)
      else (Op.push opcode data).encode
  | op => op.encode

theorem pushInt_value {data : Bytes} (hminimal : ScriptNumber.isMinimal data)
    (hother : ¬ IsSmall (ScriptNumber.value data)) :
    pushInt (ScriptNumber.value data) = pushData data := by
  rw [IsSmall, not_or] at hother
  have hencode := ScriptNumber.encode_value hminimal
  rw [pushInt]
  split
  · next hzero =>
      rw [hzero, ScriptNumber.encode_zero] at hencode
      rw [← hencode]
      rfl
  · rw [if_neg hother.1, if_neg hother.2, hencode]

theorem natAbs_value_lt {data : Bytes} (hminimal : ScriptNumber.isMinimal data)
    (hlength : data.length ≤ 4) : (ScriptNumber.value data).natAbs < 10 ^ 10 := by
  have hle := (ScriptNumber.length_le_iff (by decide) hminimal).mp hlength
  exact hle.trans_lt (by decide)

theorem readToken_push {opcode : UInt8} {data : Bytes} (h : Legible (.push opcode data)) :
    readToken (showOp (.push opcode data)).toList = .ok (readBack (.push opcode data)) := by
  obtain ⟨rfl, hshort⟩ := h
  have hpush : (Op.push (Op.pushOpcode data.length) data).encode = pushData data :=
    (pushData_eq data).symm
  rw [showOp, readBack, hpush]
  split
  · next hle =>
      obtain ⟨hminimal, hother⟩ := hshort hle
      rw [if_neg fun hnumeric => by have := hnumeric.1; omega,
        readToken_of_number (number?_toString (natAbs_value_lt hminimal hle)),
        pushInt_value hminimal hother]
  · next hlong =>
      have hfive : 5 ≤ data.length := by omega
      split
      · next hnumeric =>
          have hnumeral := (isNumeral_encode_iff hfive).mpr hnumeric
          exact readToken_of_number (number?_of_isNumeral hnumeral)
      · next hother =>
          refine readToken_of_hex (isPlain_encode (number?_encode hfive hother)) ?_ ?_
          · rw [String.ofList_toList, ofName?_encode hfive]
          · rw [String.ofList_toList, Hex.decode_encode]

theorem pushInt_small {opcode : UInt8} (hlow : Opcode.op1 ≤ opcode) (hhigh : opcode ≤ Opcode.op16) :
    pushInt ((opcode.toNat - 0x50 : Nat) : Int) = [opcode] := by
  have hl : 0x51 ≤ opcode.toNat := UInt8.le_iff_toNat_le.mp hlow
  have hh : opcode.toNat ≤ 0x60 := UInt8.le_iff_toNat_le.mp hhigh
  have hopcode : Opcode.ofSmallInt (opcode.toNat - 0x50) = opcode := by
    rw [Opcode.ofSmallInt, if_neg (by omega), Nat.add_sub_cancel' (by omega), UInt8.ofNat_toNat]
  rw [pushInt, if_neg (by omega), if_neg (by omega), if_pos (by omega), Int.toNat_natCast, hopcode]

theorem readToken_code {opcode : UInt8} (h : Legible (.code opcode)) :
    readToken (showOp (.code opcode)).toList = .ok (readBack (.code opcode)) := by
  obtain ⟨name, hname⟩ := Option.isSome_iff_exists.mp h
  rw [showOp]
  split
  · next hminus =>
      have hnumber : number? (toString (-1 : Int)).toList = some (-1) :=
        number?_toString (by decide)
      rw [hminus]
      exact readToken_of_number hnumber
  · split
    · next hsmall =>
        have hbound := opcode.toNat_lt
        have hnumber := number?_toString (n := ((opcode.toNat - 0x50 : Nat) : Int)) (by omega)
        have hread := readToken_of_number hnumber
        rw [pushInt_small hsmall.1 hsmall.2] at hread
        exact hread
    · rw [hname]
      exact readToken_name hname

theorem readToken_showOp {op : Op} (h : Legible op) :
    readToken (showOp op).toList = .ok (readBack op) := by
  cases op with
  | push opcode data => exact readToken_push h
  | code opcode => exact readToken_code h
  | invalid opcode => cases h

/-! ## No blanks -/

theorem isBlank_of_isDigit {c : Char} (h : c.isDigit = true) : isBlank c = false := by
  obtain ⟨hlow, hhigh⟩ := Char.isDigit_iff_toNat.mp h
  change 48 ≤ c.toNat at hlow
  change c.toNat ≤ 57 at hhigh
  simp [isBlank]
  omega

theorem isWord_repr (n : Nat) : IsWord (Nat.repr n).toList := by
  rw [Nat.toList_repr]
  exact ⟨Nat.toDigits_ne_nil, fun c hc =>
    isBlank_of_isDigit (Nat.isDigit_of_mem_toDigits (by decide) (by decide) hc)⟩

theorem isWord_toString (n : Int) : IsWord (toString n).toList := by
  cases n with
  | ofNat n => exact isWord_repr n
  | negSucc n =>
      have hword := isWord_repr (n + 1)
      change IsWord ("-" ++ Nat.repr (n + 1)).toList
      rw [String.toList_append]
      exact ⟨List.cons_ne_nil _ _, List.forall_mem_cons.mpr ⟨by decide, hword.2⟩⟩

theorem isWord_encode {data : Bytes} (h : 0 < data.length) : IsWord (Hex.encode data).toList := by
  have hlength := Hex.length_encode data
  refine ⟨List.ne_nil_of_length_pos (by omega), fun c hc => ?_⟩
  obtain ⟨n, hn, rfl⟩ := Hex.exists_digit_of_mem hc
  exact (by decide : ∀ n < 16, isBlank (Hex.digit n) = false) n hn

theorem isWord_showOp {op : Op} (h : Legible op) : IsWord (showOp op).toList := by
  cases op with
  | push opcode data =>
      rw [showOp]
      split
      · exact isWord_toString _
      · exact isWord_encode (by omega)
  | code opcode =>
      obtain ⟨name, hname⟩ := Option.isSome_iff_exists.mp h
      rw [showOp]
      split
      · exact isWord_toString (-1)
      · split
        · exact isWord_repr _
        · rw [hname]
          exact isWord_name hname
  | invalid opcode => cases h

/-- What the text of a script is read as. -/
theorem parse_display {s : Script} (h : ∀ op ∈ s.ops, Legible op) :
    parse s.display = .ok ⟨s.ops.flatMap readBack⟩ :=
  parse_of_readToken (fun op hop => isWord_showOp (h op hop))
    fun op hop => readToken_showOp (h op hop)

/-! ## Five bytes that look numeric -/

/-- The number that the two digits of a byte show, if they are decimal. -/
def showing (b : UInt8) : Nat :=
  10 * (b.toNat / 16) + b.toNat % 16

theorem decimal_digitsOfByte {b : UInt8} (h : (Hex.digitsOfByte b).all Char.isDigit) (n : Nat) :
    (Hex.digitsOfByte b).foldl (fun n c => 10 * n + (c.toNat - 48)) n = 100 * n + showing b ∧
      showing b < 100 ∧ SameDigits.asByte (showing b) = b.toNat := by
  have hb := b.toNat_lt
  have hdigit : ∀ k < 16, (Hex.digit k).isDigit → k < 10 ∧ (Hex.digit k).toNat - 48 = k := by
    decide
  rw [Hex.digitsOfByte, List.all_cons, List.all_cons, List.all_nil, Bool.and_true,
    Bool.and_eq_true] at h
  obtain ⟨hhigh, hhigh'⟩ := hdigit _ (by omega) h.1
  obtain ⟨hlow, hlow'⟩ := hdigit _ (by omega) h.2
  rw [Hex.digitsOfByte, List.foldl_cons, List.foldl_cons, List.foldl_nil, hhigh', hlow',
    SameDigits.asByte, showing]
  omega

/-- What five bytes that look numeric show, and what they hold. -/
theorem exists_shown {data : Bytes} (h : LooksNumeric data) :
    ∃ a b c d e, a < 100 ∧ b < 100 ∧ c < 100 ∧ d < 100 ∧ e < 100 ∧
      decimal (Hex.encode data).toList =
        100000000 * a + 1000000 * b + 10000 * c + 100 * d + e ∧
      Bytes.toNatLE data = SameDigits.asByte a + 256 * SameDigits.asByte b +
        65536 * SameDigits.asByte c + 16777216 * SameDigits.asByte d +
          4294967296 * SameDigits.asByte e := by
  obtain ⟨hlength, hdigits⟩ := h
  rw [Hex.encode, String.toList_ofList] at hdigits ⊢
  rw [List.all_flatMap, List.all_eq_true] at hdigits
  have hdecimal : decimal (data.flatMap Hex.digitsOfByte) =
      data.foldl (fun n b => 100 * n + showing b) 0 := by
    rw [decimal, List.foldl_flatMap]
    exact List.foldl_ext _ _ 0 fun n b hb => (decimal_digitsOfByte (hdigits b hb) n).1
  have hshown : ∀ b ∈ data, showing b < 100 ∧ SameDigits.asByte (showing b) = b.toNat :=
    fun b hb => (decimal_digitsOfByte (hdigits b hb) 0).2
  obtain ⟨b₀, tail, rfl⟩ := List.exists_cons_of_length_eq_add_one hlength
  obtain ⟨b₁, tail, rfl⟩ := List.exists_cons_of_length_eq_add_one (Nat.succ.inj hlength)
  obtain ⟨b₂, b₃, b₄, rfl⟩ := List.length_eq_three.mp (Nat.succ.inj (Nat.succ.inj hlength))
  simp only [List.forall_mem_cons] at hshown
  obtain ⟨⟨h₀, h₀'⟩, ⟨h₁, h₁'⟩, ⟨h₂, h₂'⟩, ⟨h₃, h₃'⟩, ⟨h₄, h₄'⟩, -⟩ := hshown
  refine ⟨_, _, _, _, _, h₀, h₁, h₂, h₃, h₄, ?_, ?_⟩
  · rw [hdecimal]
    simp only [List.foldl_cons, List.foldl_nil]
    omega
  · have hnil : Bytes.toNatLE [] = 0 := rfl
    simp only [Bytes.toNatLE_cons, hnil, h₀', h₁', h₂', h₃', h₄']
    omega

/-- No five bytes are the shortest form of the number that they look like. -/
theorem encode_decimal_ne {data : Bytes} (h : LooksNumeric data) :
    ScriptNumber.encode (decimal (Hex.encode data).toList) ≠ data := by
  intro hencode
  have hvalue := ScriptNumber.value_encode (decimal (Hex.encode data).toList)
  have hminimal := ScriptNumber.isMinimal_encode (decimal (Hex.encode data).toList)
  rw [hencode] at hvalue hminimal
  have hlow : 2 ^ 31 ≤ decimal (Hex.encode data).toList := by
    have hlength := h.1
    have hlong := (ScriptNumber.length_le_iff (show 0 < 4 by decide) hminimal).not.mp (by omega)
    rw [hvalue] at hlong
    omega
  have hheld := (congrArg Bytes.toNatLE hencode).symm.trans (ScriptNumber.toNatLE_encode _)
  obtain ⟨a, b, c, d, e, ha, hb, hc, hd, he, hshown, hbytes⟩ := exists_shown h
  rw [hshown] at hlow hheld
  exact SameDigits.shown_ne_held ha hb hc hd he hlow (hheld.symm.trans hbytes)

theorem length_pushData_short {data : Bytes} (h : data.length < 0x4c) :
    (pushData data).length = data.length + 1 := by
  rw [pushData, if_pos h]
  rfl

theorem pushInt_cases (n : Int) :
    (pushInt n).length = 1 ∨ pushInt n = pushData (ScriptNumber.encode n) := by
  rw [pushInt]
  split
  · exact .inl rfl
  · split
    · exact .inl rfl
    · split
      · exact .inl rfl
      · exact .inr rfl

/-- Five bytes that look numeric are read as other bytes, and not as more. -/
theorem pushInt_decimal {data : Bytes} (h : LooksNumeric data) :
    (pushInt (decimal (Hex.encode data).toList)).length ≤ (pushData data).length ∧
      pushInt (decimal (Hex.encode data).toList) ≠ pushData data := by
  have hfive := h.1
  have hlength := length_pushData_short (show data.length < 0x4c by omega)
  rcases pushInt_cases (decimal (Hex.encode data).toList) with hone | hnumber
  · exact ⟨by omega, fun heq => by rw [heq] at hone; omega⟩
  · have hshort : (ScriptNumber.encode (decimal (Hex.encode data).toList)).length ≤ 5 := by
      obtain ⟨a, b, c, d, e, ha, hb, hc, hd, he, hshown, -⟩ := exists_shown h
      rw [ScriptNumber.length_le_iff (by decide) (ScriptNumber.isMinimal_encode _),
        ScriptNumber.value_encode, hshown]
      omega
    have hencoded := length_pushData_short (hshort.trans_lt (by decide))
    rw [hnumber]
    refine ⟨by omega, fun heq => encode_decimal_ne h ?_⟩
    rw [pushData, if_pos (by omega), pushData, if_pos (by omega)] at heq
    exact (List.cons.inj heq).2

/-! ## Both ways -/

theorem eq_of_flatMap_eq {α β : Type} {f g : α → List β} {list : List α}
    (hle : ∀ x ∈ list, (f x).length ≤ (g x).length) (h : list.flatMap f = list.flatMap g) :
    ∀ x ∈ list, f x = g x := by
  induction list with
  | nil => exact List.forall_mem_nil _
  | cons x list ih =>
      obtain ⟨hx, hlist⟩ := List.forall_mem_cons.mp hle
      rw [List.flatMap_cons, List.flatMap_cons] at h
      have hrest : (list.flatMap f).length ≤ (list.flatMap g).length := by
        rw [List.length_flatMap, List.length_flatMap]
        exact List.sum_le_sum hlist
      have hlength := congrArg List.length h
      rw [List.length_append, List.length_append] at hlength
      obtain ⟨hfirst, hothers⟩ := List.append_inj h (by omega)
      exact List.forall_mem_cons.mpr ⟨hfirst, ih hlist hothers⟩

theorem Legible.isValid {op : Op} (h : Legible op) : op.isValid = true := by
  cases op with
  | push opcode data | code opcode => rfl
  | invalid opcode => cases h

theorem readBack_push {opcode : UInt8} {data : Bytes} (h : LooksNumeric data) :
    readBack (.push opcode data) = pushInt (decimal (Hex.encode data).toList) :=
  if_pos h

theorem readBack_eq_encode {op : Op} (h : ¬ Misread op) : readBack op = op.encode := by
  cases op with
  | push opcode data => exact if_neg h
  | code opcode | invalid opcode => rfl

/-- What is misread is not read as more bytes, and never as the same. -/
theorem readBack_of_misread {op : Op} (h : Legible op) (hmisread : Misread op) :
    (readBack op).length ≤ op.encode.length ∧ readBack op ≠ op.encode := by
  cases op with
  | push opcode data =>
      obtain ⟨rfl, -⟩ := h
      have hpush : (Op.push (Op.pushOpcode data.length) data).encode = pushData data :=
        (pushData_eq data).symm
      rw [readBack_push hmisread, hpush]
      exact pushInt_decimal hmisread
  | code opcode | invalid opcode => cases hmisread

theorem length_readBack_le {op : Op} (h : Legible op) :
    (readBack op).length ≤ op.encode.length := by
  by_cases hmisread : Misread op
  · exact (readBack_of_misread h hmisread).1
  · rw [readBack_eq_encode hmisread]

/-- The text of a script tells the script, unless one of its pushes of five bytes looks like a
number. Such a push is read as the push of that number, and never comes out the same. -/
theorem display_read_back (s : Script) (h : ∀ op ∈ s.ops, Legible op) :
    parse s.display = .ok ⟨s.ops.flatMap readBack⟩ ∧
      (parse s.display = .ok s ↔ ∀ op ∈ s.ops, ¬ Misread op) := by
  have hread := parse_display h
  have hs := ofOps_ops fun op hop => (h op hop).isValid
  refine ⟨hread, fun hsame op hop hmisread => ?_, fun hplain => ?_⟩
  · have hscript := Except.ok.inj (hread.symm.trans hsame)
    have hbytes : s.ops.flatMap readBack = s.ops.flatMap Op.encode :=
      congrArg Script.bytes (hscript.trans hs.symm)
    have heq := eq_of_flatMap_eq (fun op hop => length_readBack_le (h op hop)) hbytes op hop
    exact (readBack_of_misread (h op hop) hmisread).2 heq
  · have hbytes : s.ops.flatMap readBack = s.ops.flatMap Op.encode :=
      List.flatMap_congr fun op hop => readBack_eq_encode (hplain op hop)
    rw [hread, hbytes]
    exact congrArg Except.ok hs

instance : DecidablePred Legible
  | .push _ _ => inferInstanceAs (Decidable (_ ∧ (_ → _ ∧ ¬ (_ ∨ _))))
  | .code _ => inferInstanceAs (Decidable (_ = true))
  | .invalid _ => inferInstanceAs (Decidable False)

instance : DecidablePred Misread
  | .push _ data => inferInstanceAs (Decidable (LooksNumeric data))
  | .code _ => inferInstanceAs (Decidable False)
  | .invalid _ => inferInstanceAs (Decidable False)

/-- A script with operations of every form: a name, small numbers, a number of two bytes, no data
and five bytes of data. -/
theorem display_read_back_mixed :
    let s : Script := ⟨[0x76, 0x4f, 0x60, 2, 0xe8, 3, 0, 5, 0x12, 0x34, 0x56, 0x78, 0xab, 0xac]⟩
    (∀ op ∈ s.ops, Legible op) ∧
      s.display = "OP_DUP -1 16 1000 0 12345678ab OP_CHECKSIG" ∧ parse s.display = .ok s := by
  intro s
  have hlegible : ∀ op ∈ s.ops, Legible op := by decide +kernel
  have hplain : ∀ op ∈ s.ops, ¬ Misread op := by decide +kernel
  exact ⟨hlegible, by decide +kernel, (display_read_back s hlegible).2.mpr hplain⟩

/-- Five bytes come back as a number of four. -/
theorem display_misread :
    let s : Script := ⟨[5, 0x12, 0x34, 0x56, 0x78, 0x90]⟩
    (∀ op ∈ s.ops, Legible op) ∧ s.display = "1234567890" ∧
      parse s.display = .ok ⟨[4, 0xd2, 0x02, 0x96, 0x49]⟩ ∧ parse s.display ≠ .ok s := by
  intro s
  have hlegible : ∀ op ∈ s.ops, Legible op := by decide +kernel
  have hread : parse s.display = .ok ⟨[4, 0xd2, 0x02, 0x96, 0x49]⟩ := by
    rw [parse_display hlegible]
    decide +kernel
  refine ⟨hlegible, by decide +kernel, hread, ?_⟩
  rw [hread]
  decide

end StakeChain.Script
