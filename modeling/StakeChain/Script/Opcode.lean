/-
The operations of scripts, by byte.

Bytes up to `0x4e` push data, the bytes around `0x50` push small numbers,
and the rest act on the stack. Each operation has one shown name; a few
have further names that are understood when text is read.
-/

namespace StakeChain.Opcode

/-- Pushes the empty byte string; also the number zero. -/
abbrev op0 : UInt8 := 0x00
/-- Push with a length of one byte. -/
abbrev pushData1 : UInt8 := 0x4c
/-- Push with a length of two bytes. -/
abbrev pushData2 : UInt8 := 0x4d
/-- Push with a length of four bytes. -/
abbrev pushData4 : UInt8 := 0x4e
/-- Pushes minus one. -/
abbrev negative1 : UInt8 := 0x4f
abbrev reserved : UInt8 := 0x50
abbrev op1 : UInt8 := 0x51
abbrev op2 : UInt8 := 0x52
abbrev op3 : UInt8 := 0x53
abbrev op4 : UInt8 := 0x54
abbrev op5 : UInt8 := 0x55
abbrev op6 : UInt8 := 0x56
abbrev op7 : UInt8 := 0x57
abbrev op8 : UInt8 := 0x58
abbrev op9 : UInt8 := 0x59
abbrev op10 : UInt8 := 0x5a
abbrev op11 : UInt8 := 0x5b
abbrev op12 : UInt8 := 0x5c
abbrev op13 : UInt8 := 0x5d
abbrev op14 : UInt8 := 0x5e
abbrev op15 : UInt8 := 0x5f
abbrev op16 : UInt8 := 0x60
abbrev nop : UInt8 := 0x61
abbrev ver : UInt8 := 0x62
abbrev ifTrue : UInt8 := 0x63
abbrev ifFalse : UInt8 := 0x64
abbrev verIf : UInt8 := 0x65
abbrev verNotIf : UInt8 := 0x66
abbrev otherwise : UInt8 := 0x67
abbrev endIf : UInt8 := 0x68
abbrev verify : UInt8 := 0x69
abbrev halt : UInt8 := 0x6a
abbrev toAltStack : UInt8 := 0x6b
abbrev fromAltStack : UInt8 := 0x6c
abbrev drop2 : UInt8 := 0x6d
abbrev dup2 : UInt8 := 0x6e
abbrev dup3 : UInt8 := 0x6f
abbrev over2 : UInt8 := 0x70
abbrev rot2 : UInt8 := 0x71
abbrev swap2 : UInt8 := 0x72
abbrev ifDup : UInt8 := 0x73
abbrev depth : UInt8 := 0x74
abbrev drop : UInt8 := 0x75
abbrev dup : UInt8 := 0x76
abbrev nip : UInt8 := 0x77
abbrev over1 : UInt8 := 0x78
abbrev pick : UInt8 := 0x79
abbrev roll : UInt8 := 0x7a
abbrev rot : UInt8 := 0x7b
abbrev swap : UInt8 := 0x7c
abbrev tuck : UInt8 := 0x7d
abbrev cat : UInt8 := 0x7e
abbrev substr : UInt8 := 0x7f
abbrev left : UInt8 := 0x80
abbrev right : UInt8 := 0x81
abbrev size : UInt8 := 0x82
abbrev invert : UInt8 := 0x83
abbrev bitAnd : UInt8 := 0x84
abbrev bitOr : UInt8 := 0x85
abbrev bitXor : UInt8 := 0x86
abbrev equal : UInt8 := 0x87
abbrev equalVerify : UInt8 := 0x88
abbrev reserved1 : UInt8 := 0x89
abbrev reserved2 : UInt8 := 0x8a
abbrev add1 : UInt8 := 0x8b
abbrev sub1 : UInt8 := 0x8c
abbrev mul2 : UInt8 := 0x8d
abbrev div2 : UInt8 := 0x8e
abbrev negate : UInt8 := 0x8f
abbrev abs : UInt8 := 0x90
abbrev isZero : UInt8 := 0x91
abbrev isNonzero : UInt8 := 0x92
abbrev add : UInt8 := 0x93
abbrev sub : UInt8 := 0x94
abbrev mul : UInt8 := 0x95
abbrev div : UInt8 := 0x96
abbrev mod : UInt8 := 0x97
abbrev shiftLeft : UInt8 := 0x98
abbrev shiftRight : UInt8 := 0x99
abbrev boolAnd : UInt8 := 0x9a
abbrev boolOr : UInt8 := 0x9b
abbrev numEqual : UInt8 := 0x9c
abbrev numEqualVerify : UInt8 := 0x9d
abbrev numNotEqual : UInt8 := 0x9e
abbrev lessThan : UInt8 := 0x9f
abbrev greaterThan : UInt8 := 0xa0
abbrev lessOrEqual : UInt8 := 0xa1
abbrev greaterOrEqual : UInt8 := 0xa2
abbrev min : UInt8 := 0xa3
abbrev max : UInt8 := 0xa4
abbrev within : UInt8 := 0xa5
abbrev ripemd160 : UInt8 := 0xa6
abbrev sha1 : UInt8 := 0xa7
abbrev sha256 : UInt8 := 0xa8
abbrev hash160 : UInt8 := 0xa9
abbrev hash256 : UInt8 := 0xaa
abbrev codeSeparator : UInt8 := 0xab
abbrev checkSig : UInt8 := 0xac
abbrev checkSigVerify : UInt8 := 0xad
abbrev checkMultisig : UInt8 := 0xae
abbrev checkMultisigVerify : UInt8 := 0xaf
abbrev nop1 : UInt8 := 0xb0
abbrev checkLockTimeVerify : UInt8 := 0xb1
abbrev checkSequenceVerify : UInt8 := 0xb2
abbrev nop4 : UInt8 := 0xb3
abbrev nop5 : UInt8 := 0xb4
abbrev nop6 : UInt8 := 0xb5
abbrev nop7 : UInt8 := 0xb6
abbrev nop8 : UInt8 := 0xb7
abbrev nop9 : UInt8 := 0xb8
/-- Also the check that the spending transaction is a coinstake. -/
abbrev nop10 : UInt8 := 0xb9
/-- The check that the spending transaction is a coinstake. -/
abbrev checkColdStakeVerify : UInt8 := nop10
/-- Stands for no operation at all. -/
abbrev unassigned : UInt8 := 0xff

/-- The shown name of each assigned byte. -/
def names : List (UInt8 × String) :=
  [(op0, "OP_0"),
   (pushData1, "OP_PUSHDATA1"),
   (pushData2, "OP_PUSHDATA2"),
   (pushData4, "OP_PUSHDATA4"),
   (negative1, "OP_1NEGATE"),
   (reserved, "OP_RESERVED"),
   (op1, "OP_1"),
   (op2, "OP_2"),
   (op3, "OP_3"),
   (op4, "OP_4"),
   (op5, "OP_5"),
   (op6, "OP_6"),
   (op7, "OP_7"),
   (op8, "OP_8"),
   (op9, "OP_9"),
   (op10, "OP_10"),
   (op11, "OP_11"),
   (op12, "OP_12"),
   (op13, "OP_13"),
   (op14, "OP_14"),
   (op15, "OP_15"),
   (op16, "OP_16"),
   (nop, "OP_NOP"),
   (ver, "OP_VER"),
   (ifTrue, "OP_IF"),
   (ifFalse, "OP_NOTIF"),
   (verIf, "OP_VERIF"),
   (verNotIf, "OP_VERNOTIF"),
   (otherwise, "OP_ELSE"),
   (endIf, "OP_ENDIF"),
   (verify, "OP_VERIFY"),
   (halt, "OP_RETURN"),
   (toAltStack, "OP_TOALTSTACK"),
   (fromAltStack, "OP_FROMALTSTACK"),
   (drop2, "OP_2DROP"),
   (dup2, "OP_2DUP"),
   (dup3, "OP_3DUP"),
   (over2, "OP_2OVER"),
   (rot2, "OP_2ROT"),
   (swap2, "OP_2SWAP"),
   (ifDup, "OP_IFDUP"),
   (depth, "OP_DEPTH"),
   (drop, "OP_DROP"),
   (dup, "OP_DUP"),
   (nip, "OP_NIP"),
   (over1, "OP_OVER"),
   (pick, "OP_PICK"),
   (roll, "OP_ROLL"),
   (rot, "OP_ROT"),
   (swap, "OP_SWAP"),
   (tuck, "OP_TUCK"),
   (cat, "OP_CAT"),
   (substr, "OP_SUBSTR"),
   (left, "OP_LEFT"),
   (right, "OP_RIGHT"),
   (size, "OP_SIZE"),
   (invert, "OP_INVERT"),
   (bitAnd, "OP_AND"),
   (bitOr, "OP_OR"),
   (bitXor, "OP_XOR"),
   (equal, "OP_EQUAL"),
   (equalVerify, "OP_EQUALVERIFY"),
   (reserved1, "OP_RESERVED1"),
   (reserved2, "OP_RESERVED2"),
   (add1, "OP_1ADD"),
   (sub1, "OP_1SUB"),
   (mul2, "OP_2MUL"),
   (div2, "OP_2DIV"),
   (negate, "OP_NEGATE"),
   (abs, "OP_ABS"),
   (isZero, "OP_NOT"),
   (isNonzero, "OP_0NOTEQUAL"),
   (add, "OP_ADD"),
   (sub, "OP_SUB"),
   (mul, "OP_MUL"),
   (div, "OP_DIV"),
   (mod, "OP_MOD"),
   (shiftLeft, "OP_LSHIFT"),
   (shiftRight, "OP_RSHIFT"),
   (boolAnd, "OP_BOOLAND"),
   (boolOr, "OP_BOOLOR"),
   (numEqual, "OP_NUMEQUAL"),
   (numEqualVerify, "OP_NUMEQUALVERIFY"),
   (numNotEqual, "OP_NUMNOTEQUAL"),
   (lessThan, "OP_LESSTHAN"),
   (greaterThan, "OP_GREATERTHAN"),
   (lessOrEqual, "OP_LESSTHANOREQUAL"),
   (greaterOrEqual, "OP_GREATERTHANOREQUAL"),
   (min, "OP_MIN"),
   (max, "OP_MAX"),
   (within, "OP_WITHIN"),
   (ripemd160, "OP_RIPEMD160"),
   (sha1, "OP_SHA1"),
   (sha256, "OP_SHA256"),
   (hash160, "OP_HASH160"),
   (hash256, "OP_HASH256"),
   (codeSeparator, "OP_CODESEPARATOR"),
   (checkSig, "OP_CHECKSIG"),
   (checkSigVerify, "OP_CHECKSIGVERIFY"),
   (checkMultisig, "OP_CHECKMULTISIG"),
   (checkMultisigVerify, "OP_CHECKMULTISIGVERIFY"),
   (nop1, "OP_NOP1"),
   (checkLockTimeVerify, "OP_CHECKLOCKTIMEVERIFY"),
   (checkSequenceVerify, "OP_CHECKSEQUENCEVERIFY"),
   (nop4, "OP_NOP4"),
   (nop5, "OP_NOP5"),
   (nop6, "OP_NOP6"),
   (nop7, "OP_NOP7"),
   (nop8, "OP_NOP8"),
   (nop9, "OP_NOP9"),
   (nop10, "OP_NOP10"),
   (unassigned, "OP_INVALIDOPCODE")]

/-- Further names. -/
def aliases : List (String × UInt8) :=
  [("OP_FALSE", op0),
   ("OP_TRUE", op1),
   ("OP_NOP2", checkLockTimeVerify),
   ("OP_NOP3", checkSequenceVerify),
   ("OP_CHECKCOLDSTAKEVERIFY", checkColdStakeVerify)]

/-- The shown name of a byte. -/
def name? (opcode : UInt8) : Option String :=
  (names.find? fun e => e.1 == opcode).map (·.2)

/-- The byte of a name. Case does not matter, and the leading `OP_` may be left out. -/
def ofName? (name : String) : Option UInt8 :=
  let upper := name.map Char.toUpper
  let full := if upper.startsWith "OP_" then upper else "OP_" ++ upper
  match names.find? fun e => e.2 == full with
  | some e => some e.1
  | none => (aliases.find? fun e => e.1 == full).map (·.2)

/-- The number from zero to sixteen that a byte pushes. -/
def smallInt? (opcode : UInt8) : Option Nat :=
  if opcode = op0 then some 0
  else if op1 ≤ opcode ∧ opcode ≤ op16 then some (opcode.toNat - 0x50)
  else none

/-- The byte that pushes a number from zero to sixteen. -/
def ofSmallInt (n : Nat) : UInt8 :=
  if n = 0 then op0 else UInt8.ofNat (0x50 + n)

/-- Operations that fail a script wherever they stand. -/
def disabled : List UInt8 :=
  [cat, substr, left, right, invert, bitAnd, bitOr, bitXor, mul2, div2, mul, div, mod,
   shiftLeft, shiftRight]

/-- Whether an operation fails a script wherever it stands. -/
def isDisabled (opcode : UInt8) : Bool :=
  disabled.contains opcode

end StakeChain.Opcode
