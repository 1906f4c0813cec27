/-
Verification flags.

Each flag turns on one rule of its own. A larger set of flags accepts fewer
scripts, apart from the upgradable operations, which a flag can give a
meaning before or after they are discouraged.
-/

namespace StakeChain

/-- Which rules are in force. -/
structure Flags where
  /-- Scripts behind script hashes are run. -/
  p2sh : Bool
  /-- Signatures and keys have to be strictly encoded. -/
  strictEncoding : Bool
  /-- Signatures have to be strict DER. -/
  derSignatures : Bool
  /-- The second number of a signature has to be low. -/
  lowS : Bool
  /-- The extra argument of a multisig check has to be empty. -/
  nullDummy : Bool
  /-- Spending scripts may only push. -/
  sigPushOnly : Bool
  /-- Pushes and numbers have to be in their shortest form. -/
  minimalData : Bool
  /-- Operations kept for upgrades may not be used. -/
  discourageUpgradableNops : Bool
  /-- One item has to be left, no more. -/
  cleanStack : Bool
  /-- Absolute lock times can be demanded. -/
  checkLockTimeVerify : Bool
  /-- Relative lock times can be demanded. -/
  checkSequenceVerify : Bool
  /-- Witness programs are run. -/
  witness : Bool
  /-- Witness versions kept for upgrades may not be used. -/
  discourageUpgradableWitnessProgram : Bool
  /-- Conditions in witness scripts have to be in their shortest form. -/
  minimalIf : Bool
  /-- Signatures that do not verify have to be empty. -/
  nullFail : Bool
  /-- Keys in witness scripts have to be compressed. -/
  witnessPubkeyType : Bool
  /-- A coinstake can be demanded. -/
  checkColdStakeVerify : Bool
deriving DecidableEq, Repr

namespace Flags

/-- No rule. -/
def none : Flags :=
  ⟨false, false, false, false, false, false, false, false, false, false, false, false, false,
    false, false, false, false⟩

/-- The flags as bits, the lowest first. -/
def toBits (f : Flags) : List Bool :=
  [f.p2sh, f.strictEncoding, f.derSignatures, f.lowS, f.nullDummy, f.sigPushOnly,
    f.minimalData, f.discourageUpgradableNops, f.cleanStack, f.checkLockTimeVerify,
    f.checkSequenceVerify, f.witness, f.discourageUpgradableWitnessProgram, f.minimalIf,
    f.nullFail, f.witnessPubkeyType, f.checkColdStakeVerify]

/-- The number with these bits. -/
def toNat (f : Flags) : Nat :=
  f.toBits.foldr (fun b acc => b.toNat + 2 * acc) 0

/-- The rules of either set. -/
def union (f g : Flags) : Flags where
  p2sh := f.p2sh || g.p2sh
  strictEncoding := f.strictEncoding || g.strictEncoding
  derSignatures := f.derSignatures || g.derSignatures
  lowS := f.lowS || g.lowS
  nullDummy := f.nullDummy || g.nullDummy
  sigPushOnly := f.sigPushOnly || g.sigPushOnly
  minimalData := f.minimalData || g.minimalData
  discourageUpgradableNops := f.discourageUpgradableNops || g.discourageUpgradableNops
  cleanStack := f.cleanStack || g.cleanStack
  checkLockTimeVerify := f.checkLockTimeVerify || g.checkLockTimeVerify
  checkSequenceVerify := f.checkSequenceVerify || g.checkSequenceVerify
  witness := f.witness || g.witness
  discourageUpgradableWitnessProgram :=
    f.discourageUpgradableWitnessProgram || g.discourageUpgradableWitnessProgram
  minimalIf := f.minimalIf || g.minimalIf
  nullFail := f.nullFail || g.nullFail
  witnessPubkeyType := f.witnessPubkeyType || g.witnessPubkeyType
  checkColdStakeVerify := f.checkColdStakeVerify || g.checkColdStakeVerify

/-- What every block enforces. -/
def mandatory : Flags :=
  { none with p2sh := true }

/-- What is asked of relayed transactions. -/
def standard : Flags where
  p2sh := true
  strictEncoding := true
  derSignatures := true
  lowS := true
  nullDummy := true
  sigPushOnly := false
  minimalData := true
  discourageUpgradableNops := true
  cleanStack := true
  checkLockTimeVerify := true
  checkSequenceVerify := true
  witness := true
  discourageUpgradableWitnessProgram := true
  minimalIf := true
  nullFail := true
  witnessPubkeyType := true
  checkColdStakeVerify := false

/-- What is asked of relayed transactions, but not of blocks. -/
def standardNotMandatory : Flags :=
  { standard with p2sh := false }

/-- Flags and sets of flags by name. -/
def byName : List (String × Flags) :=
  [("P2SH", { none with p2sh := true }),
   ("STRICTENC", { none with strictEncoding := true }),
   ("DERSIG", { none with derSignatures := true }),
   ("LOW_S", { none with lowS := true }),
   ("NULLDUMMY", { none with nullDummy := true }),
   ("SIGPUSHONLY", { none with sigPushOnly := true }),
   ("MINIMALDATA", { none with minimalData := true }),
   ("DISCOURAGE_UPGRADABLE_NOPS", { none with discourageUpgradableNops := true }),
   ("CLEANSTACK", { none with cleanStack := true }),
   ("CHECKLOCKTIMEVERIFY", { none with checkLockTimeVerify := true }),
   ("CHECKSEQUENCEVERIFY", { none with checkSequenceVerify := true }),
   ("WITNESS", { none with witness := true }),
   ("DISCOURAGE_UPGRADABLE_WITNESS_PROGRAM",
    { none with discourageUpgradableWitnessProgram := true }),
   ("MINIMALIF", { none with minimalIf := true }),
   ("NULLFAIL", { none with nullFail := true }),
   ("WITNESS_PUBKEYTYPE", { none with witnessPubkeyType := true }),
   ("CHECKCOLDSTAKEVERIFY", { none with checkColdStakeVerify := true }),
   ("MANDATORY", mandatory),
   ("STANDARD", standard),
   ("STANDARD_NOT_MANDATORY", standardNotMandatory)]

/-- The flags of a name. -/
def ofName? (name : String) : Option Flags :=
  (byName.find? fun e => e.1 == name).map (·.2)

end Flags

end StakeChain
