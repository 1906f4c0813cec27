/-
Reports about scripts.
-/
import StakeChain.Eval.Machine
import StakeChain.Hash.Compose
import StakeChain.Readable.Ledger
import StakeChain.Report
import StakeChain.Script.Template
import StakeChain.Script.Text

namespace StakeChain

/-- An operation in its place. -/
instance : Reported (Nat × Op) where
  report o := (Json.ofFields [("at", shown o.1)]).extend o.2.fields

namespace Opcode

/-- What is known of an opcode by itself. -/
def describe (opcode : UInt8) : Json :=
  Json.ofFields
    [("name", shown (name? opcode)), ("disabled", shown (isDisabled opcode)),
     ("small_int", shown (smallInt? opcode))]

end Opcode

namespace Script

/-- What a script looks like as a sequence of operations. -/
def describeShape (s : Script) : List (String × Json) :=
  [("ops", report s.opsWithOffsets), ("text", shown s.display),
   ("debug", shown ("Script(" ++ s.display ++ ")")), ("push_only", shown s.isPushOnly),
   ("valid", shown s.isValid), ("last_push", shown (s.lastPush?.map Raw.mk)),
   ("sig_ops", shown (s.sigOpCount false)), ("sig_ops_accurate", shown (s.sigOpCount true))]

/-- What a script is as a lock. -/
def describeLock (s : Script) : List (String × Json) :=
  let program (w : Nat × Bytes) : Json :=
    Json.ofFields [("version", shown w.1), ("program", w.2.shownHex)]
  let destination (d : Destination) : Json :=
    Json.ofFields [("kind", shown d.kindName), ("hash", d.bytes.shownHex)]
  let multisig (m : Nat × List Bytes) : Json :=
    Json.ofFields [("required", shown m.1), ("keys", shown (m.2.map Raw.mk))]
  let keys (k : Hash160 × Hash160) : Json :=
    .arr [k.1.bytes.shownHex, k.2.bytes.shownHex]
  [("unspendable", shown s.isUnspendable), ("p2sh", shown s.isScriptHash),
   ("witness_program", shown (s.witnessProgram?.map program)),
   ("hash160", (hash160 s.bytes).bytes.shownHex), ("sha256", (sha256 s.bytes).bytes.shownHex),
   ("type", shown s.classify.label), ("destination", shown (s.destination?.map destination)),
   ("pubkey", shown (s.pubKey?.map Raw.mk)), ("multisig", shown (s.multisig?.map multisig)),
   ("cold_staking", shown (s.coldStaking?.map keys))]

end Script

instance : Reported Script where
  report s := Json.ofFields (s.describeShape ++ s.describeLock)

namespace Eval.Event

/-- A question that a checker was asked; other events have no report. -/
def question? : Eval.Event → Option Json
  | signature sig key code version accepted =>
      some (Json.ofFields
        [("sig", sig.shownHex), ("pubkey", key.shownHex), ("script_code", shown code),
         ("version", shown version), ("result", shown accepted)])
  | lockTime n => some (Json.ofFields [("lock_time", shown n)])
  | sequence n => some (Json.ofFields [("sequence", shown n)])
  | coldStake b => some (Json.ofFields [("cold_stake", shown b)])
  | branch _ => none
  | codeSeparator => none

/-- The questions of a trace, first one first; a trace has its latest event first. -/
def questions (trace : List Eval.Event) : List Json :=
  trace.reverse.filterMap question?

end Eval.Event

end StakeChain
