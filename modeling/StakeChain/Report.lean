/-
Reports.

A report is the JSON that tools show about an outcome or a value. Other
than a readable form it is not read back, so it may hold what follows from
the value beside the value itself. A failure is reported by the name of its
kind and a text.
-/
import StakeChain.Key.Extended
import StakeChain.Readable
import StakeChain.Rejection
import StakeChain.Script.Text

namespace StakeChain

/-- Types with a report. -/
class Reported (α : Type) where
  report : α → Json

export Reported (report)

namespace Json

/-- A failure: its kind and what is said about it. -/
def failure (kind message : String) : Json :=
  ofFields [("error", ofString kind), ("message", ofString message)]

/-- A failure of which nothing but the kind is said. -/
def bareFailure (kind : String) : Json :=
  ofFields [("error", ofString kind)]

/-- Adds members to an object. -/
def extend (j : Json) (fields : List (String × Json)) : Json :=
  match j, ofFields fields with
  | obj a, obj b => obj (a ++ b)
  | j, _ => j

end Json

/-! ## Failures -/

instance : Reported Fault where
  report _ := Json.bareFailure "panic"

instance : Reported ConsensusError where
  report e := Json.failure e.code e.message

instance : Reported Rejection where
  report
    | .consensus e => report e
    | .cancelled => Json.failure "Cancelled" Rejection.cancelledMessage
    | .fault f => report f

instance : Reported ScriptError where
  report e := Json.failure e.name e.message

instance : Reported Halt where
  report
    | .error e => report e
    | .fault f => report f

instance : Reported Codec.Error where
  report e := Json.failure e.name e.message

instance : Reported Key.Error where
  report e := Json.failure e.name e.message

instance : Reported Script.ParseError where
  report e := Json.failure "ScriptParseError" e.message

instance : Reported Unreadable where
  report
    | .shape what => Json.failure "bad_input" what
    | .codec e => report e
    | .params => Json.bareFailure "Json"

/-! ## Outcomes -/

/-- Nothing went wrong. -/
instance : Reported Unit where
  report _ := Json.ofFields [("ok", .bool true)]

instance {ε α : Type} [Reported ε] [Reported α] : Reported (Except ε α) where
  report
    | .ok a => report a
    | .error e => report e

instance {α : Type} [Reported α] : Reported (List α) where
  report as := .arr (as.map report)

end StakeChain
