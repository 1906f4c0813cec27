/-
Writing JSON text, on one line or indented by two blanks a level.
-/
import StakeChain.Json

namespace StakeChain.Json

/-- A literal between quotes. -/
def quote (literal : List Char) : String :=
  "\"" ++ String.ofList literal ++ "\""

mutual

/-- Writes the value behind some text, on one line and without blanks. Handing the text along
keeps the work proportional to what is written. -/
def compactOnto (out : String) : Json → String
  | null => out ++ "null"
  | bool b => out ++ if b then "true" else "false"
  | int n => out ++ toString n
  | real l => out ++ String.ofList l
  | text l => out ++ quote l
  | arr items => compactItems (out ++ "[") items ++ "]"
  | obj members => compactMembers (out ++ "\x7b") members ++ "\x7d"

@[inherit_doc compactOnto] def compactItems (out : String) : List Json → String
  | [] => out
  | [j] => compactOnto out j
  | j :: k :: rest => compactItems (compactOnto out j ++ ",") (k :: rest)

@[inherit_doc compactOnto] def compactMembers (out : String) : List (List Char × Json) → String
  | [] => out
  | [(k, v)] => compactOnto (out ++ quote k ++ ":") v
  | (k, v) :: m :: rest =>
      compactMembers (compactOnto (out ++ quote k ++ ":") v ++ ",") (m :: rest)

end

/-- The value on one line, without blanks. -/
def compact (j : Json) : String :=
  compactOnto "" j

/-- The start of a line at some depth. -/
def indent (depth : Nat) : String :=
  "\n" ++ String.ofList (List.replicate (2 * depth) ' ')

mutual

/-- The value with every item and member of a container on a line of its own. -/
def pretty (depth : Nat) : Json → String
  | arr [] => "[]"
  | arr (j :: rest) =>
      "[" ++ indent (depth + 1) ++ pretty (depth + 1) j ++ prettyItems (depth + 1) rest
        ++ indent depth ++ "]"
  | obj [] => "\x7b\x7d"
  | obj ((k, v) :: rest) =>
      "\x7b" ++ indent (depth + 1) ++ quote k ++ ": " ++ pretty (depth + 1) v
        ++ prettyMembers (depth + 1) rest ++ indent depth ++ "\x7d"
  | j => compact j

@[inherit_doc pretty] def prettyItems (depth : Nat) : List Json → String
  | [] => ""
  | j :: rest => "," ++ indent depth ++ pretty depth j ++ prettyItems depth rest

@[inherit_doc pretty] def prettyMembers (depth : Nat) : List (List Char × Json) → String
  | [] => ""
  | (k, v) :: rest =>
      "," ++ indent depth ++ quote k ++ ": " ++ pretty depth v ++ prettyMembers depth rest

end

end StakeChain.Json
