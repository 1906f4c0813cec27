/-
JSON values.

A value keeps what was written where readers differ on it: text keeps its
escapes until somebody asks for the characters, members of an object keep
their order and their repetitions, and a number is an integer only when it
was written as one.
-/

namespace StakeChain

/-- A JSON value. -/
inductive Json where
  | null
  | bool (b : Bool)
  /-- A number written without fraction and exponent, other than negative zero. -/
  | int (n : Int)
  /-- Any other number, as written. -/
  | real (literal : List Char)
  /-- Text, as written between the quotes. -/
  | text (literal : List Char)
  | arr (items : List Json)
  | obj (members : List (List Char × Json))

namespace Json

/-- The value of a hexadecimal digit. -/
def hexValue (c : Char) : Option Nat :=
  if '0' ≤ c ∧ c ≤ '9' then some (c.toNat - 48)
  else if 'a' ≤ c ∧ c ≤ 'f' then some (c.toNat - 87)
  else if 'A' ≤ c ∧ c ≤ 'F' then some (c.toNat - 55)
  else none

/-- The code unit that four digits stand for. -/
def codeUnit (a b c d : Char) : Option Nat := do
  let a ← hexValue a
  let b ← hexValue b
  let c ← hexValue c
  let d ← hexValue d
  pure (((a * 16 + b) * 16 + c) * 16 + d)

/-- The character named by one letter after a backslash. -/
def escaped : Char → Option Char
  | '"' => some '"'
  | '\\' => some '\\'
  | '/' => some '/'
  | 'b' => some '\x08'
  | 'f' => some '\x0c'
  | 'n' => some '\n'
  | 'r' => some '\r'
  | 't' => some '\t'
  | _ => none

/-- Whether a code unit is the first, respectively the second half of a pair. -/
def isHighHalf (u : Nat) : Bool := 0xd800 ≤ u && u < 0xdc00

@[inherit_doc isHighHalf] def isLowHalf (u : Nat) : Bool := 0xdc00 ≤ u && u < 0xe000

/-- The characters a literal stands for. A half of a pair without its partner stands for none. -/
def unescapeFrom (acc : List Char) : (fuel : Nat) → List Char → Option (List Char)
  | 0, _ => none
  | _ + 1, [] => some acc.reverse
  | fuel + 1, '\\' :: 'u' :: a :: b :: c :: d :: rest => do
      let u ← codeUnit a b c d
      if isLowHalf u then none
      else if isHighHalf u then
        match rest with
        | '\\' :: 'u' :: a' :: b' :: c' :: d' :: rest' => do
            let v ← codeUnit a' b' c' d'
            if isLowHalf v then
              let c := Char.ofNat (0x10000 + (u - 0xd800) * 0x400 + (v - 0xdc00))
              unescapeFrom (c :: acc) fuel rest'
            else none
        | _ => none
      else unescapeFrom (Char.ofNat u :: acc) fuel rest
  | fuel + 1, '\\' :: c :: rest => do
      let c ← escaped c
      unescapeFrom (c :: acc) fuel rest
  | fuel + 1, c :: rest => unescapeFrom (c :: acc) fuel rest

/-- The text a literal stands for. -/
def unescape (literal : List Char) : Option String :=
  (unescapeFrom [] (literal.length + 1) literal).map String.ofList

/-- The literal of one character. -/
def escapeChar (c : Char) : List Char :=
  if c = '"' then ['\\', '"']
  else if c = '\\' then ['\\', '\\']
  else if c = '\x08' then ['\\', 'b']
  else if c = '\x0c' then ['\\', 'f']
  else if c = '\n' then ['\\', 'n']
  else if c = '\r' then ['\\', 'r']
  else if c = '\t' then ['\\', 't']
  else if c.toNat < 0x20 then
    ['\\', 'u', '0', '0', Nat.digitChar (c.toNat / 16), Nat.digitChar (c.toNat % 16)]
  else [c]

/-- The literal of a text. -/
def escape (s : String) : List Char :=
  s.toList.flatMap escapeChar

/-- A text as a value. -/
def ofString (s : String) : Json :=
  text (escape s)

/-- A natural number as a value. -/
def ofNat (n : Nat) : Json :=
  int (Int.ofNat n)

/-- An object from named values. -/
def ofFields (fields : List (String × Json)) : Json :=
  obj (fields.map fun f => (escape f.1, f.2))

/-- The value of the last member of that name, nothing for other values. -/
def get? (j : Json) (name : String) : Option Json :=
  match j with
  | obj members => (members.reverse.find? fun m => unescape m.1 == some name).map (·.2)
  | _ => none

end Json

end StakeChain
