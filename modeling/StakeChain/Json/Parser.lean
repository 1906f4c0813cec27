/-
Reading JSON text.

The grammar is the strict one: no leading zeros, no trailing commas, only
the four blanks, no control characters inside text, and nothing but blanks
after the value.
-/
import StakeChain.Json

namespace StakeChain.Json

/-- The four blanks. -/
def isBlank (c : Char) : Bool :=
  c == ' ' || c == '\n' || c == '\t' || c == '\r'

/-- The text after leading blanks. -/
def skipBlanks (cs : List Char) : List Char :=
  cs.dropWhile isBlank

/-- Leading decimal digits and the text after them. -/
def digits (cs : List Char) : List Char × List Char :=
  (cs.takeWhile Char.isDigit, cs.dropWhile Char.isDigit)

/-- A fraction: a point and at least one digit, or nothing where there is no point. -/
def scanFraction : List Char → Option (List Char × List Char)
  | '.' :: rest =>
      match digits rest with
      | ([], _) => none
      | (ds, rest) => some ('.' :: ds, rest)
  | rest => some ([], rest)

/-- The digits of an exponent after its letter and sign. -/
def scanExponentDigits (lead rest : List Char) : Option (List Char × List Char) :=
  match digits rest with
  | ([], _) => none
  | (ds, rest) => some (lead ++ ds, rest)

/-- An exponent: a letter, a sign or none, and at least one digit; or nothing. -/
def scanExponent : List Char → Option (List Char × List Char)
  | e :: rest =>
      if e = 'e' ∨ e = 'E' then
        match rest with
        | '+' :: rest => scanExponentDigits [e, '+'] rest
        | '-' :: rest => scanExponentDigits [e, '-'] rest
        | rest => scanExponentDigits [e] rest
      else some ([], e :: rest)
  | [] => some ([], [])

/-- The number that decimal digits stand for. -/
def natOfDigits (ds : List Char) : Nat :=
  ds.foldl (fun n c => 10 * n + (c.toNat - 48)) 0

/-- A number without its sign. -/
def scanUnsigned (negative : Bool) (cs : List Char) : Option (Json × List Char) := do
  let (whole, rest) := digits cs
  match whole with
  | [] => none
  | '0' :: _ :: _ => none
  | _ =>
      let (fraction, rest) ← scanFraction rest
      let (exponent, rest) ← scanExponent rest
      let n := natOfDigits whole
      if fraction.isEmpty && exponent.isEmpty && !(negative && n == 0) then
        some (int (if negative then -n else n), rest)
      else
        let sign := if negative then ['-'] else []
        some (real (sign ++ whole ++ fraction ++ exponent), rest)

/-- A number. -/
def scanNumber : List Char → Option (Json × List Char)
  | '-' :: rest => scanUnsigned true rest
  | cs => scanUnsigned false cs

/-- A literal up to its closing quote, which is dropped. -/
def scanLiteral (acc : List Char) : List Char → Option (List Char × List Char)
  | [] => none
  | '"' :: rest => some (acc.reverse, rest)
  | '\\' :: 'u' :: a :: b :: c :: d :: rest =>
      if (codeUnit a b c d).isSome then
        scanLiteral (d :: c :: b :: a :: 'u' :: '\\' :: acc) rest
      else none
  | '\\' :: c :: rest =>
      if (escaped c).isSome then scanLiteral (c :: '\\' :: acc) rest else none
  | c :: rest => if c.toNat < 0x20 then none else scanLiteral (c :: acc) rest

/-- What a parser still has to read. -/
inductive Goal where
  | value
  /-- Items of an array, `first` when none was read. -/
  | items (first : Bool) (acc : List Json)
  /-- Members of an object, `first` when none was read. -/
  | members (first : Bool) (acc : List (List Char × Json))

/-- A keyword and the text after it. -/
def keyword (word : List Char) (value : Json) (cs : List Char) : Option (Json × List Char) :=
  if cs.take word.length = word then some (value, cs.drop word.length) else none

/-- Reads what the goal asks for; the fuel bounds the number of goals. -/
def parseGoal : (fuel : Nat) → Goal → List Char → Option (Json × List Char)
  | 0, _, _ => none
  | fuel + 1, .value, cs =>
      match skipBlanks cs with
      | '[' :: rest => parseGoal fuel (.items true []) rest
      | '\x7b' :: rest => parseGoal fuel (.members true []) rest
      | '"' :: rest => (scanLiteral [] rest).map fun (l, rest) => (text l, rest)
      | 'n' :: rest => keyword ['u', 'l', 'l'] null rest
      | 't' :: rest => keyword ['r', 'u', 'e'] (bool true) rest
      | 'f' :: rest => keyword ['a', 'l', 's', 'e'] (bool false) rest
      | rest => scanNumber rest
  | fuel + 1, .items first acc, cs =>
      match skipBlanks cs with
      | ']' :: rest => some (arr acc.reverse, rest)
      | ',' :: rest =>
          if first then none
          else
            match skipBlanks rest with
            | ']' :: _ => none
            | rest => do
                let (v, rest) ← parseGoal fuel .value rest
                parseGoal fuel (.items false (v :: acc)) rest
      | rest =>
          if first then do
            let (v, rest) ← parseGoal fuel .value rest
            parseGoal fuel (.items false (v :: acc)) rest
          else none
  | fuel + 1, .members first acc, cs =>
      match skipBlanks cs with
      | '\x7d' :: rest => some (obj acc.reverse, rest)
      | rest => do
          let rest ← match rest with
            | ',' :: rest => if first then none else some (skipBlanks rest)
            | rest => if first then some rest else none
          match rest with
          | '"' :: rest => do
              let (key, rest) ← scanLiteral [] rest
              match skipBlanks rest with
              | ':' :: rest => do
                  let (v, rest) ← parseGoal fuel .value rest
                  parseGoal fuel (.members false ((key, v) :: acc)) rest
              | _ => none
          | _ => none

/-- The value written in a text, if the whole text is one. -/
def parse (s : String) : Option Json := do
  let cs := s.toList
  let (v, rest) ← parseGoal (cs.length + 1) .value cs
  if (skipBlanks rest).isEmpty then some v else none

end StakeChain.Json
