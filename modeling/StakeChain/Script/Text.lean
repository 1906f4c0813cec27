/-
The text form of scripts.

Operations are shown by name, pushes of up to four bytes as the number
they stand for, and longer pushes in hexadecimal. Reading splits at
blanks; each token is a number, raw bytes after `0x`, quoted text, the
name of an operation, or the hexadecimal form of data to push.
-/
import StakeChain.Bytes.Hex
import StakeChain.Script.Number

namespace StakeChain.Script

/-- The hexadecimal form of a byte, two digits after `0x`. -/
def showByte (b : UInt8) : String :=
  "0x" ++ Hex.encode [b]

/-- The text of one operation. -/
def showOp : Op → String
  | .push _ data =>
      if data.length ≤ 4 then toString (ScriptNumber.value data) else Hex.encode data
  | .code opcode =>
      if opcode = Opcode.negative1 then "-1"
      else if Opcode.op1 ≤ opcode ∧ opcode ≤ Opcode.op16 then toString (opcode.toNat - 0x50)
      else
        match Opcode.name? opcode with
        | some name => name
        | none => "OP_UNKNOWN_" ++ showByte opcode
  | .invalid _ => "[error]"

/-- The text of a script. -/
def display (s : Script) : String :=
  String.intercalate " " (s.ops.map showOp)

/-- The blanks that part tokens: every character that Unicode counts as white space. -/
def isBlank (c : Char) : Bool :=
  let n := c.toNat
  (9 ≤ n && n ≤ 13) || n == 0x20 || n == 0x85 || n == 0xa0 || n == 0x1680
    || (0x2000 ≤ n && n ≤ 0x200a) || n == 0x2028 || n == 0x2029 || n == 0x202f || n == 0x205f
    || n == 0x3000

/-- Parts a text at blanks; `word` is the token being read, in reverse. -/
def tokensFrom (word : List Char) : List Char → List (List Char)
  | [] => if word.isEmpty then [] else [word.reverse]
  | c :: rest =>
      if isBlank c then
        if word.isEmpty then tokensFrom [] rest else word.reverse :: tokensFrom [] rest
      else tokensFrom (c :: word) rest

/-- The tokens of a text. -/
def tokens (text : String) : List (List Char) :=
  tokensFrom [] text.toList

/-- Why a text is no script. -/
inductive ParseError where
  /-- A token after `0x` that is not hexadecimal. -/
  | badRawBytes (token : String)
  /-- A token of no known form. -/
  | unknownToken (token : String)
deriving DecidableEq, Repr

/-- What is said of the text. -/
def ParseError.message : ParseError → String
  | badRawBytes token => "script parse error: bad raw bytes " ++ token
  | unknownToken token => "script parse error: unknown token " ++ token

/-- The number a token of up to ten digits stands for, with a minus sign or without. -/
def number? (token : List Char) : Option Int :=
  let (negative, digits) := match token with
    | '-' :: rest => (true, rest)
    | _ => (false, token)
  if digits ≠ [] ∧ digits.length ≤ 10 ∧ digits.all Char.isDigit then
    let n : Nat := digits.foldl (fun n c => 10 * n + (c.toNat - 48)) 0
    some (if negative then -(n : Int) else n)
  else none

/-- The text between single quotes. -/
def quoted? : List Char → Option String
  | '\'' :: rest => if rest.getLast? = some '\'' then some (String.ofList rest.dropLast) else none
  | _ => none

/-- The bytes that a token adds to a script. -/
def readToken (token : List Char) : Except ParseError Bytes :=
  let text := String.ofList token
  match number? token with
  | some n => .ok (pushInt n)
  | none =>
      match token with
      | '0' :: 'x' :: raw =>
          match Hex.decode (String.ofList raw) with
          | .ok bs => .ok bs
          | .error _ => .error (.badRawBytes text)
      | _ =>
          match quoted? token with
          | some body => .ok (pushData body.toUTF8.toList)
          | none =>
              match Opcode.ofName? text with
              | some opcode => .ok [opcode]
              | none =>
                  match Hex.decode text with
                  | .ok data => .ok (pushData data)
                  | .error _ => .error (.unknownToken text)

/-- The script that a text stands for. -/
def parse (text : String) : Except ParseError Script := do
  let parts ← (tokens text).mapM readToken
  pure ⟨parts.flatten⟩

end StakeChain.Script
