/-
Scripts with parts cut out, as signatures commit to them.

Both cuts go from operation to operation, so bytes inside the data of a
push are never touched, and the undecodable tail is kept as it is.
-/
import StakeChain.Script

namespace StakeChain.Script

/-- Drops repetitions of a pattern from the front; the fuel bounds their number. -/
def dropRepeats (pattern : Bytes) : (fuel : Nat) → Bytes → Bytes
  | 0, bs => bs
  | fuel + 1, bs =>
      if pattern.isPrefixOf bs then dropRepeats pattern fuel (bs.drop pattern.length) else bs

/-- Cuts a pattern wherever an operation starts; the chunks kept are put in front of `acc` in
reverse. -/
def deleteFrom (pattern : Bytes) (acc : List Bytes) : (fuel : Nat) → Bytes → Bytes
  | 0, bs => (bs :: acc).reverse.flatten
  | fuel + 1, bs =>
      let bs := dropRepeats pattern (fuel + 1) bs
      match Op.decode bs with
      | none => acc.reverse.flatten
      | some (.invalid _, _) => (bs :: acc).reverse.flatten
      | some (op, rest) => deleteFrom pattern (op.encode :: acc) fuel rest

/-- The script without the pattern, wherever it stands at the start of an operation. -/
def findAndDelete (s : Script) (pattern : Script) : Script :=
  if pattern.bytes.isEmpty then s
  else ⟨deleteFrom pattern.bytes [] (s.bytes.length + 1) s.bytes⟩

/-- Keeps the operations of a script that satisfy a test, and the undecodable tail. -/
def filterFrom (keep : Op → Bool) (acc : List Bytes) : (fuel : Nat) → Bytes → Bytes
  | 0, bs => (bs :: acc).reverse.flatten
  | fuel + 1, bs =>
      match Op.decode bs with
      | none => acc.reverse.flatten
      | some (.invalid _, _) => (bs :: acc).reverse.flatten
      | some (op, rest) =>
          filterFrom keep (if keep op then op.encode :: acc else acc) fuel rest

/-- The script without its code separators. -/
def withoutCodeSeparators (s : Script) : Script :=
  ⟨filterFrom (· != .code Opcode.codeSeparator) [] (s.bytes.length + 1) s.bytes⟩

/-- The script from a byte offset on. -/
def suffixFrom (s : Script) (offset : Nat) : Script :=
  ⟨s.bytes.drop offset⟩

end StakeChain.Script
