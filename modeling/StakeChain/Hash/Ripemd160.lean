/-
RIPEMD-160.

Five 32-bit words of state and two lines of 80 rounds a block, which start
from the same state and are added crosswise at the end. Everything is
little-endian.
-/
import StakeChain.Bytes.Digest
import StakeChain.Hash.Iterated

namespace StakeChain.Hash.Ripemd160

/-- The five words of the chaining state. -/
structure State where
  a : UInt32
  b : UInt32
  c : UInt32
  d : UInt32
  e : UInt32

/-- The state before the first block. -/
def start : State :=
  ⟨0x67452301, 0xefcdab89, 0x98badcfe, 0x10325476, 0xc3d2e1f0⟩

/-- One line of rounds: which mixing function, constant, message word and rotation each uses. -/
structure Line where
  /-- Mixing functions of the five groups of sixteen rounds. -/
  functions : Array Nat
  /-- Constants of the five groups. -/
  constants : Array UInt32
  words : Array Nat
  rotations : Array UInt32

/-- The left line. -/
def left : Line where
  functions := #[0, 1, 2, 3, 4]
  constants := #[0x00000000, 0x5a827999, 0x6ed9eba1, 0x8f1bbcdc, 0xa953fd4e]
  words := #[
    0, 1, 2, 3, 4, 5, 6, 7, 8, 9, 10, 11, 12, 13, 14, 15,
    7, 4, 13, 1, 10, 6, 15, 3, 12, 0, 9, 5, 2, 14, 11, 8,
    3, 10, 14, 4, 9, 15, 8, 1, 2, 7, 0, 6, 13, 11, 5, 12,
    1, 9, 11, 10, 0, 8, 12, 4, 13, 3, 7, 15, 14, 5, 6, 2,
    4, 0, 5, 9, 7, 12, 2, 10, 14, 1, 3, 8, 11, 6, 15, 13]
  rotations := #[
    11, 14, 15, 12, 5, 8, 7, 9, 11, 13, 14, 15, 6, 7, 9, 8,
    7, 6, 8, 13, 11, 9, 7, 15, 7, 12, 15, 9, 11, 7, 13, 12,
    11, 13, 6, 7, 14, 9, 13, 15, 14, 8, 13, 6, 5, 12, 7, 5,
    11, 12, 14, 15, 14, 15, 9, 8, 9, 14, 5, 6, 8, 6, 5, 12,
    9, 15, 5, 11, 6, 8, 13, 12, 5, 12, 13, 14, 11, 8, 5, 6]

/-- The right line. -/
def right : Line where
  functions := #[4, 3, 2, 1, 0]
  constants := #[0x50a28be6, 0x5c4dd124, 0x6d703ef3, 0x7a6d76e9, 0x00000000]
  words := #[
    5, 14, 7, 0, 9, 2, 11, 4, 13, 6, 15, 8, 1, 10, 3, 12,
    6, 11, 3, 7, 0, 13, 5, 10, 14, 15, 8, 12, 4, 9, 1, 2,
    15, 5, 1, 3, 7, 14, 6, 9, 11, 8, 12, 2, 10, 0, 4, 13,
    8, 6, 4, 1, 3, 11, 15, 0, 5, 12, 2, 13, 9, 7, 10, 14,
    12, 15, 10, 4, 1, 5, 8, 7, 6, 2, 13, 14, 0, 3, 9, 11]
  rotations := #[
    8, 9, 9, 11, 13, 15, 15, 5, 7, 7, 8, 11, 14, 14, 12, 6,
    9, 13, 15, 7, 12, 8, 9, 11, 7, 7, 12, 7, 6, 15, 13, 11,
    9, 7, 15, 11, 8, 6, 6, 14, 12, 13, 5, 14, 13, 13, 7, 5,
    15, 5, 8, 11, 14, 14, 6, 14, 6, 9, 12, 9, 12, 5, 15, 8,
    8, 5, 12, 9, 12, 5, 14, 6, 8, 13, 6, 5, 15, 13, 11, 11]

/-- Rotation to the left. -/
def rotl (x n : UInt32) : UInt32 :=
  (x <<< n) ||| (x >>> (32 - n))

/-- The five mixing functions. -/
def mix : Nat → UInt32 → UInt32 → UInt32 → UInt32
  | 0, x, y, z => x ^^^ y ^^^ z
  | 1, x, y, z => (x &&& y) ||| ((~~~ x) &&& z)
  | 2, x, y, z => (x ||| (~~~ y)) ^^^ z
  | 3, x, y, z => (x &&& z) ||| (y &&& (~~~ z))
  | _, x, y, z => x ^^^ (y ||| (~~~ z))

/-- Round `i` of a line. -/
def round (line : Line) (block : Array UInt32) (s : State) (i : Nat) : State :=
  let f := mix (line.functions.getD (i / 16) 0) s.b s.c s.d
  let k := line.constants.getD (i / 16) 0
  let w := block.getD (line.words.getD i 0) 0
  let t := rotl (s.a + f + w + k) (line.rotations.getD i 0) + s.e
  ⟨s.e, t, s.b, rotl s.c 10, s.d⟩

/-- All rounds of a line. -/
def runLine (line : Line) (block : Array UInt32) (s : State) : State :=
  (List.range 80).foldl (round line block) s

/-- The compression of one block into the state. -/
def compress (s : State) (block : Bytes) : State :=
  let words := ((wordsOf .little 4 16 block).map UInt32.ofNat).toArray
  let l := runLine left words s
  let r := runLine right words s
  ⟨s.b + l.c + r.d, s.c + l.d + r.e, s.d + l.e + r.a, s.e + l.a + r.b, s.a + l.b + r.c⟩

/-- The hash as an iteration of `compress`. -/
def iterated : Iterated State where
  blockWidth := 64
  lengthWidth := 8
  order := .little
  start := start
  compress := compress

/-- The state written out, least significant byte of each word first. -/
def State.toBytes (s : State) : Bytes :=
  [s.a, s.b, s.c, s.d, s.e].flatMap fun x => Bytes.ofNatLE 4 x.toNat

theorem State.length_toBytes (s : State) : s.toBytes.length = 20 := by
  simp [State.toBytes]

end StakeChain.Hash.Ripemd160

namespace StakeChain

/-- RIPEMD-160 of a message. -/
def ripemd160 (message : Bytes) : Digest 20 :=
  ⟨(Hash.Ripemd160.iterated.run message).toBytes, Hash.Ripemd160.State.length_toBytes _⟩

end StakeChain
