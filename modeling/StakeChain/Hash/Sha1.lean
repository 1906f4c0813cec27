/-
SHA-1.

Five 32-bit words of state, 80 rounds a block in four groups of twenty
with a function and a constant each, everything big-endian.
-/
import StakeChain.Bytes.Digest
import StakeChain.Hash.Iterated

namespace StakeChain.Hash.Sha1

/-- The five words of the chaining state. -/
structure State where
  a : UInt32
  b : UInt32
  c : UInt32
  d : UInt32
  e : UInt32

/-- The state before the first block. -/
def start : State :=
  ⟨0x67452301, 0xefcdab89, 0x98badcfe, 0x10325476, 0xc3d2e1f0⟩

/-- Rotation to the left. -/
def rotl (x n : UInt32) : UInt32 :=
  (x <<< n) ||| (x >>> (32 - n))

/-- One more word of the message schedule. -/
def extend (w : Array UInt32) : Array UInt32 :=
  let n := w.size
  let mixed := w.getD (n - 3) 0 ^^^ w.getD (n - 8) 0 ^^^ w.getD (n - 14) 0 ^^^ w.getD (n - 16) 0
  w.push (rotl mixed 1)

/-- The message schedule: the sixteen words of the block, then 64 derived ones. -/
def schedule (block : Bytes) : Array UInt32 :=
  let words := (wordsOf .big 4 16 block).map UInt32.ofNat
  (List.range 64).foldl (fun w _ => extend w) words.toArray

/-- The mixing function and the constant of a round. -/
def mixing (i : Nat) (b c d : UInt32) : UInt32 × UInt32 :=
  if i < 20 then ((b &&& c) ||| ((~~~ b) &&& d), 0x5a827999)
  else if i < 40 then (b ^^^ c ^^^ d, 0x6ed9eba1)
  else if i < 60 then ((b &&& c) ||| (b &&& d) ||| (c &&& d), 0x8f1bbcdc)
  else (b ^^^ c ^^^ d, 0xca62c1d6)

/-- Round `i` under a schedule word. -/
def round (s : State) (i : Nat) (w : UInt32) : State :=
  let (f, k) := mixing i s.b s.c s.d
  ⟨rotl s.a 5 + f + s.e + k + w, s.a, rotl s.b 30, s.c, s.d⟩

/-- The compression of one block into the state. -/
def compress (s : State) (block : Bytes) : State :=
  let w := schedule block
  let t := (List.range 80).foldl (fun t i => round t i (w.getD i 0)) s
  ⟨s.a + t.a, s.b + t.b, s.c + t.c, s.d + t.d, s.e + t.e⟩

/-- The hash as an iteration of `compress`. -/
def iterated : Iterated State where
  blockWidth := 64
  lengthWidth := 8
  order := .big
  start := start
  compress := compress

/-- The state written out, most significant byte of each word first. -/
def State.toBytes (s : State) : Bytes :=
  [s.a, s.b, s.c, s.d, s.e].flatMap fun x => Bytes.ofNatBE 4 x.toNat

theorem State.length_toBytes (s : State) : s.toBytes.length = 20 := by
  simp [State.toBytes]

end StakeChain.Hash.Sha1

namespace StakeChain

/-- SHA-1 of a message. -/
def sha1 (message : Bytes) : Digest 20 :=
  ⟨(Hash.Sha1.iterated.run message).toBytes, Hash.Sha1.State.length_toBytes _⟩

end StakeChain
