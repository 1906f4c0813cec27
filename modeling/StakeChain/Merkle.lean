/-
Merkle roots.

Hashes are paired level by level until one is left; a level of odd length
repeats its last hash. So a list may share its root with one that repeats
its end. A level that holds a pair of equal hashes is reported, which the
longer one of two such lists always has.
-/
import StakeChain.Block

namespace StakeChain.Merkle

/-- The hash of a pair. -/
def node (left right : Hash256) : Hash256 :=
  hash256 (left.bytes ++ right.bytes)

/-- The next level. -/
def pairUp : List Hash256 → List Hash256
  | a :: b :: rest => node a b :: pairUp rest
  | [a] => [node a a]
  | [] => []

/-- Whether a level has two equal hashes in one pair. -/
def hasTwins : List Hash256 → Bool
  | a :: b :: rest => a == b || hasTwins rest
  | _ => false

theorem length_pairUp_le : ∀ l : List Hash256, (pairUp l).length ≤ l.length
  | [] => Nat.le_refl _
  | [_] => Nat.le_refl _
  | _ :: _ :: rest => by
      have := length_pairUp_le rest
      simp only [pairUp, List.length_cons]
      omega

/-- A root, and whether a level held a pair of equal hashes. -/
structure Root where
  hash : Hash256
  mutated : Bool
deriving DecidableEq

/-- The root of a level, when lower levels were mutated as said. -/
def rootFrom (mutated : Bool) : List Hash256 → Root
  | [] => ⟨Digest.zero, mutated⟩
  | [h] => ⟨h, mutated⟩
  | a :: b :: rest =>
      rootFrom (mutated || hasTwins (a :: b :: rest)) (pairUp (a :: b :: rest))
termination_by l => l.length
decreasing_by
  have := length_pairUp_le rest
  simp only [pairUp, List.length_cons]
  omega

/-- The root of a list; zero for the empty one. -/
def root (hashes : List Hash256) : Root :=
  rootFrom false hashes

end Merkle

namespace Block

/-- The root over the ids of the transactions. -/
def merkleRoot (b : Block) : Merkle.Root :=
  Merkle.root (b.txs.map Tx.id)

/-- The hashes that the witnesses of a block are committed to: the first transaction carries
the commitment, so zero stands for it. -/
def witnessLeaves (b : Block) : List Hash256 :=
  match b.txs with
  | [] => []
  | _ :: rest => Digest.zero :: rest.map Tx.witnessId

/-- The root over the ids with witnesses. -/
def witnessRoot (b : Block) : Merkle.Root :=
  Merkle.root b.witnessLeaves

end Block

end StakeChain
