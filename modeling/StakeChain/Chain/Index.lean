/-
An index of headers.

All headers are found by hash; those of the active branch are also found by
height.
-/
import Std.Data.ExtTreeMap
import StakeChain.Chain.Branch

namespace StakeChain

/-- Headers by hash, and the active branch. -/
structure ChainIndex where
  byHash : Std.ExtTreeMap Hash256 Branch compare
  /-- The headers of the active branch, lowest first. -/
  active : List Branch

namespace ChainIndex

/-- Every header of a branch as the end of one, last one first. -/
def stages (tip : Link) : List Link → List Branch
  | [] => [⟨tip, []⟩]
  | l :: rest => ⟨tip, l :: rest⟩ :: stages l rest

/-- Adds a header. -/
def insert (i : ChainIndex) (b : Branch) : ChainIndex :=
  { i with byHash := i.byHash.insert b.hash b }

/-- Makes a branch the active one. -/
def setTip (i : ChainIndex) (b : Branch) : ChainIndex :=
  { i with active := (stages b.tip b.below).reverse }

/-- The index of a first header. -/
def ofRoot (b : Branch) : ChainIndex :=
  (insert ⟨∅, []⟩ b).setTip b

/-- The header of a hash. -/
def get? (i : ChainIndex) (hash : Hash256) : Option Branch :=
  i.byHash[hash]?

/-- The header of the active branch that is so many above its first one. -/
def at? (i : ChainIndex) (height : Nat) : Option Branch :=
  i.active[height]?

/-- The last header of the active branch. -/
def tip? (i : ChainIndex) : Option Branch :=
  i.active.getLast?

end ChainIndex

end StakeChain
