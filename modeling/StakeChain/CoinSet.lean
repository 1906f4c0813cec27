/-
The set of spendable coins.

A block changes the set in one step: it takes away the coins it spends from
earlier blocks and adds those it creates and does not spend itself. What it
took away is enough to undo it.
-/
import Std.Data.ExtTreeMap
import Std.Data.ExtTreeSet
import StakeChain.Block
import StakeChain.Rejection
import StakeChain.Tx.Spend

namespace StakeChain

/-- Coins by place. -/
abbrev CoinSet := Std.ExtTreeMap OutPoint Coin compare

/-- Coins in some order, each with its place. -/
abbrev PlacedCoins := List (OutPoint × Coin)

namespace CoinSet

/-- The set without some places. -/
def eraseAll (set : CoinSet) (places : List OutPoint) : CoinSet :=
  places.foldl (fun s o => s.erase o) set

/-- The set with more coins; of two coins for one place the latter counts. -/
def insertAll (set : CoinSet) (coins : PlacedCoins) : CoinSet :=
  coins.foldl (fun s c => s.insert c.1 c.2) set

/-- Takes coins away, then adds others. -/
def change (set : CoinSet) (spent : List OutPoint) (created : PlacedCoins) : CoinSet :=
  (set.eraseAll spent).insertAll created

/-- Whether none of some places has a coin, looking at one after another. -/
def noneAt {m : Type → Type} [Monad m] (find : OutPoint → m (Option Coin)) :
    List OutPoint → m Bool
  | [] => pure true
  | o :: rest => do
      if (← find o).isSome then pure false else noneAt find rest

end CoinSet

namespace Block

/-- The places of all outputs of a block. -/
def outputPlaces (b : Block) : List OutPoint :=
  b.txs.flatMap Tx.outputPlaces

/-- The places that a block spends, in order. A coinbase spends none. -/
def spentPlaces (b : Block) : List OutPoint :=
  (b.txs.filter fun tx => !tx.isCoinbase).flatMap fun tx => tx.inputs.map TxIn.prevout

/-- The coins that a block creates at a height, those it spends itself too. -/
def createdCoins (b : Block) (height : Nat) : PlacedCoins :=
  b.txs.flatMap fun tx => tx.createdCoins height b.header.time

/-- The ids of the transactions of a block. -/
def txIds (b : Block) : Std.ExtTreeSet Hash256 compare :=
  .ofList (b.txs.map Tx.id) compare

end Block

/-- What a block took away. -/
structure Undo where
  spent : PlacedCoins
deriving DecidableEq

namespace CoinSet

/-- Places without order. -/
abbrev Places := Std.ExtTreeSet OutPoint compare

/-- The places that a block spends from earlier blocks. -/
def externalPlaces (b : Block) : List OutPoint :=
  let ids := b.txIds
  b.spentPlaces.filter fun o => !ids.contains o.hash

/-- The places of the coins that a block leaves behind. -/
def leftPlaces (b : Block) (height : Nat) : List OutPoint :=
  let spent : Places := .ofList b.spentPlaces compare
  ((b.createdCoins height).map (·.1)).filter fun o => !spent.contains o

/-- Whether undo data holds each coin once that a block took from earlier blocks, and no
other. -/
def undoes (b : Block) (undo : Undo) : Bool :=
  let places := undo.spent.map (·.1)
  let undone : Places := .ofList places compare
  let external : Places := .ofList (externalPlaces b) compare
  undone.size == places.length && undone.toList == external.toList

/-- Undoes a block at a height. All that it left behind has to be there still. -/
def disconnect (set : CoinSet) (b : Block) (height : Nat) (undo : Undo) :
    Except ConsensusError CoinSet :=
  let left := leftPlaces b height
  if left.all (fun o => set.contains o) && undoes b undo then .ok (set.change left undo.spent)
  else .error .badUndoData

end CoinSet

end StakeChain
