/-
# The world

Everything the contracts remember, side by side, with the time of the
current block.  All contracts have the same administrator, the account
that deployed them.
-/
import Troves.Coin
import Troves.Contract
import Troves.Escrow
import Troves.Ledger
import Troves.Price.Feed
import Troves.Stability.Pool
import Troves.TroveList

namespace Troves

/-- The state of all contracts. -/
structure World where
  admin : Address
  /-- The time of the current block in milliseconds. -/
  time : Nat
  /-- What the primary oracle reports. -/
  round? : Option Price.Round
  /-- What the secondary oracle reports. -/
  quote? : Option Price.Quote
  /-- The collateral token. -/
  collateral : Token := {}
  coin : Coin := {}
  feed : Price.Feed
  list : TroveList
  pool : Stability.Pool := {}
  escrow : Escrow := {}
  ledger : Ledger := {}
  /-- The ratios posted on the board. -/
  board : Table Address Nat := ∅
  /-- The answer of the hollow token. -/
  hollowAnswer : Bool := false
deriving DecidableEq

/-- A call of an entry point that the contract does not have. -/
def noEntryPoint {α : Type} (name : String) : Checked α := .error (.noEntryPoint name)

namespace World

/-- The nominal ratio of an owner as the contract at an address gives it. -/
def ratioAt (w : World) (source owner : Address) : Checked Nat := do
  match ← Contract.locate source with
  | .ledger => w.ledger.nominalRatio owner
  | .board => return w.board.getD owner 0
  | _ => noEntryPoint "get_nominal_icr"

/-- The nominal ratio by which the list orders an owner at this moment. -/
def liveRatio (w : World) (owner : Address) : Checked Nat :=
  match w.list.keeper? with
  | some keeper => w.ratioAt keeper owner
  | none => refuse .notWired

/-- The live ratio of an owner, if it is listed. -/
def listedRatio? (w : World) (owner : Address) : Checked (Option Nat) :=
  if w.list.contains owner then do
    return some (← w.liveRatio owner)
  else
    return none

/-- The world some time later, as long as the clock's 64 bits hold it. -/
def advance (w : World) (milliseconds : Nat) : Checked World :=
  if w.time + milliseconds < Counter.limit then
    return { w with time := w.time + milliseconds }
  else
    .error .counterOverflow

end World

end Troves
