/-
# Reaching contracts

How one contract calls another: the collaborator is looked up by its
address, the entry point by its name.  A contract written at an address
answers only to the entry points it has.
-/
import Troves.Action

namespace Troves

namespace Protocol

open Troves.Action (world update emit)

/-- A call through an address to the one contract that has the entry point. -/
def via {α : Type} (address : Address) (expected : Contract) (entry : String)
    (act : Action α) : Action α := do
  if (← Contract.locate address) = expected then
    act
  else
    noEntryPoint entry

/-- Goes on only for the administrator. -/
def onlyAdmin (caller : Address) : Action Unit := do
  require (caller == (← world).admin) .callerNotAdmin

/-- Changes the ledger. -/
def onLedger (f : Ledger → Checked Ledger) : Action Unit := do
  let ledger ← f (← world).ledger
  update fun w => { w with ledger }

/-- Changes the list. -/
def onList (f : TroveList → Checked TroveList) : Action Unit := do
  let list ← f (← world).list
  update fun w => { w with list }

/-- Changes the stability pool. -/
def onPool (f : Stability.Pool → Checked Stability.Pool) : Action Unit := do
  let pool ← f (← world).pool
  update fun w => { w with pool }

/-- Changes the escrow. -/
def onEscrow (f : Escrow → Checked Escrow) : Action Unit := do
  let escrow ← f (← world).escrow
  update fun w => { w with escrow }

/-- Changes the books of the collateral token. -/
def onCollateral (f : Token → Checked Token) : Action Unit := do
  let collateral ← f (← world).collateral
  update fun w => { w with collateral }

/-- Changes the books of the stablecoin. -/
def onCoin (f : Token → Checked Token) : Action Unit := do
  let token ← f (← world).coin.token
  update fun w => { w with coin := { w.coin with token } }

end Protocol

end Troves
