/-
# Escrow requests

The ledger books what is left over; anybody may have an owner's surplus
paid out, and it always goes to the owner.
-/
import Troves.Protocol.Tokens

namespace Troves

namespace Protocol

open Troves.Action (world update emit)

/-- The escrow's own address. -/
def escrowAddress : Address := Contract.escrow.address

/-- Names the contracts the escrow works with, once. -/
def wireEscrow (caller : Address) (links : Escrow.Links) : Action Unit := do
  onlyAdmin caller
  require (← world).escrow.links?.isNone .alreadyWired
  onEscrow fun p => return { p with links? := some links }

/-- Credits an owner with collateral that is already there. -/
def creditSurplus (caller owner : Address) (amount : Nat) : Action Unit := do
  require ((← world).escrow.links?.map (·.manager) == some caller) .callerNotTrusted
  onEscrow (·.book owner amount)
  emit (.surplusChanged owner ((← world).escrow.balance owner))

/-- Pays an owner the whole surplus. -/
def claimSurplus (owner : Address) : Action Unit := do
  let (escrow, amount) ← (← world).escrow.release owner
  update fun w => { w with escrow }
  emit (.surplusChanged owner 0)
  match escrow.links? with
  | none => refuse .notWired
  | some links => pay links.collateral escrowAddress owner amount
  emit (.surplusPaid owner amount)

end Protocol

end Troves
