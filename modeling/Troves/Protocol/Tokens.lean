/-
# Token requests

Transfers, minting and burning, first on the stablecoin itself and then
through an address: a collaborator wired as a token may turn out to be
either token, the hollow one, or no token at all.
-/
import Troves.Protocol.Access

namespace Troves

namespace Protocol

open Troves.Action (world update)

/-! ## The stablecoin's privileged requests -/

/-- Goes on only for the contracts the stablecoin obeys. -/
def onlyProtocols (caller : Address) : Action Unit := do
  require ((← world).coin.obeys caller) .callerNotTrusted

/-- Creates stablecoin. -/
def mintCoin (caller target : Address) (amount : Nat) : Action Unit := do
  onlyProtocols caller
  onCoin (·.mint target amount)

/-- Destroys stablecoin of a holder's. -/
def burnCoin (caller source : Address) (amount : Nat) : Action Unit := do
  onlyProtocols caller
  onCoin (·.burn source amount)

/-- Moves stablecoin between holders who need not agree. -/
def moveCoin (caller source target : Address) (amount : Nat) : Action Unit := do
  onlyProtocols caller
  onCoin (·.move source target amount)

/-- Changes which contracts the stablecoin obeys. -/
def changeProtocols (caller : Address) (f : Coin → Coin) : Action Unit := do
  onlyAdmin caller
  update fun w => { w with coin := f w.coin }

/-! ## Requests through an address -/

/-- Moves the caller's tokens; the answer says whether the token agrees. -/
def transfer (token caller target : Address) (amount : Nat) : Action Bool := do
  match ← Contract.locate token with
  | .collateralToken =>
    onCollateral (·.move caller target amount)
    return true
  | .coin =>
    onCoin (·.move caller target amount)
    return true
  | .hollowToken => return (← world).hollowAnswer
  | _ => noEntryPoint "transfer"

/-- Moves an owner's tokens within the caller's allowance. -/
def drawFrom (token caller owner target : Address) (amount : Nat) : Action Bool := do
  match ← Contract.locate token with
  | .collateralToken =>
    onCollateral (·.draw caller owner target amount)
    return true
  | .coin =>
    onCoin (·.draw caller owner target amount)
    return true
  | .hollowToken => return (← world).hollowAnswer
  | _ => noEntryPoint "transfer_from"

/-- Creates tokens; the collateral token lets anybody do so. -/
def mint (token caller target : Address) (amount : Nat) : Action Unit := do
  match ← Contract.locate token with
  | .collateralToken => onCollateral (·.mint target amount)
  | .coin => mintCoin caller target amount
  | _ => noEntryPoint "mint"

/-- Pays tokens out and insists that the token agrees. -/
def pay (token caller target : Address) (amount : Nat) : Action Unit := do
  require (← transfer token caller target amount) .transferFailed

end Protocol

end Troves
