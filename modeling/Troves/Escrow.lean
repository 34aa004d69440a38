/-
# The escrow

Collateral left over when a trove is liquidated at a capped amount.  It
waits here until it is claimed for its owner.
-/
import Troves.Address
import Troves.Amount
import Troves.Table

namespace Troves

/-- The contracts the escrow works with. -/
structure Escrow.Links where
  /-- The only caller that may book a surplus. -/
  manager : Address
  collateral : Address
deriving DecidableEq, Repr

/-- The escrow's books. -/
structure Escrow where
  links? : Option Escrow.Links := none
  balances : Table Address Nat := ∅
  total : Nat := 0
deriving DecidableEq

namespace Escrow

/-- What an owner can claim. -/
def balance (p : Escrow) (owner : Address) : Nat := p.balances.getD owner 0

/-- Credits an owner. -/
def book (p : Escrow) (owner : Address) (amount : Nat) : Checked Escrow := do
  let balance ← Amount.add (p.balance owner) amount
  let total ← Amount.add p.total amount
  return { p with balances := p.balances.set owner balance, total }

/-- Takes out everything an owner can claim. -/
def release (p : Escrow) (owner : Address) : Checked (Escrow × Nat) := do
  let amount := p.balance owner
  require (amount != 0) .noCollateralAvailable
  let total ← Amount.sub p.total amount
  return ({ p with balances := p.balances.set owner 0, total }, amount)

end Escrow

end Troves
