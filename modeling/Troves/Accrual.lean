/-
# Accrual of rewards

A redistribution spreads debt and collateral over all open troves in
proportion to their stakes, without touching the troves: two indices grow
by the amount per unit of stake, each trove keeps a mark of the indices at
its last update, and its pending share is stake times growth.

Shares are rounded down; what a division of the indices leaves over is
carried into the next redistribution.
-/
import Troves.Trove

namespace Troves

namespace Accrual

/-- The part of an index's growth that falls to a stake. -/
def share (stake growth : Nat) : Checked Nat :=
  Amount.mulDiv stake growth Amount.one

/-- What a stake has earned since its mark was taken. -/
def pending (stake : Nat) (mark index : Holding) : Checked Holding :=
  if stake = 0 then
    return {}
  else do
    let growth ← index.sub mark
    let collateral ← share stake growth.collateral
    let debt ← share stake growth.debt
    return { collateral, debt }

/-- A trove after its pending rewards were settled. -/
structure Settlement where
  trove : Trove
  mark : Holding
  applied : Holding
deriving DecidableEq, Repr

/-- Adds the pending rewards to an open trove and moves its mark to the
index; any other trove stays as it is. -/
def settle (t : Trove) (mark index : Holding) : Checked Settlement :=
  if t.isActive then do
    let applied ← pending t.stake mark index
    let holding ← t.toHolding.add applied
    return { trove := { t with toHolding := holding }, mark := index, applied }
  else
    return { trove := t, mark, applied := {} }

/-- One redistribution, ready to be booked. -/
structure Spread where
  /-- Growth of the indices. -/
  perUnit : Holding
  /-- What the divisions left over. -/
  remainders : Holding
deriving DecidableEq, Repr

/-- Spreads an amount over all stakes, together with the remainders carried
from last time.  There is nothing to book without debt or without stakes. -/
def spread? (amount : Holding) (stakes : Nat) (carried : Holding) :
    Checked (Option Spread) :=
  if amount.debt = 0 ∨ stakes = 0 then
    return none
  else do
    let collateral ← Amount.add (← Amount.mul amount.collateral Amount.one) carried.collateral
    let debt ← Amount.add (← Amount.mul amount.debt Amount.one) carried.debt
    return some {
      perUnit := ⟨collateral / stakes, debt / stakes⟩
      remainders := ⟨collateral % stakes, debt % stakes⟩ }

/-- Totals taken after each liquidation; they size the stakes of new troves. -/
structure Baseline where
  stakes : Nat := 0
  collateral : Nat := 0
deriving DecidableEq, Repr

/-- The stake of a new trove: its collateral, scaled by the stakes per unit
of collateral at the baseline once there is one. -/
def stakeFor (collateral : Nat) (base : Baseline) : Checked Nat :=
  if base.stakes = 0 ∨ base.collateral = 0 then
    return collateral
  else
    Amount.mulDiv collateral base.stakes base.collateral

end Accrual

end Troves
