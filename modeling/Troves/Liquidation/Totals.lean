/-
# Totals

What one liquidation request did, added up over the troves it closed.
-/
import Troves.Liquidation.Split

namespace Troves

namespace Liquidation

/-- What one liquidation call did in total. -/
structure Totals where
  troves : Nat := 0
  debt : Nat := 0
  collateral : Nat := 0
  collateralCompensation : Nat := 0
  debtCompensation : Nat := 0
  debtOffset : Nat := 0
  collateralToPool : Nat := 0
  debtSpread : Nat := 0
  collateralSpread : Nat := 0
  surplus : Nat := 0
deriving DecidableEq, Repr

/-- The totals with one more liquidated trove. -/
def Totals.add (t : Totals) (s : Split) : Checked Totals := do
  return {
    troves := t.troves + 1
    debt := ← Amount.add t.debt s.debt
    collateral := ← Amount.add t.collateral s.collateral
    collateralCompensation :=
      ← Amount.add t.collateralCompensation s.collateralCompensation
    debtCompensation := ← Amount.add t.debtCompensation s.debtCompensation
    debtOffset := ← Amount.add t.debtOffset s.debtToOffset
    collateralToPool := ← Amount.add t.collateralToPool s.collateralToPool
    debtSpread := ← Amount.add t.debtSpread s.debtToSpread
    collateralSpread := ← Amount.add t.collateralSpread s.collateralToSpread
    surplus := ← Amount.add t.surplus s.surplus }

/-- The totals with a trove that may have been liquidated. -/
def Totals.tally (t : Totals) : Option Split → Checked Totals
  | some s => t.add s
  | none => return t

end Liquidation

end Troves
