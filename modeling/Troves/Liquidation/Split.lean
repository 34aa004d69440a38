/-
# Splits

Whether a trove is liquidated, and how its debt and collateral are split
between the stability pool, the remaining troves, the liquidator and the
owner's surplus.

    mode       ratio of the trove       what happens
    normal     below the minimum        offset, spread the remainder
    recovery   below 100%               spread everything
    recovery   100% to the minimum      offset, spread the remainder
    recovery   minimum to the total     capped offset, if the pool
                                        covers the whole debt
    any        otherwise                nothing
-/
import Troves.Ratio

namespace Troves

namespace Liquidation

/-- The state of the system at the moment a trove is examined. -/
inductive Mode where
  | normal
  | recovery
deriving DecidableEq, Repr

/-- The mode under a total ratio: recovery below the critical ratio. -/
def Mode.ofTotal (total : Nat) : Mode :=
  if total < Ratio.critical then .recovery else .normal

/-- The ratio from which on no trove is liquidated: the minimum, or in
recovery the total ratio if that is higher. -/
def threshold (total : Nat) : Nat :=
  if total < Ratio.critical then max Ratio.minimum total else Ratio.minimum

/-- What whoever triggers a liquidation is paid. -/
structure Incentive where
  /-- Stablecoin set aside when a trove is opened. -/
  debtCompensation : Nat := 200 * Amount.one
  /-- One part in this many of the collateral; none at zero. -/
  collateralDivisor : Nat := 200
deriving DecidableEq, Repr

/-- The collateral paid out of an amount to be liquidated. -/
def Incentive.collateralOf (i : Incentive) (collateral : Nat) : Nat :=
  if i.collateralDivisor = 0 then 0 else collateral / i.collateralDivisor

/-- How a liquidated trove's amounts are split. -/
structure Split where
  /-- The whole debt, pending rewards included. -/
  debt : Nat := 0
  /-- The whole collateral, pending rewards included. -/
  collateral : Nat := 0
  collateralCompensation : Nat := 0
  debtCompensation : Nat := 0
  debtToOffset : Nat := 0
  collateralToPool : Nat := 0
  debtToSpread : Nat := 0
  collateralToSpread : Nat := 0
  surplus : Nat := 0
deriving DecidableEq, Repr

namespace Split

/-- The debt cancelled against deposits and the collateral given for it: as
much debt as the pool holds, and the same part of the collateral. -/
def offsetPart (debt collateral deposits : Nat) : Checked (Nat × Nat) :=
  if deposits = 0 then
    return (0, 0)
  else do
    let cancelled := min debt deposits
    return (cancelled, ← Amount.mulDiv collateral cancelled debt)

/-- Offsets what the pool can take and spreads the rest. -/
def offsetAndSpread (debt collateral deposits : Nat) (i : Incentive) : Checked Split := do
  let compensation := i.collateralOf collateral
  let rest ← Amount.sub collateral compensation
  let (debtToOffset, collateralToPool) ← offsetPart debt rest deposits
  return {
    debt, collateral
    collateralCompensation := compensation
    debtCompensation := i.debtCompensation
    debtToOffset, collateralToPool
    debtToSpread := ← Amount.sub debt debtToOffset
    collateralToSpread := ← Amount.sub rest collateralToPool }

/-- Spreads everything and leaves the pool alone. -/
def spreadAll (debt collateral : Nat) (i : Incentive) : Checked Split := do
  let compensation := i.collateralOf collateral
  return {
    debt, collateral
    collateralCompensation := compensation
    debtCompensation := i.debtCompensation
    debtToSpread := debt
    collateralToSpread := ← Amount.sub collateral compensation }

/-- Offsets the whole debt against collateral worth the minimum ratio of it;
what is left of the collateral is the owner's surplus. -/
def offsetAtCap (debt collateral price : Nat) (i : Incentive) : Checked Split := do
  let cap ← Amount.mulDiv debt Ratio.minimum price
  let compensation := i.collateralOf cap
  return {
    debt, collateral
    collateralCompensation := compensation
    debtCompensation := i.debtCompensation
    debtToOffset := debt
    collateralToPool := ← Amount.sub cap compensation
    surplus := ← Amount.sub collateral cap }

end Split

/-- The split of a trove at a price, or none if it may not be liquidated in
this mode; `total` is the ratio of the whole system. -/
def split? (mode : Mode) (debt collateral price total deposits : Nat) (i : Incentive) :
    Checked (Option Split) := do
  let ratio ← Ratio.collateral collateral debt price
  match mode with
  | .normal =>
    if ratio < Ratio.minimum then
      return some (← Split.offsetAndSpread debt collateral deposits i)
    else
      return none
  | .recovery =>
    if ratio < Amount.one then
      return some (← Split.spreadAll debt collateral i)
    else if ratio < Ratio.minimum then
      return some (← Split.offsetAndSpread debt collateral deposits i)
    else if ratio < total ∧ debt ≤ deposits then
      return some (← Split.offsetAtCap debt collateral price i)
    else
      return none

end Liquidation

end Troves
