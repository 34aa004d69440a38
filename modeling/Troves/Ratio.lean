/-
# Collateral ratios

How well a debt is covered.  The collateral ratio weighs collateral at a
price; the nominal ratio leaves the price out and orders troves among
themselves.  A position without debt has the greatest ratio there is.
-/
import Troves.Amount

namespace Troves

namespace Ratio

/-- The minimum ratio of a trove: 110%. -/
def minimum : Nat := Amount.one * 11 / 10

/-- The ratio of the whole system under which recovery begins: 150%. -/
def critical : Nat := Amount.one * 3 / 2

/-- One unit of a nominal ratio: twenty decimal places. -/
def nominalOne : Nat := Amount.one * 100

/-- The ratio of a position without debt. -/
def unbounded : Nat := Amount.greatest

/-- The value of the collateral at the price per unit of debt. -/
def collateral (coll debt price : Nat) : Checked Nat :=
  if debt = 0 then .ok unbounded else Amount.mulDiv coll price debt

/-- Collateral per unit of debt, whatever the price. -/
def nominal (coll debt : Nat) : Checked Nat :=
  if debt = 0 then .ok unbounded else Amount.mulDiv coll nominalOne debt

/-- A position without debt always has a ratio; any other has one if its worth
fits. -/
theorem collateral_eq_ok {coll debt price ratio : Nat} :
    collateral coll debt price = .ok ratio ↔
      debt = 0 ∧ ratio = unbounded ∨
        debt ≠ 0 ∧ coll * price < Amount.limit ∧ ratio = coll * price / debt := by
  by_cases h : debt = 0
  · simp [collateral, h, eq_comm]
  · simp [collateral, h]

/-- Every ratio is an amount. -/
theorem collateral_lt {coll debt price ratio : Nat} (h : collateral coll debt price = .ok ratio) :
    ratio < Amount.limit := by
  obtain ⟨-, rfl⟩ | ⟨-, hfit, rfl⟩ := collateral_eq_ok.1 h
  · decide
  · exact Nat.lt_of_le_of_lt (Nat.div_le_self _ _) hfit

/-- Only a position with debt has a ratio below the greatest. -/
theorem debt_ne {coll debt price ratio : Nat} (h : collateral coll debt price = .ok ratio)
    (hlt : ratio < unbounded) : debt ≠ 0 := by
  obtain ⟨-, rfl⟩ | ⟨hd, -⟩ := collateral_eq_ok.1 h
  · exact absurd hlt (Nat.lt_irrefl _)
  · exact hd

theorem quotient {coll debt price ratio : Nat} (h : collateral coll debt price = .ok ratio)
    (hd : debt ≠ 0) : ratio = coll * price / debt := by
  obtain ⟨hz, -⟩ | ⟨-, -, hratio⟩ := collateral_eq_ok.1 h
  · exact absurd hz hd
  · exact hratio

end Ratio

end Troves
