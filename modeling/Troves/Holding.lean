/-
# Holdings

Collateral and debt side by side.  Pools, pending rewards, reward indices
and the remainders of their divisions are all holdings; they are added and
subtracted component by component, and a step that leaves the range of
amounts in either component fails as a whole.
-/
import Troves.Amount

namespace Troves

/-- Collateral and debt side by side. -/
structure Holding where
  collateral : Nat := 0
  debt : Nat := 0
deriving DecidableEq, Repr

namespace Holding

/-- Nothing in either component. -/
def isZero (h : Holding) : Bool := h.collateral == 0 && h.debt == 0

/-- The sum, component by component. -/
def add (a b : Holding) : Checked Holding := do
  let collateral ← Amount.add a.collateral b.collateral
  let debt ← Amount.add a.debt b.debt
  return { collateral, debt }

/-- The difference, component by component. -/
def sub (a b : Holding) : Checked Holding := do
  let collateral ← Amount.sub a.collateral b.collateral
  let debt ← Amount.sub a.debt b.debt
  return { collateral, debt }

@[simp] theorem isZero_iff {h : Holding} : h.isZero = true ↔ h = {} := by
  cases h; simp [isZero]

@[simp] theorem add_eq_ok {a b c : Holding} :
    a.add b = .ok c ↔
      (a.collateral + b.collateral < Amount.limit ∧ a.debt + b.debt < Amount.limit) ∧
        c = ⟨a.collateral + b.collateral, a.debt + b.debt⟩ := by
  unfold add
  simp only [Checked.bind_eq_ok, Checked.pure_eq_ok, Amount.add_eq_ok]
  grind

@[simp] theorem sub_eq_ok {a b c : Holding} :
    a.sub b = .ok c ↔
      (b.collateral ≤ a.collateral ∧ b.debt ≤ a.debt) ∧
        c = ⟨a.collateral - b.collateral, a.debt - b.debt⟩ := by
  unfold sub
  simp only [Checked.bind_eq_ok, Checked.pure_eq_ok, Amount.sub_eq_ok]
  grind

end Holding

end Troves
