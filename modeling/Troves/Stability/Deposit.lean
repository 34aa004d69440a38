/-
# Deposits

A deposit remembers the product and the sum of the time it was made.  From
these and the present state follow what is left of it and what it has
earned, however many offsets lie in between.
-/
import Troves.Stability.ProductSum

namespace Troves

namespace Stability

/-- A deposit and what the pool looked like when it was made. -/
structure Deposit where
  amount : Nat := 0
  product : Nat := 0
  sum : Nat := 0
  epoch : Nat := 0
  scale : Nat := 0
deriving DecidableEq, Repr

namespace Deposit

/-- A deposit shrunk by the product's fall since it was made, by the number
of scales the product has passed.  After two scales nothing is left. -/
def shrunk (d : Deposit) (s : ProductSum) : Checked Nat :=
  match s.scale - d.scale with
  | 0 => Amount.mulDiv d.amount s.product d.product
  | 1 => do return (← Amount.mulDiv d.amount s.product d.product) / scaleStep
  | _ => return 0

/-- What is left of a deposit.  A deposit of an earlier epoch is gone, and
less than a billionth of what was deposited counts as nothing. -/
def remaining (d : Deposit) (s : ProductSum) : Checked Nat :=
  if d.amount = 0 ∨ d.product = 0 ∨ d.epoch < s.epoch then
    return 0
  else do
    let left ← d.shrunk s
    return if left < d.amount / scaleStep then 0 else left

/-- The collateral a deposit has earned, given the sums of its own scale and
of the scale after it. -/
def earned (d : Deposit) (sumHere sumNext : Nat) : Checked Nat :=
  if d.amount = 0 ∨ d.product = 0 then
    return 0
  else do
    let first ← Amount.sub sumHere d.sum
    let portion ← Amount.add first (sumNext / scaleStep)
    return (← Amount.mulDiv d.amount portion d.product) / Amount.one

end Deposit

end Stability

end Troves
