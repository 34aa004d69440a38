/-
# Product and sum

How deposits of the stability pool shrink and earn without being touched.
A running product tells how much of one unit deposited at the start
survives; a running sum, kept per epoch and scale, tells the collateral
gained per unit.

The product is rescaled by `10 ^ 9` before it loses precision (a new
scale) and set back to one when an offset empties the pool (a new epoch).
What the divisions leave over is carried into the next offset.
-/
import Troves.Amount

namespace Troves

namespace Stability

/-- The state of the product, with the remainders carried between offsets. -/
structure ProductSum where
  product : Nat := Amount.one
  epoch : Nat := 0
  scale : Nat := 0
  gainRemainder : Nat := 0
  lossRemainder : Nat := 0
deriving DecidableEq, Repr

/-- The factor of one rescaling of the product. -/
def scaleStep : Nat := 1000000000

/-- What one offset means for each unit deposited. -/
structure Rates where
  /-- Collateral gained per unit. -/
  gain : Nat
  /-- Debt lost per unit. -/
  loss : Nat
deriving DecidableEq, Repr

namespace ProductSum

/-- Loss per unit and the new remainder.  The loss is rounded up, less what
earlier offsets rounded up too far; an offset of everything takes exactly
one unit per unit and clears the remainder. -/
def lossRate (remainder debt total : Nat) : Checked (Nat × Nat) :=
  if debt = total then
    return (Amount.one, 0)
  else do
    let due := (← Amount.mul debt Amount.one) - remainder
    let loss ← Amount.add (← Amount.div due total) 1
    let charged ← Amount.mul loss total
    return (min loss Amount.one, ← Amount.sub charged due)

/-- The rates of an offset of `debt` against deposits of `total`, for which
`coll` is handed over; the remainders are carried on. -/
def rates (s : ProductSum) (coll debt total : Nat) : Checked (ProductSum × Rates) := do
  let earned ← Amount.add (← Amount.mul coll Amount.one) s.gainRemainder
  let gain ← Amount.div earned total
  let (loss, lossRemainder) ← lossRate s.lossRemainder debt total
  return ({ s with gainRemainder := earned % total, lossRemainder }, { gain, loss })

/-- Shrinks the product by a loss per unit, with a new scale or a new epoch
where it is due. -/
def shrink (s : ProductSum) (loss : Nat) : Checked ProductSum := do
  let kept ← Amount.sub Amount.one loss
  if kept = 0 then
    return { s with epoch := ← Counter.next s.epoch, scale := 0, product := Amount.one }
  let shrunk ← Amount.mul s.product kept
  if shrunk / Amount.one < scaleStep then
    let enlarged ← Amount.mul shrunk scaleStep
    return { s with product := enlarged / Amount.one, scale := ← Counter.next s.scale }
  return { s with product := shrunk / Amount.one }

/-- One offset: the rates, and the state after its loss. -/
def offset (s : ProductSum) (coll debt total : Nat) : Checked (ProductSum × Rates) := do
  let (carried, r) ← s.rates coll debt total
  return (← carried.shrink r.loss, r)

end ProductSum

end Stability

end Troves
