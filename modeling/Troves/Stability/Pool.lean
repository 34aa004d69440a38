/-
# The stability pool

Deposits of stablecoin that absorb the debt of liquidated troves and earn
their collateral.  A deposit is never touched by an offset; what is left
of it and what it has earned follow from the product and the sums.
-/
import Troves.Address
import Troves.Stability.Deposit
import Troves.Table

namespace Troves

namespace Stability

/-- The contracts the pool works with. -/
structure Links where
  /-- The only caller of an offset. -/
  manager : Address
  coin : Address
  collateral : Address
deriving DecidableEq, Repr

/-- The pool's books. -/
structure Pool where
  links? : Option Links := none
  /-- Stablecoin deposited and not yet burnt. -/
  total : Nat := 0
  /-- Collateral held for the depositors. -/
  collateral : Nat := 0
  /-- Debt absorbed since the beginning. -/
  absorbed : Nat := 0
  depositors : Nat := 0
  state : ProductSum := {}
  /-- Collateral gained per unit, by epoch and scale. -/
  sums : Table (Nat × Nat) Nat := ∅
  deposits : Table Address Deposit := ∅
deriving DecidableEq

namespace Pool

/-- The sum of an epoch and scale. -/
def sumAt (p : Pool) (epoch scale : Nat) : Nat := p.sums.getD (epoch, scale) 0

/-- The sum that grows at the moment. -/
def currentSum (p : Pool) : Nat := p.sumAt p.state.epoch p.state.scale

/-- A depositor's last deposit. -/
def deposit (p : Pool) (a : Address) : Deposit := p.deposits.getD a {}

/-- What is left of a depositor's deposit. -/
def remaining (p : Pool) (a : Address) : Checked Nat := (p.deposit a).remaining p.state

/-- The collateral a depositor has earned and not yet been paid. -/
def earned (p : Pool) (a : Address) : Checked Nat := do
  let d := p.deposit a
  if d.amount = 0 then
    return 0
  d.earned (p.sumAt d.epoch d.scale) (p.sumAt d.epoch (← Counter.next d.scale))

/-- What is paid is what the sum of the deposit's scale and that of the next
scale amount to. -/
theorem earned_ok {p : Pool} {a : Address} {n : Nat} (h : p.earned a = .ok n) :
    (p.deposit a).earned (p.sumAt (p.deposit a).epoch (p.deposit a).scale)
      (p.sumAt (p.deposit a).epoch ((p.deposit a).scale + 1)) = .ok n := by
  rw [earned] at h
  split at h
  · next hz =>
    rw [Deposit.earned, if_pos (.inl hz)]
    exact h
  · simp only [Checked.bind_eq_ok, Counter.next_eq_ok] at h
    obtain ⟨_, ⟨-, rfl⟩, h⟩ := h
    exact h

/-- Records a deposit as made now; none is kept of an amount of zero. -/
def record (p : Pool) (a : Address) (amount : Nat) : Pool :=
  let d : Deposit :=
    if amount = 0 then
      {}
    else
      { amount, product := p.state.product, sum := p.currentSum,
        epoch := p.state.epoch, scale := p.state.scale }
  { p with deposits := p.deposits.set a d }

/-- Cancels debt against the deposits and takes collateral for it.  The sum
grows at the product from before the loss. -/
def absorb (p : Pool) (debt coll : Nat) : Checked Pool := do
  let (state, r) ← p.state.offset coll debt p.total
  let sum ← Amount.add p.currentSum (← Amount.mul r.gain p.state.product)
  let total ← Amount.sub p.total debt
  let collateral ← Amount.add p.collateral coll
  let absorbed ← Amount.add p.absorbed debt
  return { p with
    sums := p.sums.set (p.state.epoch, p.state.scale) sum
    state, total, collateral, absorbed }

end Pool

end Stability

end Troves
