/-
# The ledger of troves

All troves with the pools behind them: the active pool holds what the
troves record, the default pool what was redistributed and not yet
settled.  The indices and marks say how the default pool is shared, the
baseline sizes the stakes of new troves, and amounts redistributed while
nobody held a stake wait unassigned for the next redistribution.

The operations here only keep the books.  Who is asked for a price, paid
or told is decided by the requests that use them.
-/
import Troves.Accrual
import Troves.Address
import Troves.Liquidation.Split
import Troves.Table

namespace Troves

/-- The contracts the ledger works with. -/
structure Ledger.Links where
  feed : Address
  list : Address
  pool : Address
  escrow : Address
  coin : Address
  collateral : Address
deriving DecidableEq, Repr

/-- The books of all troves. -/
structure Ledger where
  links? : Option Ledger.Links := none
  incentive : Liquidation.Incentive := {}
  troves : Table Address Trove := ∅
  /-- The indices at each trove's last update. -/
  marks : Table Address Holding := ∅
  /-- The owners of open troves, each at the slot its trove names. -/
  owners : List Address := []
  totalStakes : Nat := 0
  baseline : Accrual.Baseline := {}
  /-- Reward per unit of stake since the beginning. -/
  index : Holding := {}
  /-- What the last redistribution left over. -/
  remainders : Holding := {}
  /-- Redistributed while nobody held a stake. -/
  unassigned : Holding := {}
  activePool : Holding := {}
  defaultPool : Holding := {}
deriving DecidableEq

namespace Ledger

/-! ## Views -/

/-- An owner's trove. -/
def trove (l : Ledger) (owner : Address) : Trove := l.troves.getD owner {}

/-- The indices at an owner's last update. -/
def mark (l : Ledger) (owner : Address) : Holding := l.marks.getD owner {}

/-- Whether an owner's trove is open. -/
def isActive (l : Ledger) (owner : Address) : Bool := (l.trove owner).isActive

/-- The rewards an owner's trove has earned and not settled. -/
def pending (l : Ledger) (owner : Address) : Checked Holding :=
  let t := l.trove owner
  if t.isActive then
    Accrual.pending t.stake (l.mark owner) l.index
  else
    return {}

/-- An owner's amounts with pending rewards included. -/
def entire (l : Ledger) (owner : Address) : Checked Entire := do
  let pending ← l.pending owner
  let holding ← (l.trove owner).toHolding.add pending
  return { toHolding := holding, pending }

/-- The nominal ratio of an owner's entire position. -/
def nominalRatio (l : Ledger) (owner : Address) : Checked Nat := do
  let e ← l.entire owner
  Ratio.nominal e.collateral e.debt

/-- The collateral ratio of an owner's entire position. -/
def ratio (l : Ledger) (owner : Address) (price : Nat) : Checked Nat := do
  let e ← l.entire owner
  Ratio.collateral e.collateral e.debt price

/-- All collateral in the system. -/
def systemCollateral (l : Ledger) : Checked Nat :=
  Amount.add l.activePool.collateral l.defaultPool.collateral

/-- All debt in the system. -/
def systemDebt (l : Ledger) : Checked Nat :=
  Amount.add l.activePool.debt l.defaultPool.debt

/-- The collateral ratio of the whole system. -/
def totalRatio (l : Ledger) (price : Nat) : Checked Nat := do
  let coll ← l.systemCollateral
  let debt ← l.systemDebt
  Ratio.collateral coll debt price

/-- Whether the system is in recovery at a price. -/
def recovering (l : Ledger) (price : Nat) : Checked Bool := do
  return decide ((← l.totalRatio price) < Ratio.critical)

/-! ## Opening and closing -/

/-- Enters a new trove, with its stake, its mark and its slot. -/
def enroll (l : Ledger) (owner : Address) (holding : Holding) : Checked Ledger := do
  let stake ← Accrual.stakeFor holding.collateral l.baseline
  let totalStakes ← Amount.add l.totalStakes stake
  let t : Trove :=
    { toHolding := holding, stake, status := .active, slot := l.owners.length }
  return { l with
    totalStakes
    troves := l.troves.set owner t
    marks := l.marks.set owner l.index
    owners := l.owners ++ [owner] }

/-- Takes a trove's stake out of the total. -/
def dropStake (l : Ledger) (owner : Address) : Checked Ledger := do
  let t := l.trove owner
  let totalStakes ← Amount.sub l.totalStakes t.stake
  return { l with totalStakes, troves := l.troves.set owner { t with stake := 0 } }

/-- Frees a slot; the last owner moves into it. -/
def vacate (l : Ledger) (slot : Nat) : Ledger :=
  if slot = l.owners.length - 1 then
    { l with owners := l.owners.dropLast }
  else
    match l.owners.getLast? with
    | none => l
    | some moved =>
      { l with
        owners := (l.owners.set slot moved).dropLast
        troves := l.troves.set moved { l.trove moved with slot } }

/-- Closes a trove: nothing but its new status remains. -/
def close (l : Ledger) (owner : Address) (status : Trove.Status) : Ledger :=
  let l := l.vacate (l.trove owner).slot
  { l with
    troves := l.troves.set owner { status }
    marks := l.marks.set owner {} }

/-! ## Settling rewards -/

/-- Moves settled rewards from the default pool to the active pool. -/
def activate (l : Ledger) (pending : Holding) : Checked Ledger :=
  if pending.isZero then
    return l
  else do
    let defaultPool ← l.defaultPool.sub pending
    let activePool ← l.activePool.add pending
    return { l with defaultPool, activePool }

/-- What settling an owner's rewards now would give. -/
def settlement (l : Ledger) (owner : Address) : Checked Accrual.Settlement :=
  Accrual.settle (l.trove owner) (l.mark owner) l.index

/-! ## Spreading and paying out -/

/-- The redistribution of an amount together with what is unassigned. -/
def spread? (l : Ledger) (amount : Holding) : Checked (Option Accrual.Spread) := do
  Accrual.spread? (← amount.add l.unassigned) l.totalStakes l.remainders

/-- Books a redistribution: the indices grow, or the amount waits
unassigned; either way it moves from the active to the default pool. -/
def bookSpread (l : Ledger) (amount : Holding) (spread? : Option Accrual.Spread) :
    Checked Ledger := do
  let l ← match spread? with
    | some s => do
      let index ← l.index.add s.perUnit
      pure { l with index, remainders := s.remainders, unassigned := {} }
    | none => do
      let unassigned ← l.unassigned.add amount
      pure { l with unassigned }
  let activePool ← l.activePool.sub amount
  let defaultPool ← l.defaultPool.add amount
  return { l with activePool, defaultPool }

/-- Takes an amount out of the active pool. -/
def release (l : Ledger) (amount : Holding) : Checked Ledger := do
  return { l with activePool := ← l.activePool.sub amount }

/-- Takes the totals that size new stakes; collateral about to be paid out
does not count. -/
def rebase (l : Ledger) (outgoing : Nat) : Checked Ledger := do
  let staying ← Amount.sub l.activePool.collateral outgoing
  let collateral ← Amount.add staying l.defaultPool.collateral
  return { l with baseline := { stakes := l.totalStakes, collateral } }

end Ledger

end Troves
