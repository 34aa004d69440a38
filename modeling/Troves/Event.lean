/-
# Events

What the contracts report while they work, in the order in which they
report it.
-/
import Troves.Accrual
import Troves.Contract
import Troves.Liquidation.Totals
import Troves.Price.Feed

namespace Troves

/-- A report of one contract. -/
inductive Event where
  | statusChanged (status : Price.Status)
  | priceTaken (price : Nat)
  | troveChanged (borrower : Address) (trove : Trove)
  | troveClosed (borrower : Address) (holding : Holding) (mode : Liquidation.Mode)
  | liquidated (liquidator : Address) (totals : Liquidation.Totals)
  | indexGrew (index : Holding)
  | stakesChanged (totalStakes : Nat)
  | baselineTaken (baseline : Accrual.Baseline)
  | debtOffset (debt collateral : Nat)
  | productChanged (product : Nat)
  | sumGrew (epoch scale sum : Nat)
  | epochBegan (epoch : Nat)
  | scaleBegan (scale : Nat)
  | depositChanged (depositor : Address) (amount : Nat)
  | gainPaid (depositor : Address) (collateral loss : Nat)
  | surplusChanged (owner : Address) (balance : Nat)
  | surplusPaid (owner : Address) (amount : Nat)
  | listed (id : Address) (ratio : Nat)
  | unlisted (id : Address)
deriving DecidableEq, Repr

/-- The contract that reports an event. -/
def Event.source : Event → Contract
  | statusChanged _ | priceTaken _ => .feed
  | troveChanged .. | troveClosed .. | liquidated .. | indexGrew _
  | stakesChanged _ | baselineTaken _ => .ledger
  | debtOffset .. | productChanged _ | sumGrew .. | epochBegan _ | scaleBegan _
  | depositChanged .. | gainPaid .. => .stabilityPool
  | surplusChanged .. | surplusPaid .. => .escrow
  | listed .. | unlisted _ => .list

end Troves
