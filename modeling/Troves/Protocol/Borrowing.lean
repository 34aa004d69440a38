/-
# Borrowing requests

Opening a trove and settling its rewards.  A trove is opened only if it is
well covered itself and leaves the system well covered; in recovery the
trove has to meet the critical ratio on its own.
-/
import Troves.Protocol.Listing
import Troves.Protocol.Pricing
import Troves.Protocol.Tokens

namespace Troves

namespace Protocol

open Troves.Action (world update emit)

/-- The ledger's own address. -/
def ledgerAddress : Address := Contract.ledger.address

/-- Names the contracts the ledger works with, once. -/
def wireLedger (caller : Address) (links : Ledger.Links) : Action Unit := do
  onlyAdmin caller
  require (← world).ledger.links?.isNone .alreadyWired
  onLedger fun l => return { l with links? := some links }

/-- Sets what a liquidation pays, before there is any trove or debt. -/
def setIncentive (caller : Address) (incentive : Liquidation.Incentive) : Action Unit := do
  onlyAdmin caller
  let l := (← world).ledger
  require l.owners.isEmpty .invalidSetting
  require ((← l.systemDebt) == 0) .invalidSetting
  require (incentive.collateralDivisor != 0) .invalidSetting
  onLedger fun l => return { l with incentive }

/-- The contracts the ledger works with. -/
def ledgerLinks : Action Ledger.Links := do
  match (← world).ledger.links? with
  | some links => return links
  | none => refuse .notWired

/-- Whether a position may be opened at a price. -/
def checkOpening (l : Ledger) (holding : Holding) (price : Nat) : Checked Unit := do
  let ratio ← Ratio.collateral holding.collateral holding.debt price
  if ← l.recovering price then
    require (Ratio.critical ≤ ratio) .belowCriticalInRecovery
  else
    require (Ratio.minimum ≤ ratio) .belowMinimum
    let coll ← Amount.add (← l.systemCollateral) holding.collateral
    let debt ← Amount.add (← l.systemDebt) holding.debt
    let total ← Ratio.collateral coll debt price
    require (Ratio.critical ≤ total) .newTotalBelowCritical

/-- Opens a trove for the caller, who receives the debt as stablecoin; the
compensation for a later liquidation is minted on top and set aside. -/
def borrow (caller : Address) (collateral debt : Nat) (hint : TroveList.Slot) :
    Action Unit := do
  require (!(← world).ledger.isActive caller) .troveAlreadyActive
  require (collateral != 0) .zeroCollateral
  require (debt != 0) .zeroDebt
  let links ← ledgerLinks
  let price ← priceFrom links.feed
  let l := (← world).ledger
  let reserve := l.incentive.debtCompensation
  let holding : Holding := { collateral, debt := ← Amount.add debt reserve }
  checkOpening l holding price
  require (← drawFrom links.collateral ledgerAddress caller ledgerAddress collateral)
    .transferFailed
  onLedger (·.enroll caller holding)
  emit (.stakesChanged (← world).ledger.totalStakes)
  let ratio ← Ratio.nominal holding.collateral holding.debt
  via links.list .list "insert" (listInsert ledgerAddress caller ratio hint)
  onLedger fun l => return { l with activePool := ← l.activePool.add holding }
  mint links.coin ledgerAddress caller debt
  mint links.coin ledgerAddress ledgerAddress reserve
  emit (.troveChanged caller ((← world).ledger.trove caller))

/-- Moves a settled trove to the place of its new ratio, starting from where
it is. -/
def relist (list borrower : Address) (holding : Holding) : Action Unit := do
  let before? ← via list .list "get_prev" (return (← world).list.prev? borrower)
  let after? ← via list .list "get_next" (return (← world).list.next? borrower)
  let ratio ← Ratio.nominal holding.collateral holding.debt
  via list .list "re_insert"
    (listReposition ledgerAddress borrower ratio { before?, after? })

/-- Settles a borrower's pending rewards. -/
def settleRewards (borrower : Address) : Action Unit := do
  require ((← world).ledger.isActive borrower) .troveNotActive
  let links ← ledgerLinks
  let s ← (← world).ledger.settlement borrower
  onLedger fun l => return { l with marks := l.marks.set borrower s.mark }
  if !s.applied.isZero then
    onLedger (·.activate s.applied)
    onLedger fun l => return { l with troves := l.troves.set borrower s.trove }
    relist links.list borrower s.trove.toHolding
    emit (.troveChanged borrower s.trove)

end Protocol

end Troves
