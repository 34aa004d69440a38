/-
# Liquidation requests

A liquidation examines one trove after another at one price.  For each
trove that may be liquidated the debt is offset against the stability pool
as far as the split says, the rest is spread over the remaining stakes,
a surplus is booked for the owner, and the caller is paid.  The mode is
derived anew from the live totals before every trove.
-/
import Troves.Protocol.Borrowing
import Troves.Protocol.Deposits
import Troves.Protocol.Escrowing

namespace Troves

namespace Protocol

open Troves.Action (world update emit)
open Liquidation (Split Totals Mode)

/-- Sends collateral out of the ledger, if there is any to send. -/
def sendOut (links : Ledger.Links) (target : Address) (amount : Nat) : Action Unit := do
  if amount ≠ 0 then
    pay links.collateral ledgerAddress target amount

/-- Closes a liquidated trove and takes it off the list. -/
def retire (links : Ledger.Links) (borrower : Address) : Action Unit := do
  onLedger fun l => return l.close borrower .closedByLiquidation
  via links.list .list "remove" (listRemove ledgerAddress borrower)
  emit (.troveChanged borrower ((← world).ledger.trove borrower))

/-- Offsets debt against the stability pool and sends collateral for it. -/
def offsetDebt (links : Ledger.Links) (s : Split) : Action Unit := do
  if s.debtToOffset ≠ 0 then
    onLedger (·.release { collateral := s.collateralToPool, debt := s.debtToOffset })
    sendOut links links.pool s.collateralToPool
    via links.pool .stabilityPool "offset"
      (offset ledgerAddress s.debtToOffset s.collateralToPool)

/-- Spreads an amount over the remaining stakes. -/
def spreadOut (amount : Holding) : Action Unit := do
  if !amount.isZero then
    let spread? ← (← world).ledger.spread? amount
    onLedger (·.bookSpread amount spread?)
    if spread?.isSome then
      emit (.indexGrew (← world).ledger.index)

/-- Sends an owner's surplus to the escrow and has it booked. -/
def setSurplusAside (links : Ledger.Links) (owner : Address) (amount : Nat) : Action Unit := do
  if amount ≠ 0 then
    onLedger (·.release { collateral := amount })
    sendOut links links.escrow amount
    via links.escrow .escrow "account_surplus" (creditSurplus ledgerAddress owner amount)

/-- Pays the liquidator in collateral and out of the stablecoin set aside. -/
def payCaller (links : Ledger.Links) (liquidator : Address) (s : Split) : Action Unit := do
  onLedger (·.release { collateral := s.collateralCompensation })
  sendOut links liquidator s.collateralCompensation
  if s.debtCompensation ≠ 0 then
    discard <| transfer links.coin ledgerAddress liquidator s.debtCompensation

/-- What happens to a trove whose split is settled. -/
def carryOut (links : Ledger.Links) (borrower liquidator : Address) (entire : Entire)
    (mode : Mode) (s : Split) : Action Unit := do
  onLedger (·.activate entire.pending)
  onLedger (·.dropStake borrower)
  emit (.stakesChanged (← world).ledger.totalStakes)
  retire links borrower
  offsetDebt links s
  spreadOut { collateral := s.collateralToSpread, debt := s.debtToSpread }
  setSurplusAside links borrower s.surplus
  onLedger (·.rebase s.collateralCompensation)
  emit (.baselineTaken (← world).ledger.baseline)
  payCaller links liquidator s
  emit (.troveClosed borrower entire.toHolding mode)

/-- Liquidates one trove, if it is open and eligible. -/
def liquidateIfDue (links : Ledger.Links) (borrower : Address) (price : Nat)
    (liquidator : Address) : Action (Option Split) := do
  let l := (← world).ledger
  if l.isActive borrower then
    let entire ← l.entire borrower
    let total ← l.totalRatio price
    let mode := Mode.ofTotal total
    let deposits ← via links.pool .stabilityPool "get_total_deposits"
      (return (← world).pool.total)
    let split? ← Liquidation.split? mode entire.debt entire.collateral price total deposits
      l.incentive
    if let some s := split? then
      carryOut links borrower liquidator entire mode s
    return split?
  else
    return none

/-- Liquidates the eligible ones of some borrowers, in their order. -/
def liquidateEach (links : Ledger.Links) (price : Nat) (liquidator : Address) :
    List Address → Totals → Action Totals
  | [], t => return t
  | b :: bs, t => do
    let split? ← liquidateIfDue links b price liquidator
    liquidateEach links price liquidator bs (← t.tally split?)

/-- Walks up the list from a place and liquidates the eligible troves, until
so many were examined or a ratio is reached from which on none is eligible. -/
def liquidateFrom (links : Ledger.Links) (price : Nat) (liquidator : Address) :
    Nat → Option Address → Totals → Action Totals
  | 0, _, t => return t
  | _ + 1, none, t => return t
  | n + 1, some b, t => do
    let next? ← via links.list .list "get_next" (return (← world).list.next? b)
    let l := (← world).ledger
    let ratio ← l.ratio b price
    let total ← l.totalRatio price
    if Liquidation.threshold total ≤ ratio then
      return t
    let split? ← liquidateIfDue links b price liquidator
    liquidateFrom links price liquidator n next? (← t.tally split?)

/-- Reports a liquidation, which has to have closed a trove. -/
def conclude (liquidator : Address) (t : Totals) : Action Totals := do
  require (t.troves != 0) .nothingToLiquidate
  emit (.liquidated liquidator t)
  return t

/-- Liquidates the given troves in order; inactive and ineligible ones are
passed over. -/
def liquidateAll (caller : Address) (borrowers : List Address) : Action Totals := do
  let links ← ledgerLinks
  let price ← priceFrom links.feed
  conclude caller (← liquidateEach links price caller borrowers {})

/-- Liquidates a single trove. -/
def liquidateOne (caller borrower : Address) : Action Totals := do
  require ((← world).ledger.isActive borrower) .troveNotActive
  liquidateAll caller [borrower]

/-- Examines up to so many troves from the riskiest on. -/
def liquidateRiskiest (caller : Address) (most : Nat) : Action Totals := do
  require (most != 0) .nothingToLiquidate
  let links ← ledgerLinks
  let price ← priceFrom links.feed
  let first? ← via links.list .list "get_first" (return (← world).list.head?)
  conclude caller (← liquidateFrom links price caller most first? {})

end Protocol

end Troves
