/-
# Deployment

How the contracts come into the world, and how they are usually wired: each
is told its collaborators once, the stablecoin obeys the ledger and the
stability pool, and the payment for liquidations is set.
-/
import Troves.Request

namespace Troves

/-- What is decided at deployment. -/
structure Deployment where
  /-- The account that deploys and administers everything. -/
  deployer : Address
  time : Nat
  feedId : String
  round? : Option Price.Round
  quote? : Option Price.Quote
  /-- How many troves the list can hold. -/
  capacity : Nat

/-- What is decided when the contracts are wired. -/
structure Wiring where
  /-- The token that serves as collateral. -/
  token : Address := Contract.collateralToken.address
  incentive? : Option Liquidation.Incentive

/-- The requests that wire the contracts to each other. -/
def Wiring.requests (w : Wiring) : List Request :=
  let ledger := Contract.ledger.address
  let pool := Contract.stabilityPool.address
  let coin := Contract.coin.address
  [.wireLedger {
      feed := Contract.feed.address
      list := Contract.list.address
      pool
      escrow := Contract.escrow.address
      coin
      collateral := w.token },
   .wireList ledger,
   .wirePool { manager := ledger, coin, collateral := w.token },
   .wireEscrow { manager := ledger, collateral := w.token },
   .grant ledger,
   .grant pool]
    ++ w.incentive?.toList.map .setIncentive

namespace Deployment

/-- Deploys the contracts.  The feed needs a live price of the primary
oracle, and a list without room is refused. -/
def deploy (d : Deployment) : Checked World := do
  let feed ← Price.Feed.start { feedId := d.feedId } d.round? d.time
  require (d.capacity != 0) .invalidSetting
  return {
    admin := d.deployer
    time := d.time
    round? := d.round?
    quote? := d.quote?
    feed
    list := { capacity := d.capacity } }

/-- Deploys the contracts and wires them, if that is wanted. -/
def start (d : Deployment) (wiring? : Option Wiring) : Checked (Outcome Unit) := do
  let w ← d.deploy
  let requests := (wiring?.map (·.requests)).getD []
  let o ← Request.performAll d.deployer requests w
  return { o with events := .priceTaken w.feed.lastGood :: o.events }

end Deployment

end Troves
