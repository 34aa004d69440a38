/-
# Price requests

Fetching a price moves the feed's trust from one source to another where
the readings demand it, and never fails because of what a source reports.
-/
import Troves.Protocol.Access

namespace Troves

namespace Protocol

open Troves.Action (world update emit)

/-- The price to use now. -/
def currentPrice : Action Nat := do
  let w ← world
  let d ← w.feed.decideAt w.round? w.quote? w.time
  let feed := w.feed.follow d
  update fun w => { w with feed }
  if d.status ≠ w.feed.status then
    emit (.statusChanged d.status)
  if let some price := d.choice.price? then
    emit (.priceTaken price)
  return feed.lastGood

/-- The price as the feed at an address gives it. -/
def priceFrom (feed : Address) : Action Nat := via feed .feed "fetch_price" currentPrice

/-- Replaces the feed's settings. -/
def configureFeed (caller : Address) (settings : Price.Settings) : Action Unit := do
  onlyAdmin caller
  require settings.acceptable .invalidSetting
  update fun w => { w with feed := { w.feed with settings } }

end Protocol

end Troves
