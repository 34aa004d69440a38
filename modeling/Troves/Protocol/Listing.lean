/-
# List requests

Only the list's keeper may change it.  Ratios are read from the keeper
too, as they are at the moment of the request.
-/
import Troves.Protocol.Access

namespace Troves

namespace Protocol

open Troves.Action (world update emit)

/-- Sets the list's keeper, once. -/
def wireList (caller keeper : Address) : Action Unit := do
  onlyAdmin caller
  require (← world).list.keeper?.isNone .alreadyWired
  onList fun l => return { l with keeper? := some keeper }

/-- Goes on only for the list's keeper. -/
def onlyKeeper (caller : Address) : Action Unit := do
  require ((← world).list.keeper? == some caller) .callerNotTrusted

/-- Lists an owner. -/
def listInsert (caller id : Address) (ratio : Nat) (hint : TroveList.Slot) : Action Unit := do
  onlyKeeper caller
  let w ← world
  onList (·.insert w.liveRatio id ratio hint)
  emit (.listed id ratio)

/-- Takes an owner off the list. -/
def listRemove (caller id : Address) : Action Unit := do
  onlyKeeper caller
  onList (·.detach id)
  emit (.unlisted id)

/-- Moves an owner to the place of a new ratio. -/
def listReposition (caller id : Address) (ratio : Nat) (hint : TroveList.Slot) : Action Unit := do
  onlyKeeper caller
  let w ← world
  onList (·.reposition w.liveRatio id ratio hint)
  emit (.listed id ratio)

end Protocol

end Troves
