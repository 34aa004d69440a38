/-
# Requests

Everything the contracts can be asked to do that may change the world.  A
request comes from a caller, is carried out as one action, and is undone
as a whole if anything in it fails.
-/
import Troves.Protocol.Liquidating

namespace Troves

/-- What a holder can ask of either token. -/
inductive TokenRequest where
  | transfer (target : Address) (amount : Nat)
  | approve (spender : Address) (amount : Nat)
  | drawFrom (owner target : Address) (amount : Nat)
deriving DecidableEq, Repr

/-- What the contracts can be asked to do. -/
inductive Request where
  | reportRound (round? : Option Price.Round)
  | reportQuote (quote? : Option Price.Quote)
  | collateral (request : TokenRequest)
  | mintCollateral (target : Address) (amount : Nat)
  | coin (request : TokenRequest)
  | mintCoin (target : Address) (amount : Nat)
  | burnCoin (source : Address) (amount : Nat)
  | moveCoin (source target : Address) (amount : Nat)
  | grant (contract : Address)
  | revoke (contract : Address)
  | currentPrice
  | configureFeed (settings : Price.Settings)
  | wireList (keeper : Address)
  | listInsert (id : Address) (ratio : Nat) (hint : TroveList.Slot)
  | listRemove (id : Address)
  | listReposition (id : Address) (ratio : Nat) (hint : TroveList.Slot)
  | wirePool (links : Stability.Links)
  | provide (amount : Nat)
  | withdraw (amount : Nat)
  | offset (debt collateral : Nat)
  | wireEscrow (links : Escrow.Links)
  | creditSurplus (owner : Address) (amount : Nat)
  | claimSurplus (owner : Address)
  | wireLedger (links : Ledger.Links)
  | setIncentive (incentive : Liquidation.Incentive)
  | borrow (collateral debt : Nat) (hint : TroveList.Slot)
  | settleRewards (borrower : Address)
  | liquidateOne (borrower : Address)
  | liquidateRiskiest (most : Nat)
  | liquidateAll (borrowers : List Address)
  | postRatio (owner : Address) (ratio : Nat)
  | setHollowAnswer (answer : Bool)
deriving DecidableEq

/-- What a request answers. -/
inductive Reply where
  | done
  | flag (b : Bool)
  | amount (n : Nat)
  | totals (t : Liquidation.Totals)
deriving DecidableEq, Repr

/-- What a holder's request does to a token's books. -/
def TokenRequest.apply (r : TokenRequest) (caller : Address) (t : Token) : Checked Token :=
  match r with
  | .transfer target amount => t.move caller target amount
  | .approve spender amount => return t.approve caller spender amount
  | .drawFrom owner target amount => t.draw caller owner target amount

namespace Request

open Troves.Action (update)

/-- An action without an answer of its own. -/
def silent (act : Action Unit) : Action Reply := do
  act
  return .done

/-- Carries a request out for a caller. -/
def perform (caller : Address) : Request → Action Reply
  | reportRound round? => silent (update fun w => { w with round? })
  | reportQuote quote? => silent (update fun w => { w with quote? })
  | collateral r => do
    Protocol.onCollateral (r.apply caller)
    return .flag true
  | mintCollateral target amount => silent (Protocol.onCollateral (·.mint target amount))
  | coin r => do
    Protocol.onCoin (r.apply caller)
    return .flag true
  | mintCoin target amount => silent (Protocol.mintCoin caller target amount)
  | burnCoin source amount => silent (Protocol.burnCoin caller source amount)
  | moveCoin source target amount => silent (Protocol.moveCoin caller source target amount)
  | grant c => silent (Protocol.changeProtocols caller (·.grant c))
  | revoke c => silent (Protocol.changeProtocols caller (·.revoke c))
  | currentPrice => return .amount (← Protocol.currentPrice)
  | configureFeed settings => silent (Protocol.configureFeed caller settings)
  | wireList keeper => silent (Protocol.wireList caller keeper)
  | listInsert id ratio hint => silent (Protocol.listInsert caller id ratio hint)
  | listRemove id => silent (Protocol.listRemove caller id)
  | listReposition id ratio hint => silent (Protocol.listReposition caller id ratio hint)
  | wirePool links => silent (Protocol.wirePool caller links)
  | provide amount => silent (Protocol.provide caller amount)
  | withdraw amount => silent (Protocol.withdraw caller amount)
  | offset debt coll => silent (Protocol.offset caller debt coll)
  | wireEscrow links => silent (Protocol.wireEscrow caller links)
  | creditSurplus owner amount => silent (Protocol.creditSurplus caller owner amount)
  | claimSurplus owner => silent (Protocol.claimSurplus owner)
  | wireLedger links => silent (Protocol.wireLedger caller links)
  | setIncentive incentive => silent (Protocol.setIncentive caller incentive)
  | borrow coll debt hint => silent (Protocol.borrow caller coll debt hint)
  | settleRewards borrower => silent (Protocol.settleRewards borrower)
  | liquidateOne borrower => return .totals (← Protocol.liquidateOne caller borrower)
  | liquidateRiskiest most => return .totals (← Protocol.liquidateRiskiest caller most)
  | liquidateAll borrowers => return .totals (← Protocol.liquidateAll caller borrowers)
  | postRatio owner ratio =>
    silent (update fun w => { w with board := w.board.set owner ratio })
  | setHollowAnswer answer => silent (update fun w => { w with hollowAnswer := answer })

/-- Carries requests out in turn, all or none of them. -/
def performAll (caller : Address) : List Request → Action Unit
  | [] => return ()
  | r :: rs => do
    discard <| r.perform caller
    performAll caller rs

/-- Carries requests out one after the other, each for its own caller.  The
first that fails ends the run, and what was done before it stays; the reply
is that of the last request. -/
def performEach : List (Address × Request) → World → World × Checked (Reply × List Event)
  | [], w => (w, .ok (.done, []))
  | [(caller, r)], w =>
    match r.perform caller w with
    | .error e => (w, .error e)
    | .ok o => (o.world, .ok (o.value, o.events))
  | (caller, r) :: rs, w =>
    match r.perform caller w with
    | .error e => (w, .error e)
    | .ok o =>
      let (w', rest) := performEach rs o.world
      (w', rest.map fun (reply, events) => (reply, o.events ++ events))

end Request

end Troves
