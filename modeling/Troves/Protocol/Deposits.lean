/-
# Stability pool requests

Depositors come and go on their own account, and every visit pays out what
they have gained; offsets come from the pool's manager alone.
-/
import Troves.Protocol.Tokens

namespace Troves

namespace Protocol

open Troves.Action (world update emit emitAll)

/-- The pool's own address. -/
def poolAddress : Address := Contract.stabilityPool.address

/-- Names the contracts the pool works with, once. -/
def wirePool (caller : Address) (links : Stability.Links) : Action Unit := do
  onlyAdmin caller
  require (← world).pool.links?.isNone .alreadyWired
  onPool fun p => return { p with links? := some links }

/-- The contracts the pool works with. -/
def poolLinks : Action Stability.Links := do
  match (← world).pool.links? with
  | some links => return links
  | none => refuse .notWired

/-- Moves stablecoin into or out of the pool. -/
def poolMove (source target : Address) (amount : Nat) : Action Unit := do
  via (← poolLinks).coin .coin "protocol_transfer"
    (moveCoin poolAddress source target amount)

/-- Pays a depositor's gain and reports it with the loss since last time. -/
def payGain (depositor : Address) (gain loss : Nat) : Action Unit := do
  emit (.gainPaid depositor gain loss)
  if gain ≠ 0 then
    onPool fun p => return { p with collateral := ← Amount.sub p.collateral gain }
    pay (← poolLinks).collateral poolAddress depositor gain

/-- Records a depositor's new deposit. -/
def recordDeposit (depositor : Address) (amount : Nat) : Action Unit := do
  onPool fun p => return p.record depositor amount
  emit (.depositChanged depositor amount)

/-- Adds to the caller's deposit. -/
def provide (caller : Address) (amount : Nat) : Action Unit := do
  require (amount != 0) .zeroAmount
  let p := (← world).pool
  let before := (p.deposit caller).amount
  let gain ← p.earned caller
  let left ← p.remaining caller
  poolMove caller poolAddress amount
  onPool fun p => return { p with total := ← Amount.add p.total amount }
  if before = 0 then
    onPool fun p => return { p with depositors := ← Counter.next p.depositors }
  recordDeposit caller (← Amount.add left amount)
  payGain caller gain (before - left)

/-- Takes up to an amount out of the caller's deposit. -/
def withdraw (caller : Address) (amount : Nat) : Action Unit := do
  let p := (← world).pool
  let before := (p.deposit caller).amount
  require (before != 0) .noDeposit
  let gain ← p.earned caller
  let left ← p.remaining caller
  let taken := min amount left
  if taken ≠ 0 then
    poolMove poolAddress caller taken
    onPool fun p => return { p with total := ← Amount.sub p.total taken }
  if left - taken = 0 then
    onPool fun p => return { p with depositors := p.depositors - 1 }
  recordDeposit caller (left - taken)
  payGain caller gain (before - left)

/-- What an offset reports about the sum and the product. -/
def offsetEvents (before after : Stability.Pool) : List Event :=
  [.sumGrew before.state.epoch before.state.scale
      (after.sumAt before.state.epoch before.state.scale)]
    ++ (if after.state.epoch ≠ before.state.epoch then
          [.epochBegan after.state.epoch] else [])
    ++ (if after.state.scale ≠ before.state.scale then
          [.scaleBegan after.state.scale] else [])
    ++ [.productChanged after.state.product]

/-- Cancels debt against the deposits and burns as much stablecoin.  The
collateral for it has to be there already. -/
def offset (caller : Address) (debt coll : Nat) : Action Unit := do
  let before := (← world).pool
  require (before.links?.map (·.manager) == some caller) .callerNotTrusted
  if before.total ≠ 0 ∧ debt ≠ 0 then
    require (debt ≤ before.total) .offsetExceedsDeposits
    onPool (·.absorb debt coll)
    emitAll (offsetEvents before (← world).pool)
    via (← poolLinks).coin .coin "burn_from" (burnCoin poolAddress poolAddress debt)
    emit (.debtOffset debt coll)

end Protocol

end Troves
