/-
# Token ledgers

Balances, allowances and the supply of one token.  The stablecoin and the
collateral token keep the same books; they differ in who may mint, burn
and move, and that is decided before these operations are reached.
-/
import Troves.Address
import Troves.Amount
import Troves.Table

namespace Troves

/-- The books of one token. -/
structure Token where
  balances : Table Address Nat := ∅
  /-- What an owner (first) lets a spender (second) move. -/
  allowances : Table (Address × Address) Nat := ∅
  supply : Nat := 0
deriving DecidableEq

namespace Token

/-- What an address holds. -/
def balance (t : Token) (a : Address) : Nat := t.balances.getD a 0

/-- What a spender may still move for an owner. -/
def allowance (t : Token) (owner spender : Address) : Nat :=
  t.allowances.getD (owner, spender) 0

/-- Writes a balance. -/
def setBalance (t : Token) (a : Address) (amount : Nat) : Token :=
  { t with balances := t.balances.set a amount }

/-- Sets an allowance, whatever it was. -/
def approve (t : Token) (owner spender : Address) (amount : Nat) : Token :=
  { t with allowances := t.allowances.set (owner, spender) amount }

/-- Moves an amount from one holder to another. -/
def move (t : Token) (source target : Address) (amount : Nat) : Checked Token := do
  require (amount ≤ t.balance source) .insufficientBalance
  let t := t.setBalance source (t.balance source - amount)
  return t.setBalance target (← Amount.add (t.balance target) amount)

/-- Moves an amount on the owner's behalf and uses up that much allowance. -/
def draw (t : Token) (spender owner target : Address) (amount : Nat) : Checked Token := do
  let allowed := t.allowance owner spender
  require (amount ≤ allowed) .insufficientAllowance
  (t.approve owner spender (allowed - amount)).move owner target amount

/-- Creates an amount. -/
def mint (t : Token) (target : Address) (amount : Nat) : Checked Token := do
  let t := t.setBalance target (← Amount.add (t.balance target) amount)
  return { t with supply := ← Amount.add t.supply amount }

/-- Destroys an amount of a holder's. -/
def burn (t : Token) (source : Address) (amount : Nat) : Checked Token := do
  require (amount ≤ t.balance source) .insufficientBalance
  let t := t.setBalance source (t.balance source - amount)
  return { t with supply := ← Amount.sub t.supply amount }

/-! ## Published dictionaries -/

/-- The published balance under a key, if one was ever written. -/
def balanceEntry? (t : Token) (key : String) : Option Nat :=
  (t.balances.entries.find? fun e => e.1.key == key).map Prod.snd

/-- The published allowance under a key, if one was ever written. -/
def allowanceEntry? (t : Token) (key : String) : Option Nat :=
  (t.allowances.entries.find? fun e => Address.pairKey e.1.1 e.1.2 == key).map Prod.snd

end Token

end Troves
