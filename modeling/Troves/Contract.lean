/-
# Contracts

The contracts that live on the network, each at an address of its own.
Six of them are the protocol.  The others are what it works with: two
oracles, a collateral token, a board on which ratios can be posted (a list
may be keyed by it), and a hollow token that answers every transfer with
one preset word and moves nothing.
-/
import Troves.Address
import Troves.Fault

namespace Troves

/-- The contracts on the network. -/
inductive Contract where
  | primaryOracle
  | secondaryOracle
  | collateralToken
  | feed
  | list
  | coin
  | stabilityPool
  | escrow
  | ledger
  | board
  | hollowToken
deriving DecidableEq, Repr

namespace Contract

/-- All contracts. -/
def all : List Contract :=
  [primaryOracle, secondaryOracle, collateralToken, feed, list, coin,
   stabilityPool, escrow, ledger, board, hollowToken]

/-- The package whose hash has this first byte and is zero otherwise. -/
def tagged (byte : Nat) : Address := .package (BitVec.ofNat 256 (byte <<< 248))

/-- Where a contract lives. -/
def address : Contract → Address
  | primaryOracle => tagged 0x20
  | secondaryOracle => tagged 0x30
  | collateralToken => tagged 0x40
  | feed => tagged 0x50
  | list => tagged 0x60
  | coin => tagged 0x70
  | stabilityPool => tagged 0x80
  | escrow => tagged 0x90
  | ledger => tagged 0x11
  | board => tagged 0x12
  | hollowToken => tagged 0x13

/-- The contract that lives at an address, if any does. -/
def find? (a : Address) : Option Contract := all.find? fun c => c.address == a

/-- The contract at an address that is called. -/
def locate (a : Address) : Checked Contract :=
  match find? a with
  | some c => .ok c
  | none => .error .notAContract

theorem mem_all (c : Contract) : c ∈ all := by cases c <;> decide

@[simp] theorem find?_address (c : Contract) : find? c.address = some c := by
  cases c <;> decide

@[simp] theorem locate_address (c : Contract) : locate c.address = .ok c := by
  unfold locate; rw [find?_address]

end Contract

end Troves
