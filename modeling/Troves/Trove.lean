/-
# Troves

A trove is one borrower's position: the collateral locked, the debt owed,
and the stake that measures its share of redistributed losses.  The
recorded amounts leave out rewards that have not been settled yet; an
`Entire` position is the recorded one with its pending rewards added.
-/
import Troves.Holding

namespace Troves

/-- The stages of a trove's life. -/
inductive Trove.Status where
  | absent
  | active
  | closedByOwner
  | closedByLiquidation
  | closedByRedemption
deriving DecidableEq, Repr

namespace Trove.Status

/-- All stages. -/
def all : List Trove.Status :=
  [absent, active, closedByOwner, closedByLiquidation, closedByRedemption]

/-- The word under which a stage is published. -/
def name : Trove.Status → String
  | absent => "NonExistent"
  | active => "Active"
  | closedByOwner => "ClosedByOwner"
  | closedByLiquidation => "ClosedByLiquidation"
  | closedByRedemption => "ClosedByRedemption"

/-- The stage published under a word. -/
def ofName? (word : String) : Option Trove.Status := all.find? fun s => s.name == word

end Trove.Status

/-- One borrower's position. -/
structure Trove extends Holding where
  /-- Share of redistributed rewards. -/
  stake : Nat := 0
  status : Trove.Status := .absent
  /-- Place in the list of owners. -/
  slot : Nat := 0
deriving DecidableEq, Repr

/-- Whether the trove is open. -/
def Trove.isActive (t : Trove) : Bool := t.status == .active

/-- A trove's amounts with its pending rewards included. -/
structure Entire extends Holding where
  /-- The part that is still pending. -/
  pending : Holding := {}
deriving DecidableEq, Repr

end Troves
