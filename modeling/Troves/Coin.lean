/-
# The stablecoin

The token in which debt is owed.  Any holder may move its own coins; only
the protocol's contracts may mint, burn, or move the coins of others.
-/
import Troves.Token

namespace Troves

/-- The stablecoin's books and the contracts it obeys. -/
structure Coin where
  token : Token := {}
  /-- The contracts that may mint, burn and move. -/
  protocols : List Address := []
deriving DecidableEq

namespace Coin

/-- The coin's name. -/
def name : String := "Stake USD"

/-- The coin's ticker. -/
def symbol : String := "SUSD"

/-- The decimal places of its amounts. -/
def decimals : Nat := 18

/-- Whether an address may mint, burn and move. -/
def obeys (s : Coin) (a : Address) : Bool := s.protocols.contains a

/-- Lets a contract mint, burn and move. -/
def grant (s : Coin) (a : Address) : Coin :=
  if s.obeys a then s else { s with protocols := s.protocols ++ [a] }

/-- Takes that right away again. -/
def revoke (s : Coin) (a : Address) : Coin :=
  { s with protocols := s.protocols.filter fun b => b ≠ a }

/-- A value published under a word. -/
inductive Published where
  | text (s : String)
  | number (n : Nat)
deriving DecidableEq, Repr

/-- What the coin publishes about itself. -/
def published? (s : Coin) (word : String) : Option Published :=
  match word with
  | "name" => some (.text name)
  | "symbol" => some (.text symbol)
  | "decimals" => some (.number decimals)
  | "total_supply" => some (.number s.token.supply)
  | _ => none

end Coin

end Troves
