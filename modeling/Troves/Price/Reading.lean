/-
# Readings

What the two price sources report, and how far a report can be trusted at
the moment it is read.  The primary source publishes rounds, the secondary
publishes quotes with a confidence interval; either way a reading is a
price with eighteen decimal places, or the news that the source is broken
or has gone quiet.
-/
import Troves.Amount

namespace Troves

namespace Price

/-- The latest round of the primary source; times are in milliseconds. -/
structure Round where
  /-- The price, scaled by ten to the decimals. -/
  answer : Int64
  decimals : UInt8
  updatedAt : UInt64
deriving DecidableEq

/-- The latest quote of the secondary source. -/
structure Quote where
  /-- The price is this number times ten to the exponent. -/
  mantissa : Int64
  /-- Confidence interval, in units of the mantissa. -/
  confidence : UInt64
  exponent : Int32
  publishedAt : UInt64
  feedId : String
deriving DecidableEq

/-- The health of one source when it is read. -/
inductive Reading where
  | broken
  | frozen
  | live (price : Nat)
deriving DecidableEq, Repr

/-- A price that rounds to nothing counts as broken. -/
def Reading.ofPrice (price : Nat) : Reading :=
  if price = 0 then .broken else .live price

/-- The most decimal places a source may report. -/
def maxDecimals : Nat := 36

/-- The highest power of ten a quote may be scaled by. -/
def maxExponent : Int := 18

/-- The whole of a confidence share, in basis points. -/
def basisPoints : Nat := 10000

/-- A mantissa times ten to the exponent, at eighteen decimal places and
rounded down. -/
def rescale (mantissa : Nat) (exponent : Int) : Checked Nat :=
  let shift := 18 + exponent
  if 0 ≤ shift then do
    Amount.mul mantissa (← Amount.powTen shift.toNat)
  else do
    Amount.div mantissa (← Amount.powTen (-shift).toNat)

/-- Whether a round is usable at all: positive, dated, not from the future
and not too fine. -/
def Round.sound (r : Round) (now : Nat) : Bool :=
  0 < r.answer.toInt && r.updatedAt != 0 && r.updatedAt.toNat ≤ now
    && r.decimals.toNat ≤ maxDecimals

/-- Reads a round: broken if it is missing or not sound, frozen if it is
older than the timeout. -/
def readRound (round? : Option Round) (now timeout : Nat) : Checked Reading :=
  match round? with
  | none => return .broken
  | some r =>
    if r.sound now then do
      let age ← Amount.sub now r.updatedAt.toNat
      if timeout < age then
        return .frozen
      return .ofPrice (← rescale r.answer.toInt.toNat (-(r.decimals.toNat : Int)))
    else
      return .broken

/-- What a quote has to satisfy. -/
structure Terms where
  /-- Age from which a quote is frozen. -/
  timeout : Nat
  /-- Widest confidence interval, in basis points of the price. -/
  maxConfidence : Nat
  feedId : String
deriving DecidableEq, Repr

/-- Whether a quote is usable at all: positive, dated, not from the future,
of the right feed and within scale. -/
def Quote.sound (q : Quote) (now : Nat) (feedId : String) : Bool :=
  0 < q.mantissa.toInt && q.publishedAt != 0 && q.publishedAt.toNat ≤ now
    && q.feedId == feedId && -(maxDecimals : Int) ≤ q.exponent.toInt
    && q.exponent.toInt ≤ maxExponent

/-- Reads a quote: broken if it is missing, not sound or too uncertain,
frozen if it is older than the timeout. -/
def readQuote (quote? : Option Quote) (now : Nat) (terms : Terms) : Checked Reading :=
  match quote? with
  | none => return .broken
  | some q =>
    if q.sound now terms.feedId then do
      let mantissa := q.mantissa.toInt.toNat
      let widest ← Amount.mul mantissa terms.maxConfidence
      let width ← Amount.mul q.confidence.toNat basisPoints
      if widest < width then
        return .broken
      let age ← Amount.sub now q.publishedAt.toNat
      if terms.timeout < age then
        return .frozen
      return .ofPrice (← rescale mantissa q.exponent.toInt)
    else
      return .broken

end Price

end Troves
