/-
# The price feed

One price out of two sources.  The primary is the authority while it
works; the secondary takes over when the primary breaks, freezes or
disagrees; when neither can be trusted the last good price is served.

`judge` is the table of transitions: from the status so far and the two
readings to the next status and the price to use.  It is organised by the
readings, since most of them leave the status little choice.
-/
import Troves.Price.Reading

namespace Troves

namespace Price

/-- Which source is trusted. -/
inductive Status where
  /-- The primary is trusted and used. -/
  | primaryWorking
  /-- The secondary is used; the primary is broken or disagrees. -/
  | primaryUntrusted
  /-- Neither is trusted; the last good price is served. -/
  | bothUntrusted
  /-- The secondary is used while the primary is frozen. -/
  | primaryFrozen
  /-- The primary is used; the secondary is broken or disagrees. -/
  | secondaryUntrusted
deriving DecidableEq, Repr

namespace Status

/-- All statuses. -/
def all : List Status :=
  [primaryWorking, primaryUntrusted, bothUntrusted, primaryFrozen, secondaryUntrusted]

/-- The word under which a status is published. -/
def name : Status → String
  | primaryWorking => "PrimaryWorking"
  | primaryUntrusted => "UsingSecondaryPrimaryUntrusted"
  | bothUntrusted => "BothUntrusted"
  | primaryFrozen => "UsingSecondaryPrimaryFrozen"
  | secondaryUntrusted => "UsingPrimarySecondaryUntrusted"

/-- The status published under a word. -/
def ofName? (word : String) : Option Status := all.find? fun s => s.name == word

end Status

/-- Where the price to use comes from. -/
inductive Choice where
  | primary (price : Nat)
  | secondary (price : Nat)
  | lastGood
deriving DecidableEq, Repr

/-- The fresh price of a choice, if it has one. -/
def Choice.price? : Choice → Option Nat
  | .primary p => some p
  | .secondary p => some p
  | .lastGood => none

/-- The outcome of one pass through the table. -/
structure Decision where
  status : Status
  choice : Choice
deriving DecidableEq, Repr

/-- Whether two prices differ by at most a given part of the larger one. -/
def agree (a b maxDeviation : Nat) : Checked Bool :=
  if max a b = 0 then
    return true
  else do
    let deviation ← Amount.mulDiv (Amount.distance a b) Amount.one (max a b)
    return decide (deviation ≤ maxDeviation)

/-- What follows when both sources are live and disagree. -/
def onDisagreement (status : Status) (p s : Nat) : Decision :=
  match status with
  | .primaryWorking | .secondaryUntrusted => ⟨.secondaryUntrusted, .primary p⟩
  | .primaryUntrusted | .primaryFrozen => ⟨.primaryUntrusted, .secondary s⟩
  | .bothUntrusted => ⟨.bothUntrusted, .lastGood⟩

/-- What follows when the primary is broken. -/
def onPrimaryBroken (status : Status) (secondary : Reading) : Decision :=
  match status, secondary with
  | .bothUntrusted, _ | .secondaryUntrusted, _ | _, .broken => ⟨.bothUntrusted, .lastGood⟩
  | _, .frozen => ⟨.primaryUntrusted, .lastGood⟩
  | _, .live s => ⟨.primaryUntrusted, .secondary s⟩

/-- What follows when the primary is frozen. -/
def onPrimaryFrozen (status : Status) (secondary : Reading) : Decision :=
  match status, secondary with
  | .bothUntrusted, _ | .primaryUntrusted, .broken => ⟨.bothUntrusted, .lastGood⟩
  | .secondaryUntrusted, _ | _, .broken => ⟨.secondaryUntrusted, .lastGood⟩
  | .primaryUntrusted, .frozen => ⟨.primaryUntrusted, .lastGood⟩
  | .primaryUntrusted, .live s => ⟨.primaryUntrusted, .secondary s⟩
  | _, .frozen => ⟨.primaryFrozen, .lastGood⟩
  | _, .live s => ⟨.primaryFrozen, .secondary s⟩

/-- The next status and the price to use. -/
def judge (status : Status) (primary secondary : Reading) (maxDeviation : Nat) :
    Checked Decision :=
  match primary, secondary with
  | .live p, .live s => do
    if ← agree p s maxDeviation then
      return ⟨.primaryWorking, .primary p⟩
    return onDisagreement status p s
  | .live p, .frozen =>
    return ⟨if status = .primaryWorking then .primaryWorking else .secondaryUntrusted,
      .primary p⟩
  | .live p, .broken => return ⟨.secondaryUntrusted, .primary p⟩
  | .frozen, _ => return onPrimaryFrozen status secondary
  | .broken, _ => return onPrimaryBroken status secondary

/-- How the feed reads its sources. -/
structure Settings where
  /-- Age in milliseconds from which a round is frozen: three hours. -/
  primaryTimeout : UInt64 := 10800000
  /-- Age in milliseconds from which a quote is frozen: four hours. -/
  secondaryTimeout : UInt64 := 14400000
  /-- Part of the larger price by which agreeing prices may differ: 5%. -/
  maxDeviation : Nat := Amount.one / 20
  /-- Widest confidence interval in basis points of the price: 5%. -/
  maxConfidence : UInt64 := 500
  feedId : String := ""
deriving DecidableEq

/-- Settings the feed accepts: timeouts that are not zero and a deviation
above nothing and up to the whole price. -/
def Settings.acceptable (s : Settings) : Bool :=
  s.primaryTimeout != 0 && s.secondaryTimeout != 0 && s.maxDeviation != 0
    && s.maxDeviation ≤ Amount.one

/-- What the settings ask of a quote. -/
def Settings.terms (s : Settings) : Terms where
  timeout := s.secondaryTimeout.toNat
  maxConfidence := s.maxConfidence.toNat
  feedId := s.feedId

/-- The state of the feed. -/
structure Feed where
  settings : Settings
  status : Status := .primaryWorking
  lastGood : Nat
deriving DecidableEq

namespace Feed

/-- A feed starts from a live price of the primary source. -/
def start (settings : Settings) (round? : Option Round) (now : Nat) : Checked Feed := do
  match ← readRound round? now settings.primaryTimeout.toNat with
  | .live price => return { settings, lastGood := price }
  | _ => refuse .primaryUnusable

/-- What the feed makes of the two reports at this moment. -/
def decideAt (f : Feed) (round? : Option Round) (quote? : Option Quote) (now : Nat) :
    Checked Decision := do
  let primary ← readRound round? now f.settings.primaryTimeout.toNat
  let secondary ← readQuote quote? now f.settings.terms
  judge f.status primary secondary f.settings.maxDeviation

/-- The feed after a decision; its last good price is the price to use. -/
def follow (f : Feed) (d : Decision) : Feed :=
  { f with status := d.status, lastGood := d.choice.price?.getD f.lastGood }

end Feed

end Price

end Troves
