/-
# Refusals and faults

Why a request to the protocol does not go through.  A `Refusal` is a
decision of the protocol itself and carries a code and a sentence; the
other constructors of `Fault` are arithmetic that does not fit its word
and calls that reach no entry point.  Every operation of the library
answers in `Checked`, so a fault anywhere undoes the whole request.
-/

namespace Troves

/-- A reason for which the protocol turns a request down. -/
inductive Refusal where
  | troveNotActive
  | troveAlreadyActive
  | zeroCollateral
  | zeroDebt
  | belowMinimum
  | belowCriticalInRecovery
  | newTotalBelowCritical
  | primaryUnusable
  | callerNotAdmin
  | callerNotTrusted
  | alreadyWired
  | notWired
  | transferFailed
  | insufficientBalance
  | insufficientAllowance
  | zeroAmount
  | noDeposit
  | offsetExceedsDeposits
  | nothingToLiquidate
  | noCollateralAvailable
  | listFull
  | alreadyListed
  | notListed
  | zeroRatio
  | invalidSetting
deriving DecidableEq, Repr

namespace Refusal

/-- The refusals in the order of their codes. -/
def all : List Refusal :=
  [troveNotActive, troveAlreadyActive, zeroCollateral, zeroDebt, belowMinimum,
   belowCriticalInRecovery, newTotalBelowCritical, primaryUnusable,
   callerNotAdmin, callerNotTrusted, alreadyWired, notWired,
   transferFailed, insufficientBalance, insufficientAllowance,
   zeroAmount, noDeposit, offsetExceedsDeposits, nothingToLiquidate,
   noCollateralAvailable, listFull, alreadyListed, notListed, zeroRatio,
   invalidSetting]

/-- The code of a refusal; its hundreds name the concern: troves, oracles,
access, tokens, stability pool, liquidation, surplus and list, settings. -/
def code : Refusal → Nat
  | troveNotActive => 100
  | troveAlreadyActive => 101
  | zeroCollateral => 102
  | zeroDebt => 103
  | belowMinimum => 104
  | belowCriticalInRecovery => 105
  | newTotalBelowCritical => 106
  | primaryUnusable => 200
  | callerNotAdmin => 400
  | callerNotTrusted => 401
  | alreadyWired => 402
  | notWired => 403
  | transferFailed => 500
  | insufficientBalance => 501
  | insufficientAllowance => 502
  | zeroAmount => 600
  | noDeposit => 601
  | offsetExceedsDeposits => 602
  | nothingToLiquidate => 700
  | noCollateralAvailable => 800
  | listFull => 850
  | alreadyListed => 851
  | notListed => 852
  | zeroRatio => 853
  | invalidSetting => 900

/-- The word under which a refusal is published. -/
def name : Refusal → String
  | troveNotActive => "TroveNotActive"
  | troveAlreadyActive => "TroveAlreadyActive"
  | zeroCollateral => "ZeroCollateral"
  | zeroDebt => "ZeroDebt"
  | belowMinimum => "BelowMcr"
  | belowCriticalInRecovery => "BelowCcrInRecoveryMode"
  | newTotalBelowCritical => "NewTcrBelowCcr"
  | primaryUnusable => "PrimaryOracleUnavailable"
  | callerNotAdmin => "Unauthorized"
  | callerNotTrusted => "UnauthorizedProtocol"
  | alreadyWired => "AddressesAlreadySet"
  | notWired => "AddressesNotSet"
  | transferFailed => "TokenTransferFailed"
  | insufficientBalance => "InsufficientTokenBalance"
  | insufficientAllowance => "InsufficientAllowance"
  | zeroAmount => "SpZeroAmount"
  | noDeposit => "SpNoDeposit"
  | offsetExceedsDeposits => "SpOffsetExceedsDeposits"
  | nothingToLiquidate => "NothingToLiquidate"
  | noCollateralAvailable => "NoCollateralAvailable"
  | listFull => "ListFull"
  | alreadyListed => "ListContainsNode"
  | notListed => "ListMissingNode"
  | zeroRatio => "ZeroNicr"
  | invalidSetting => "InvalidConfig"

/-- The sentence that explains a refusal. -/
def message : Refusal → String
  | troveNotActive => "Trove does not exist or is closed"
  | troveAlreadyActive => "Trove already active for this owner"
  | zeroCollateral => "Collateral must be non-zero"
  | zeroDebt => "Debt must be non-zero"
  | belowMinimum => "Below minimum collateralization ratio"
  | belowCriticalInRecovery => "Recovery mode: ICR below critical ratio"
  | newTotalBelowCritical => "Operation would push TCR below critical ratio"
  | primaryUnusable => "Primary oracle has no usable price"
  | callerNotAdmin => "Unauthorized: caller is not admin"
  | callerNotTrusted => "Unauthorized: caller is not protocol contract"
  | alreadyWired => "Contract addresses already set"
  | notWired => "Contract addresses not set"
  | transferFailed => "Token transfer failed"
  | insufficientBalance => "Insufficient token balance"
  | insufficientAllowance => "Insufficient allowance"
  | zeroAmount => "Stability pool: amount must be non-zero"
  | noDeposit => "Stability pool: caller has no deposit"
  | offsetExceedsDeposits => "Stability pool: offset exceeds deposits"
  | nothingToLiquidate => "Nothing to liquidate"
  | noCollateralAvailable => "No collateral available to claim"
  | listFull => "Sorted list is full"
  | alreadyListed => "Sorted list already contains node"
  | notListed => "Sorted list does not contain node"
  | zeroRatio => "Nominal ICR must be positive"
  | invalidSetting => "Invalid configuration parameter"

/-- The refusal published under a word, letter case included. -/
def ofName? (word : String) : Option Refusal :=
  all.find? fun r => r.name == word

theorem mem_all (r : Refusal) : r ∈ all := by cases r <;> decide

end Refusal

/-- Everything that can stop a request. -/
inductive Fault where
  /-- The protocol turned the request down. -/
  | refused (reason : Refusal)
  /-- An amount left the range from zero to `2 ^ 256 - 1`. -/
  | overflow
  /-- A quotient of amounts with divisor zero. -/
  | divisionByZero
  /-- A counter left its 64 bits. -/
  | counterOverflow
  /-- A call to an address at which no contract lives. -/
  | notAContract
  /-- A call to a contract that has no entry point of this name. -/
  | noEntryPoint (name : String)
deriving DecidableEq, Repr

/-- The sentence that explains a fault. -/
def Fault.message : Fault → String
  | .refused reason => reason.message
  | .overflow => "arithmetic operation overflow"
  | .divisionByZero => "division by zero"
  | .counterOverflow => "attempt to add with overflow"
  | .notAContract => "InvalidContractAddress"
  | .noEntryPoint name => "NoSuchMethod(\"" ++ name ++ "\")"

/-- A result, or the fault that prevented it. -/
abbrev Checked := Except Fault

/-- Turns a request down. -/
def refuse {α : Type} (reason : Refusal) : Checked α :=
  .error (.refused reason)

/-- Goes on only if the condition holds. -/
def require (condition : Bool) (reason : Refusal) : Checked Unit :=
  if condition then .ok () else refuse reason

/-- A sequence of checks succeeds if each of them does. -/
@[simp] theorem Checked.bind_eq_ok {α β : Type} {x : Checked α} {f : α → Checked β} {b : β} :
    x >>= f = .ok b ↔ ∃ a, x = .ok a ∧ f a = .ok b := by
  cases x <;> simp [bind, Except.bind]

@[simp] theorem Checked.map_eq_ok {α β : Type} {x : Checked α} {f : α → β} {b : β} :
    f <$> x = .ok b ↔ ∃ a, x = .ok a ∧ f a = b := by
  cases x <;> simp [Functor.map, Except.map]

@[simp] theorem Checked.pure_eq_ok {α : Type} {a b : α} :
    (pure a : Checked α) = .ok b ↔ a = b := by
  simp [pure, Except.pure]

@[simp] theorem refuse_ne_ok {α : Type} {reason : Refusal} {a : α} :
    refuse reason ≠ .ok a := by
  simp [refuse]

@[simp] theorem require_eq_ok {condition : Bool} {reason : Refusal} {u : Unit} :
    require condition reason = .ok u ↔ condition = true := by
  cases condition <;> simp [require, refuse]

end Troves
