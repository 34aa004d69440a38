/-
# Amounts

Collateral, debt, prices and ratios are natural numbers below `2 ^ 256`
with eighteen decimal places.  The operations here are the only ones the
protocol uses on them: a result outside the range is an overflow, a
difference below zero included, and quotients are rounded down.

Each operation comes with the equation that says when it succeeds and
what it yields; later proofs use these and never unfold the operations.
-/
import Troves.Fault

namespace Troves

namespace Amount

/-- The first number that is no amount. -/
def limit : Nat := 1 <<< 256

/-- The greatest amount. -/
def greatest : Nat := limit - 1

/-- One unit: eighteen decimal places. -/
def one : Nat := 1000000000000000000

/-- A number as an amount, if it is in range. -/
def fit (n : Nat) : Checked Nat :=
  if n < limit then .ok n else .error .overflow

/-- The sum of two amounts. -/
def add (a b : Nat) : Checked Nat := fit (a + b)

/-- The difference of two amounts, never below zero. -/
def sub (a b : Nat) : Checked Nat :=
  if b ≤ a then .ok (a - b) else .error .overflow

/-- The product of two amounts. -/
def mul (a b : Nat) : Checked Nat := fit (a * b)

/-- The quotient of two amounts, rounded down. -/
def div (a b : Nat) : Checked Nat :=
  if b = 0 then .error .divisionByZero else .ok (a / b)

/-- `a * b / c`, rounded down once; the product itself has to fit. -/
def mulDiv (a b c : Nat) : Checked Nat := do
  div (← mul a b) c

/-- A power of ten; the seventy-seventh is the last that fits. -/
def powTen (e : Nat) : Checked Nat :=
  if e ≤ 77 then .ok (Nat.pow 10 e) else .error .overflow

/-- How far two amounts are apart. -/
def distance (a b : Nat) : Nat := max a b - min a b

/-! ## When the operations succeed -/

@[simp] theorem fit_eq_ok {n m : Nat} : fit n = .ok m ↔ n < limit ∧ m = n := by
  by_cases h : n < limit <;> simp [fit, h, eq_comm]

@[simp] theorem add_eq_ok {a b c : Nat} :
    add a b = .ok c ↔ a + b < limit ∧ c = a + b := fit_eq_ok

@[simp] theorem sub_eq_ok {a b c : Nat} :
    sub a b = .ok c ↔ b ≤ a ∧ c = a - b := by
  by_cases h : b ≤ a <;> simp [sub, h, eq_comm]

@[simp] theorem mul_eq_ok {a b c : Nat} :
    mul a b = .ok c ↔ a * b < limit ∧ c = a * b := fit_eq_ok

@[simp] theorem div_eq_ok {a b c : Nat} :
    div a b = .ok c ↔ b ≠ 0 ∧ c = a / b := by
  by_cases h : b = 0 <;> simp [div, h, eq_comm]

@[simp] theorem mulDiv_eq_ok {a b c d : Nat} :
    mulDiv a b c = .ok d ↔ a * b < limit ∧ c ≠ 0 ∧ d = a * b / c := by
  unfold mulDiv
  simp only [Checked.bind_eq_ok, mul_eq_ok, div_eq_ok]
  grind

@[simp] theorem powTen_eq_ok {e n : Nat} : powTen e = .ok n ↔ e ≤ 77 ∧ n = Nat.pow 10 e := by
  by_cases h : e ≤ 77 <;> simp [powTen, h, eq_comm]

end Amount

namespace Counter

/-- The first number that no 64-bit counter holds. -/
def limit : Nat := 1 <<< 64

/-- The counter's next value. -/
def next (n : Nat) : Checked Nat :=
  if n + 1 < limit then .ok (n + 1) else .error .counterOverflow

@[simp] theorem next_eq_ok {n m : Nat} : next n = .ok m ↔ n + 1 < limit ∧ m = n + 1 := by
  by_cases h : n + 1 < limit <;> simp [next, h, eq_comm]

end Counter

end Troves
