/-
# The pool's accounts

What all deposits are worth together, what they have earned, and how both
compare with what the pool holds.  `History` follows a pool through visits
and offsets and keeps `Accounts` of what the pool itself forgets: what the
roundings have taken from the depositors, and what the carried loss
remainder has credited to them twice.

The remainder of an offset's loss is carried because the deposits were
shrunk too far; the next offset credits all of it against the deposits as
they are recorded.  But the deposits are already worth less by that
remainder, and the part of it that the new loss takes is credited although
nobody bears it.  `History.accounted` is the resulting balance.
-/
import Troves.Proofs.Worth
import Mathlib.Algebra.BigOperators.Field
import Mathlib.Tactic.LinearCombination

namespace Troves

namespace Stability

namespace Pool

/-! ## Claims and gains -/

/-- Whoever ever made a deposit. -/
def holders (p : Pool) : Finset Address := p.deposits.keys.toFinset

/-- What a depositor's deposit is worth now, before rounding. -/
def worthOf (p : Pool) (a : Address) : ℚ := (p.deposit a).worth p.state

/-- What a depositor has earned, before rounding. -/
def gainOf (p : Pool) (a : Address) : ℚ :=
  let d := p.deposit a
  d.gain (p.sumAt d.epoch d.scale) (p.sumAt d.epoch (d.scale + 1))

/-- What a depositor is told is left; nothing where it cannot be computed. -/
def remainingOf (p : Pool) (a : Address) : Nat :=
  match p.remaining a with
  | .ok n => n
  | .error _ => 0

/-- What a depositor is told was earned; nothing where it cannot be computed. -/
def earnedOf (p : Pool) (a : Address) : Nat :=
  match p.earned a with
  | .ok n => n
  | .error _ => 0

/-- What all deposits are worth. -/
def claims (p : Pool) : ℚ := ∑ a ∈ p.holders, p.worthOf a

/-- What all deposits have earned. -/
def gains (p : Pool) : ℚ := ∑ a ∈ p.holders, p.gainOf a

/-- What all depositors are told is left. -/
def promised (p : Pool) : Nat := ∑ a ∈ p.holders, p.remainingOf a

/-- What all depositors are told was earned. -/
def earnings (p : Pool) : Nat := ∑ a ∈ p.holders, p.earnedOf a

theorem remainingOf_le (p : Pool) (a : Address) : (p.remainingOf a : ℚ) ≤ p.worthOf a := by
  rw [remainingOf]
  cases h : p.remaining a with
  | error e =>
    simp only [Nat.cast_zero]
    exact Deposit.worth_nonneg _ _
  | ok n => exact Deposit.remaining_le_worth h

/-- What depositors are told is left is never more than what it is worth. -/
theorem promised_le_claims (p : Pool) : (p.promised : ℚ) ≤ p.claims := by
  unfold promised claims
  push_cast
  exact Finset.sum_le_sum fun a _ => p.remainingOf_le a

/-! ## The shape of a pool -/

/-- How deposits and sums stand to the present epoch and scale. -/
structure Sane (p : Pool) : Prop where
  placed : ∀ a, (p.deposit a).Placed p.state
  later : ∀ e k, p.state.epoch < e ∨ (e = p.state.epoch ∧ p.state.scale < k) →
    p.sumAt e k = 0
  sums : ∀ a, (p.deposit a).amount ≠ 0 →
    (p.deposit a).sum ≤ p.sumAt (p.deposit a).epoch (p.deposit a).scale

variable {p q : Pool} {a : Address}

theorem gainOf_nonneg (h : p.Sane) (a : Address) : 0 ≤ p.gainOf a :=
  Deposit.gain_nonneg (h.sums a)

theorem earnedOf_le (h : p.Sane) (a : Address) : (p.earnedOf a : ℚ) ≤ p.gainOf a := by
  rw [earnedOf]
  cases he : p.earned a with
  | error e =>
    simp only [Nat.cast_zero]
    exact gainOf_nonneg h a
  | ok n => exact Deposit.earned_le_gain (earned_ok he)

/-- What depositors are told was earned is never more than their gains. -/
theorem earnings_le_gains (h : p.Sane) : (p.earnings : ℚ) ≤ p.gains := by
  unfold earnings gains
  push_cast
  exact Finset.sum_le_sum fun a _ => earnedOf_le h a

theorem deposit_set {p : Pool} {a b : Address} {d : Deposit} :
    (p.deposits.set a d).getD b {} = if a = b then d else p.deposit b :=
  Table.getD_set p.deposits a b d {}

/-- Somebody who never made a deposit has none. -/
theorem deposit_of_not_mem (h : a ∉ p.holders) : p.deposit a = {} := by
  rw [holders, List.mem_toFinset, ← Table.get?_eq_none] at h
  rw [deposit, Table.getD, h]
  rfl

namespace Visited

variable {gain left amount : Nat}

theorem deposit_self (h : Visited p a gain left amount q) : q.deposit a = p.fresh amount := by
  rw [deposit, h.deposits, deposit_set, if_pos rfl]

theorem deposit_other (h : Visited p a gain left amount q) {b : Address} (hb : b ≠ a) :
    q.deposit b = p.deposit b := by
  rw [deposit, h.deposits, deposit_set, if_neg hb.symm]

theorem sumAt_eq (h : Visited p a gain left amount q) (e k : Nat) :
    q.sumAt e k = p.sumAt e k := by
  rw [sumAt, sumAt, h.sums]

theorem holders_eq (h : Visited p a gain left amount q) : q.holders = insert a p.holders := by
  ext b
  rw [holders, h.deposits, List.mem_toFinset, Table.mem_keys_set, Finset.mem_insert, holders,
    List.mem_toFinset]

theorem sane (h : Visited p a gain left amount q) (hp : p.Sane) : q.Sane := by
  refine ⟨?_, ?_, ?_⟩
  · intro b
    rw [h.state]
    by_cases hb : b = a
    · rw [hb, h.deposit_self]
      rw [fresh]
      split
      · intro hz
        exact absurd rfl hz
      · intro _
        exact ⟨le_rfl, fun _ => le_rfl⟩
    · rw [h.deposit_other hb]
      exact hp.placed b
  · intro e k he
    rw [h.state] at he
    rw [h.sumAt_eq]
    exact hp.later e k he
  · intro b
    rw [h.sumAt_eq]
    by_cases hb : b = a
    · rw [hb, h.deposit_self]
      rw [fresh]
      split
      · intro hz
        exact absurd rfl hz
      · intro _
        exact le_rfl
    · rw [h.deposit_other hb]
      exact hp.sums b

/-- A visit exchanges the visitor's part of a sum over all depositors. -/
theorem sum_eq (h : Visited p a gain left amount q) {f g : Address → ℚ}
    (hf : a ∉ p.holders → f a = 0) (hg : ∀ b ≠ a, g b = f b) :
    ∑ b ∈ q.holders, g b = ∑ b ∈ p.holders, f b - f a + g a := by
  have herase : ∑ b ∈ p.holders.erase a, g b = ∑ b ∈ p.holders.erase a, f b :=
    Finset.sum_congr rfl fun b hb => hg b (Finset.ne_of_mem_erase hb)
  have hold : ∑ b ∈ p.holders, f b = f a + ∑ b ∈ p.holders.erase a, f b := by
    by_cases ha : a ∈ p.holders
    · exact (Finset.add_sum_erase p.holders f ha).symm
    · rw [hf ha, zero_add, Finset.erase_eq_of_notMem ha]
  rw [h.holders_eq, ← Finset.insert_erase (Finset.mem_insert_self a p.holders),
    Finset.erase_insert_eq_erase, Finset.sum_insert (Finset.notMem_erase a _), herase, hold]
  ring

theorem claims_eq (h : Visited p a gain left amount q) :
    q.claims = p.claims - p.worthOf a + q.worthOf a := by
  refine h.sum_eq (?_) ?_
  · intro ha
    rw [worthOf, deposit_of_not_mem ha]
    rfl
  · intro b hb
    rw [worthOf, worthOf, h.deposit_other hb, h.state]

theorem gains_eq (h : Visited p a gain left amount q) :
    q.gains = p.gains - p.gainOf a + q.gainOf a := by
  refine h.sum_eq (fun ha => ?_) fun b hb => ?_
  · rw [gainOf, deposit_of_not_mem ha]
    rfl
  · simp only [gainOf, h.deposit_other hb, h.sumAt_eq]

/-- A new deposit has earned nothing. -/
theorem gainOf_self (h : Visited p a gain left amount q) (hp : p.Sane) : q.gainOf a = 0 := by
  simp only [gainOf, h.deposit_self, h.sumAt_eq]
  unfold fresh Deposit.gain
  split
  · simp
  · split
    · rfl
    · have hz := hp.later p.state.epoch (p.state.scale + 1) (.inr ⟨rfl, Nat.lt_succ_self _⟩)
      simp only [hz, currentSum, sub_self, Nat.cast_zero, zero_div, add_zero, mul_zero]

/-- A new deposit is worth at most its amount. -/
theorem worthOf_self_le (h : Visited p a gain left amount q) : q.worthOf a ≤ amount := by
  rw [worthOf, h.deposit_self, h.state]
  rw [fresh]
  split
  · rw [Deposit.worth, if_pos (.inl rfl)]
    positivity
  · exact Deposit.worth_self_le rfl rfl

end Visited

namespace Absorbed

variable {debt coll : Nat} {r : Rates}

theorem deposit_eq (h : Absorbed p debt coll r q) (a : Address) : q.deposit a = p.deposit a := by
  rw [deposit, deposit, h.deposits]

theorem holders_eq (h : Absorbed p debt coll r q) : q.holders = p.holders := by
  rw [holders, holders, h.deposits]

theorem sumAt_eq (h : Absorbed p debt coll r q) (e k : Nat) :
    q.sumAt e k = if (p.state.epoch, p.state.scale) = (e, k) then
      p.sumAt p.state.epoch p.state.scale + r.gain * p.state.product else p.sumAt e k := by
  rw [sumAt, h.sums, Table.getD_set]
  rfl

theorem sane (h : Absorbed p debt coll r q) (hp : p.Sane) : q.Sane := by
  refine ⟨?_, ?_, ?_⟩
  · intro a
    rw [h.deposit_eq]
    exact (hp.placed a).shrunk h.shrunk
  · intro e k he
    -- what is later than the new present was later than the old one
    have hold : p.state.epoch < e ∨ (e = p.state.epoch ∧ p.state.scale < k) := by
      cases h.shrunk <;> omega
    rw [h.sumAt_eq, if_neg (by simp; omega)]
    exact hp.later e k hold
  · intro a ha
    rw [h.deposit_eq] at ha ⊢
    refine (hp.sums a ha).trans ?_
    rw [h.sumAt_eq]
    split
    · next hk =>
      obtain ⟨he, hs⟩ := Prod.mk.inj hk
      rw [he, hs]
      exact Nat.le_add_right _ _
    · exact le_rfl

/-- An offset shrinks all claims by at least the loss. -/
theorem claims_le (h : Absorbed p debt coll r q) (hp : p.Sane) :
    q.claims ≤ (1 - r.loss / Amount.one) * p.claims := by
  unfold claims
  rw [h.holders_eq, Finset.mul_sum]
  refine Finset.sum_le_sum ?_
  intro a _
  rw [worthOf, h.deposit_eq]
  exact Deposit.worth_shrunk (hp.placed a) h.shrunk

/-- An offset adds to all gains in proportion to the claims. -/
theorem gains_eq (h : Absorbed p debt coll r q) (hp : p.Sane) :
    q.gains = p.gains + r.gain * p.claims / Amount.one := by
  unfold gains claims
  rw [h.holders_eq, Finset.mul_sum, Finset.sum_div, ← Finset.sum_add_distrib]
  refine Finset.sum_congr rfl ?_
  intro a _
  simp only [gainOf, h.deposit_eq]
  exact Deposit.gain_grown (hp.placed a) h.sumAt_eq

end Absorbed

/-! ## The history of a pool -/

/-- What a pool's history has left behind, beyond what the pool remembers. -/
structure Accounts where
  /-- Credited twice: the carried remainder is credited in full, but the
  deposits that lack it shrink as well. -/
  overcredit : ℚ := 0
  /-- Lost to depositors by rounding down. -/
  dust : ℚ := 0
  /-- The most the pool held at an offset. -/
  peak : Nat := 0
  /-- Collateral promised for claims beyond the deposits, in fractions of a
  unit. -/
  shortfall : ℚ := 0
  /-- Collateral lost to depositors by rounding down. -/
  gainDust : ℚ := 0
  /-- Collateral gained for each unit deposited, by all offsets, in fractions of
  a unit. -/
  gained : Nat := 0

namespace Accounts

/-- The accounts after a depositor's visit. -/
def visit (acc : Accounts) (p q : Pool) (a : Address) : Accounts :=
  { acc with
    dust := acc.dust + (p.worthOf a - q.worthOf a) - (p.total - q.total)
    gainDust := acc.gainDust + (p.gainOf a - q.gainOf a) - (p.collateral - q.collateral) }

/-- The accounts after an offset. -/
def offset (acc : Accounts) (p q : Pool) (r : Rates) : Accounts :=
  let lost : ℚ := r.loss / Amount.one
  let carried : ℚ := p.state.lossRemainder / Amount.one
  let credited : ℚ := q.state.lossRemainder / Amount.one + (p.total - q.total) - lost * p.total
  { overcredit := (1 - lost) * acc.overcredit + lost * carried
    dust := (1 - lost) * acc.dust + ((1 - lost) * p.claims - q.claims) + (carried - credited)
    peak := max acc.peak p.total
    shortfall := acc.shortfall + r.gain * (p.claims - p.total)
    gainDust := acc.gainDust
    gained := acc.gained + r.gain }

end Accounts

/-- The pools that visits and offsets lead to, with their accounts. -/
inductive History : Pool → Accounts → Prop where
  | new {links? : Option Links} : History { links? } {}
  | provide {p q : Pool} {acc : Accounts} {a : Address} {amount : Nat} (before : History p acc)
      (h : p.provide a amount = .ok q) : History q (acc.visit p q a)
  | withdraw {p q : Pool} {acc : Accounts} {a : Address} {amount : Nat}
      (before : History p acc) (h : p.withdraw a amount = .ok q) : History q (acc.visit p q a)
  | offset {p q : Pool} {acc : Accounts} {debt coll : Nat} {carried : ProductSum} {r : Rates}
      (before : History p acc) (h : p.absorb debt coll = .ok q)
      (rates : p.state.rates coll debt p.total = .ok (carried, r)) :
      History q (acc.offset p q r)

/-- A pool and its accounts agree: what the claims and the carried remainder
exceed the deposits by is what was credited twice less what was rounded away,
and the collateral falls short of the gains by what was promised too much. -/
structure Accounted (p : Pool) (acc : Accounts) : Prop where
  sane : p.Sane
  claims : p.claims + p.state.lossRemainder / Amount.one - p.total =
    acc.overcredit - acc.dust
  gains : Amount.one * p.collateral + acc.shortfall =
    Amount.one * p.gains + p.state.gainRemainder + Amount.one * acc.gainDust
  dust : 0 ≤ acc.dust
  gainDust : 0 ≤ acc.gainDust
  overcredit : 0 ≤ acc.overcredit ∧ acc.overcredit ≤ acc.peak / Amount.one
  remainder : p.state.lossRemainder ≤ acc.peak
  shortfall : acc.shortfall ≤ acc.gained * (acc.peak / Amount.one)

/-- The claims exceed the deposits by at most one part in `10 ^ 18` of the most the
pool held at an offset. -/
theorem Accounted.claims_le {acc : Accounts} (h : Accounted p acc) :
    p.claims ≤ p.total + acc.peak / Amount.one := by
  have hc := h.claims
  have hd := h.dust
  have hr : (0 : ℚ) ≤ p.state.lossRemainder / Amount.one := by
    have := Amount.one_pos
    positivity
  linarith [h.overcredit.2]

theorem accounted_new {links? : Option Links} : Accounted { links? } {} where
  sane := ⟨fun _ ha => absurd rfl ha, fun _ _ _ => rfl, fun _ ha => absurd rfl ha⟩
  claims := by
    have hc : claims { links? } = 0 := rfl
    simp [hc]
  gains := by
    have hg : gains { links? } = 0 := rfl
    simp [hg]
  dust := le_rfl
  gainDust := le_rfl
  overcredit := by simp
  remainder := le_rfl
  shortfall := by simp

theorem Visited.accounted {acc : Accounts} {gain left amount : Nat}
    (h : Visited p a gain left amount q) (hp : Accounted p acc) :
    Accounted q (acc.visit p q a) := by
  have htotal : (q.total : ℚ) + left = p.total + amount := by exact_mod_cast h.total
  have hcoll : (p.collateral : ℚ) = q.collateral + gain := by exact_mod_cast h.collateral
  have hleft : (left : ℚ) ≤ p.worthOf a := Deposit.remaining_le_worth h.found
  have hnew : q.worthOf a ≤ amount := h.worthOf_self_le
  have hpaid : (gain : ℚ) ≤ p.gainOf a := Deposit.earned_le_gain (earned_ok h.paid)
  have hzero : q.gainOf a = 0 := h.gainOf_self hp.sane
  have hd := hp.dust
  have hg := hp.gainDust
  refine ⟨h.sane hp.sane, ?_, ?_, ?_, ?_, hp.overcredit, ?_, hp.shortfall⟩
  · have hc := hp.claims
    rw [h.claims_eq, h.state]
    simp only [Accounts.visit]
    linarith
  · have hc := hp.gains
    rw [h.gains_eq, h.state]
    simp only [Accounts.visit]
    linear_combination hc
  · simp only [Accounts.visit]
    linarith
  · simp only [Accounts.visit]
    linarith
  · rw [h.state]
    exact hp.remainder

/-- What an offset credits of the carried remainder is at most all of it. -/
theorem Absorbed.credited_le {debt coll : Nat} {r : Rates} (h : Absorbed p debt coll r q) :
    (q.state.lossRemainder : ℚ) / Amount.one + (p.total - q.total) -
      r.loss / Amount.one * p.total ≤ p.state.lossRemainder / Amount.one := by
  have hone := Amount.one_pos
  have htotal : (p.total : ℚ) - q.total = debt := by
    rw [h.total]
    push_cast
    ring
  rw [htotal]
  rcases h.loss with ⟨hd, hl, he⟩ | ⟨-, hl, -⟩
  · rw [he, hl, div_self hone.ne', ← hd]
    simp only [Nat.cast_zero, zero_div, zero_add, one_mul, sub_self]
    positivity
  · have hsub : (debt : ℚ) * Amount.one - p.state.lossRemainder ≤
        ((debt * Amount.one - p.state.lossRemainder : ℕ) : ℚ) := by
      rw [sub_le_iff_le_add]
      exact_mod_cast Nat.sub_le_iff_le_add.1 le_rfl
    have hl' : (r.loss : ℚ) * p.total =
        ((debt * Amount.one - p.state.lossRemainder : ℕ) : ℚ) + q.state.lossRemainder := by
      exact_mod_cast hl
    rw [div_mul_eq_mul_div, hl', add_div]
    have hdiv := div_le_div_of_nonneg_right hsub hone.le
    rw [sub_div, mul_div_assoc, div_self hone.ne', mul_one] at hdiv
    linarith

theorem Absorbed.accounted {acc : Accounts} {debt coll : Nat} {r : Rates}
    (h : Absorbed p debt coll r q) (hp : Accounted p acc) :
    Accounted q (acc.offset p q r) := by
  have hone := Amount.one_pos
  have hlost : (r.loss : ℚ) / Amount.one ≤ 1 :=
    (div_le_one hone).2 (by exact_mod_cast h.loss_le)
  have hlost₀ : (0 : ℚ) ≤ r.loss / Amount.one := by positivity
  have hkeep : (0 : ℚ) ≤ 1 - r.loss / Amount.one := sub_nonneg.2 hlost
  have hclaims := h.claims_le hp.sane
  have hcred := h.credited_le
  obtain ⟨ho₀, ho⟩ := hp.overcredit
  have hpeak : (acc.peak : ℚ) ≤ ((max acc.peak p.total : ℕ) : ℚ) := by
    exact_mod_cast le_max_left ..
  refine ⟨h.sane hp.sane, ?_, ?_, ?_, hp.gainDust, ⟨?_, ?_⟩, ?_, ?_⟩
  · have hc := hp.claims
    simp only [Accounts.offset]
    linear_combination (1 - r.loss / Amount.one : ℚ) * hc
  · have hg := hp.gains
    have hgain : (coll : ℚ) * Amount.one + p.state.gainRemainder =
        r.gain * p.total + q.state.gainRemainder := by exact_mod_cast h.gain
    rw [h.gains_eq hp.sane, h.collateral]
    simp only [Accounts.offset]
    push_cast
    have hcancel : (Amount.one : ℚ) * (r.gain * p.claims / Amount.one) = r.gain * p.claims :=
      mul_div_cancel₀ _ hone.ne'
    linear_combination hg + hgain - hcancel
  · simp only [Accounts.offset]
    have hd : 0 ≤ (1 - r.loss / Amount.one : ℚ) * acc.dust := mul_nonneg hkeep hp.dust
    linarith
  · simp only [Accounts.offset]
    positivity
  · -- a mean of what was credited twice before and what is carried now
    have hrem : (p.state.lossRemainder : ℚ) ≤ ((max acc.peak p.total : ℕ) : ℚ) := by
      exact_mod_cast hp.remainder.trans (le_max_left ..)
    simp only [Accounts.offset]
    calc (1 - r.loss / Amount.one : ℚ) * acc.overcredit +
          r.loss / Amount.one * (p.state.lossRemainder / Amount.one)
        ≤ (1 - r.loss / Amount.one : ℚ) * (((max acc.peak p.total : ℕ) : ℚ) / Amount.one) +
          r.loss / Amount.one * (((max acc.peak p.total : ℕ) : ℚ) / Amount.one) := by
          gcongr
          exact ho.trans (by gcongr)
      _ = ((max acc.peak p.total : ℕ) : ℚ) / Amount.one := by ring
  · rcases h.loss with ⟨-, -, he⟩ | ⟨-, -, he⟩
    · rw [he]
      exact Nat.zero_le _
    · exact he.trans (le_max_right ..)
  · -- what is gained for the claims beyond the deposits
    have hbeyond : p.claims - p.total ≤ acc.peak / Amount.one := by linarith [hp.claims_le]
    have hgain : (r.gain : ℚ) * (p.claims - p.total) ≤ r.gain * (acc.peak / Amount.one) :=
      mul_le_mul_of_nonneg_left hbeyond (Nat.cast_nonneg _)
    simp only [Accounts.offset]
    push_cast
    calc acc.shortfall + r.gain * (p.claims - p.total)
        ≤ (acc.gained + r.gain) * (acc.peak / Amount.one) := by linarith [hp.shortfall]
      _ ≤ (acc.gained + r.gain) * ((max (acc.peak : ℚ) p.total) / Amount.one) := by
          have hmax := le_max_left (acc.peak : ℚ) p.total
          gcongr

theorem History.accounted {acc : Accounts} (h : History p acc) : Accounted p acc := by
  induction h with
  | new => exact accounted_new
  | provide _ h ih =>
    obtain ⟨gain, left, hv⟩ := provide_ok h
    exact hv.accounted ih
  | withdraw _ h ih =>
    obtain ⟨gain, left, hv⟩ := withdraw_ok h
    exact hv.accounted ih
  | offset _ h rates ih =>
    obtain ⟨_, _, hr, ha⟩ := absorb_ok h
    obtain ⟨rfl, rfl⟩ := Prod.mk.inj (Except.ok.inj (rates.symm.trans hr))
    exact ha.accounted ih

end Pool

end Stability

end Troves
