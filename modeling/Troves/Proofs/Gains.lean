/-
# Cover for the depositors' gains

The pool keeps the collateral that offsets bring in until the depositors
fetch it.  An offset books a gain for every claim, so the gains are covered
exactly as far as the claims were covered by deposits when the offsets were
made; where the claims exceed the deposits, as after a remainder credited
twice, more is promised than is kept, and the first visit to fetch it fails.
-/
import Troves.Proofs.Solvency

namespace Troves

open Protocol (poolAddress)
open Stability

namespace Stability.Pool

variable {p : Pool} {acc : Accounts}

/-- The gains are covered exactly if what was promised for claims beyond the
deposits is within what is left over and what roundings have taken. -/
theorem Accounted.covered_iff (h : Accounted p acc) :
    p.earnings ≤ p.collateral ↔ acc.shortfall ≤
      p.state.gainRemainder + Amount.one * (acc.gainDust + (p.gains - p.earnings)) := by
  have hg := h.gains
  have hone := Amount.one_pos
  rw [← Nat.cast_le (α := ℚ), ← mul_le_mul_iff_right₀ hone]
  constructor <;> intro hle <;> linarith

/-- Where what was promised beyond the deposits is within what is left over, the
gains are covered. -/
theorem Accounted.covered_of_shortfall (h : Accounted p acc)
    (hle : acc.shortfall ≤ p.state.gainRemainder) : p.earnings ≤ p.collateral := by
  have hone := Amount.one_pos
  have hdust : 0 ≤ Amount.one * (acc.gainDust + (p.gains - p.earnings)) :=
    mul_nonneg hone.le (add_nonneg h.gainDust (sub_nonneg.2 (earnings_le_gains h.sane)))
  exact h.covered_iff.2 (by linarith)

/-- However little is covered, the gains exceed the collateral by at most what the
claims exceed the deposits by, times what each unit deposited has gained. -/
theorem Accounted.earnings_le (h : Accounted p acc) :
    (p.earnings : ℚ) ≤
      p.collateral + acc.gained * acc.peak / (Amount.one * Amount.one) := by
  have hone := Amount.one_pos
  have hg := h.gains
  have hdust := mul_nonneg hone.le h.gainDust
  have hbound : (Amount.one : ℚ) * (acc.gained * acc.peak / (Amount.one * Amount.one)) =
      acc.gained * (acc.peak / Amount.one) := by
    field_simp
  have hle : Amount.one * p.gains ≤ Amount.one *
      (p.collateral + acc.gained * acc.peak / (Amount.one * Amount.one)) := by
    rw [mul_add, hbound]
    have hr : (0 : ℚ) ≤ p.state.gainRemainder := Nat.cast_nonneg _
    linarith [h.shortfall]
  exact (earnings_le_gains h.sane).trans (le_of_mul_le_mul_left hle hone)

/-- Where that comes to less than a unit, the gains are covered. -/
theorem Accounted.covered_of_gained (h : Accounted p acc)
    (hlt : acc.gained * acc.peak < Amount.one * Amount.one) : p.earnings ≤ p.collateral := by
  have hone := Amount.one_pos
  have hle := h.earnings_le
  have hpart : (acc.gained * acc.peak : ℚ) / (Amount.one * Amount.one) < 1 :=
    (div_lt_one (mul_pos hone hone)).2 (by exact_mod_cast hlt)
  have hnat : (p.earnings : ℚ) < p.collateral + 1 := by linarith
  exact Nat.lt_succ_iff.1 (by exact_mod_cast hnat)

/-- Where the gains are covered, each of them can be paid. -/
theorem earned_le_collateral (hp : p.earnings ≤ p.collateral) {a : Address} {gain : Nat}
    (h : p.earned a = .ok gain) : gain ≤ p.collateral := by
  by_cases ha : a ∈ p.holders
  · have hle := Finset.single_le_sum (f := fun b => p.earnedOf b) (fun _ _ => Nat.zero_le _) ha
    have hpart : p.earnedOf a = gain := by simp only [earnedOf, h]
    rw [hpart] at hle
    exact hle.trans hp
  · rw [earned, deposit_of_not_mem ha] at h
    cases h
    exact Nat.zero_le _

end Stability.Pool

/-- Whether the stability pool holds the collateral that it tells its
depositors they have earned.

By the accounts of any history that leads to the pool, it does exactly if
what offsets have promised for claims beyond the deposits is within the
carried remainder and the roundings; it does in particular if that is within
the remainder alone.  The excess is at most what each unit deposited has gained
times one part in `10 ^ 18` of the most the pool held at an offset, so the gains
are covered as long as that is less than a unit.  And where they are, no depositor's own gain stands
in the way of a visit: the gain can be booked out and paid, so a deposit or a
withdrawal goes through if its other parts do. -/
theorem Deployment.gains_covered_iff {d : Deployment} {incentive? : Option Liquidation.Incentive}
    {o : Outcome Unit} (start : d.start (some { incentive? }) = .ok o) {ts : List Turn}
    (outside : ∀ t ∈ ts, t.outside) :
    let w := o.world.after ts
    let p := w.pool
    (∃ acc, p.History acc) ∧
    (∀ acc, p.History acc →
      (p.earnings ≤ p.collateral ↔ acc.shortfall ≤
        p.state.gainRemainder + Amount.one * (acc.gainDust + (p.gains - p.earnings))) ∧
      0 ≤ acc.gainDust ∧ (p.earnings : ℚ) ≤ p.gains ∧
      (acc.shortfall ≤ p.state.gainRemainder → p.earnings ≤ p.collateral) ∧
      (p.earnings : ℚ) ≤ p.collateral + acc.gained * acc.peak / (Amount.one * Amount.one) ∧
      (acc.gained * acc.peak < Amount.one * Amount.one → p.earnings ≤ p.collateral)) ∧
    (p.earnings ≤ p.collateral → ∀ a gain left, p.earned a = .ok gain →
      p.remaining a = .ok left →
      (∃ rest, Amount.sub p.collateral gain = .ok rest) ∧
      (∃ collateral, w.collateral.payOut poolAddress a gain = .ok collateral) ∧
      (∀ amount coin, (p.deposit a).amount ≠ 0 → min amount left ≤ p.total →
        w.coin.repay a (min amount left) = .ok coin →
        ∃ o, (Request.withdraw amount).perform a w = .ok o) ∧
      ∀ amount coin, amount ≠ 0 → p.total + amount < Amount.limit →
        left + amount < Amount.limit →
        ((p.deposit a).amount = 0 → p.depositors + 1 < Counter.limit) →
        w.coin.command poolAddress (·.move a poolAddress amount) = .ok coin →
        ∃ o, (Request.provide amount).perform a w = .ok o) := by
  intro w p
  have hr := Deployment.start_ready start
  obtain ⟨hw, hc, hh⟩ := World.after_induction (n := 0)
    (P := fun w _ => w.CollateralKept ∧ ∃ acc, w.pool.History acc) hr.wired outside
    (fun t ht _ _ _ _ _ hs h => ⟨h.1.step hs (outside t ht), hs.history h.2⟩)
    ⟨hr.collateralKept, hr.history⟩
  refine ⟨hh, ?_, ?_⟩
  · intro acc ha
    have hacc := ha.accounted
    exact ⟨hacc.covered_iff, hacc.gainDust, Pool.earnings_le_gains hacc.sane,
      hacc.covered_of_shortfall, hacc.earnings_le, hacc.covered_of_gained⟩
  · intro hcov a gain left hg hl
    have hle := Pool.earned_le_collateral hcov hg
    obtain ⟨collateral, hp⟩ := hc.payOut_succeeds a hle
    refine ⟨⟨_, Amount.sub_eq_ok.2 ⟨hle, rfl⟩⟩, ⟨collateral, hp⟩, ?_, ?_⟩
    · intro amount coin hd hmin hcoin
      obtain ⟨o, ho, -⟩ := Protocol.withdraw_succeeds hw hd hg hl hmin hcoin hle hp
      exact ⟨_, Action.bind_eq_ok.2 ⟨o, ho, _, rfl, rfl⟩⟩
    · intro amount coin hn ht hd hnew hcoin
      obtain ⟨o, ho, -⟩ := Protocol.provide_succeeds hw hn hg hl ht hd hnew hcoin hle hp
      exact ⟨_, Action.bind_eq_ok.2 ⟨o, ho, _, rfl, rfl⟩⟩

/-- The two offsets that promise a unit too many, and then one that brings
much collateral for little debt. -/
def Deployment.costlyOffset : List Turn :=
  Turn.opening (.account 1) (1000000 * Amount.one) (4 * Amount.one) ++
  Turn.opening (.account 2) 20000000000000000 (2 * Amount.one - 4) ++
  Turn.opening (.account 3) 10000000000000000 (Amount.one + 5) ++
  Turn.opening (.account 5) (100 * Amount.one) 500000000000000000 ++
  [.call (.account 1) (.provide (4 * Amount.one)), .pricing 10000000000,
   .call (.account 4) (.liquidateOne (.account 2)),
   .call (.account 4) (.liquidateOne (.account 3)), .pricing 500000,
   .call (.account 4) (.liquidateOne (.account 5))]

/-- After the first offset the gains are covered, so what was promised beyond
the deposits stays within what is left over. -/
theorem Deployment.gains_covered_one_offset :
    ∃ o, plain.start (some { incentive? := some { debtCompensation := 0 } }) = .ok o ∧
      (∀ t ∈ twoOffsets.dropLast, t.outside) ∧
      ∃ acc, (o.world.after twoOffsets.dropLast).pool.History acc ∧
        acc.shortfall ≤ (o.world.after twoOffsets.dropLast).pool.state.gainRemainder +
          Amount.one * (acc.gainDust + ((o.world.after twoOffsets.dropLast).pool.gains -
            (o.world.after twoOffsets.dropLast).pool.earnings)) := by
  obtain ⟨o, ho, hs⟩ : ∃ o,
      plain.start (some { incentive? := some { debtCompensation := 0 } }) = .ok o ∧
      (o.world.after twoOffsets.dropLast).pool.earnings ≤
        (o.world.after twoOffsets.dropLast).pool.collateral :=
    Checked.exists_ok (by decide +kernel)
  have hout : ∀ t ∈ twoOffsets.dropLast, t.outside := by decide +kernel
  obtain ⟨⟨acc, ha⟩, hiff, -⟩ := gains_covered_iff ho hout
  exact ⟨o, ho, hout, acc, ha, (hiff acc ha).1.1 hs⟩

/-- The only depositor's gain is more than the pool holds for all of them, so
not even an empty withdrawal goes through. -/
theorem Deployment.gains_uncovered_costlyOffset :
    ∃ o, plain.start (some { incentive? := some { debtCompensation := 0 } }) = .ok o ∧
      (∀ t ∈ costlyOffset, t.outside) ∧
      let w := o.world.after costlyOffset
      w.pool.earnings = 99529850000000000099 ∧ w.pool.collateral = 99529850000000000000 ∧
        Checked.fault? ((Request.withdraw 0).perform (.account 1) w) = some .overflow := by
  obtain ⟨o, ho, h⟩ : ∃ o,
      plain.start (some { incentive? := some { debtCompensation := 0 } }) = .ok o ∧
      let w := o.world.after costlyOffset
      w.pool.earnings = 99529850000000000099 ∧ w.pool.collateral = 99529850000000000000 ∧
        Checked.fault? ((Request.withdraw 0).perform (.account 1) w) = some .overflow :=
    Checked.exists_ok (by decide +kernel)
  exact ⟨o, ho, by decide +kernel, h⟩

end Troves
