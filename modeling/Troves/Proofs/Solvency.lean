/-
# Solvency of the stability pool

The pool tells every depositor what is left of the deposit, and it is solvent
if what it tells all of them together is no more than it holds.  Visits keep
a pool solvent.  An offset need not: the loss remainder that it credits was
already missing from the deposits, so some of it is credited twice, and after
two offsets the last depositor may be promised a unit too many.
-/
import Troves.Proofs.Accounts
import Troves.Proofs.Safekeeping
import Troves.Proofs.Visits

namespace Troves

open Protocol (poolAddress ledgerAddress Liquidated Sweep)
open Stability

namespace Stability.Pool

variable {p q : Pool} {a : Address} {acc : Accounts}

/-- The deposits cover what the depositors are told is left. -/
def Solvent (p : Pool) : Prop := p.promised ≤ p.total

instance (p : Pool) : Decidable p.Solvent := by
  rw [Solvent]
  infer_instance

theorem remainingOf_eq {left : Nat} (h : p.remaining a = .ok left) : p.remainingOf a = left := by
  simp only [remainingOf, h]

/-- A visitor takes no more than was promised and leaves a promise of no more
than the new deposit. -/
theorem Visited.solvent {gain left amount : Nat} (h : Visited p a gain left amount q)
    (hp : p.Solvent) : q.Solvent := by
  have hsum := h.sum_eq (f := fun b => (p.remainingOf b : ℚ))
    (g := fun b => (q.remainingOf b : ℚ)) (fun ha => ?_) (fun b hb => ?_)
  · have hnew : (q.remainingOf a : ℚ) ≤ amount := (q.remainingOf_le a).trans h.worthOf_self_le
    have htotal : (q.total : ℚ) + left = p.total + amount := by exact_mod_cast h.total
    have hold : (p.promised : ℚ) ≤ p.total := by exact_mod_cast hp
    have hpart : p.remainingOf a = left := remainingOf_eq h.found
    have hq : (q.promised : ℚ) ≤ q.total := by
      unfold promised at hold ⊢
      push_cast at hold ⊢
      rw [hsum, hpart]
      linarith
    exact_mod_cast hq
  · rw [remainingOf, remaining, deposit_of_not_mem ha]
    rfl
  · rw [remainingOf, remainingOf, remaining, remaining, h.deposit_other hb, h.state]

/-- In a solvent pool nobody is promised more than the deposits. -/
theorem Solvent.remaining_le (hp : p.Solvent) {left : Nat} (h : p.remaining a = .ok left) :
    left ≤ p.total := by
  by_cases ha : a ∈ p.holders
  · have hle := Finset.single_le_sum (f := fun b => p.remainingOf b)
      (fun _ _ => Nat.zero_le _) ha
    rw [remainingOf_eq h] at hle
    exact hle.trans hp
  · rw [remaining, deposit_of_not_mem ha] at h
    cases h
    exact Nat.zero_le _

/-- A pool is solvent exactly if what was credited twice stays within what
roundings have taken and what is carried. -/
theorem Accounted.solvent_iff (h : Accounted p acc) :
    p.Solvent ↔ acc.overcredit ≤
      acc.dust + p.state.lossRemainder / Amount.one + (p.claims - p.promised) := by
  have hc := h.claims
  rw [Solvent]
  rw [← Nat.cast_le (α := ℚ)]
  constructor <;> intro hle <;> linarith

/-- Where what was credited twice is within what is carried, a pool is solvent. -/
theorem Accounted.solvent_of_overcredit (h : Accounted p acc)
    (hle : acc.overcredit ≤ p.state.lossRemainder / Amount.one) : p.Solvent := by
  have hd := h.dust
  have hp := p.promised_le_claims
  exact h.solvent_iff.2 (by linarith)

/-- However insolvent, a pool never promises more than its deposits by more
than one part in `10 ^ 18` of the most it held at an offset. -/
theorem Accounted.promised_le (h : Accounted p acc) :
    (p.promised : ℚ) ≤ p.total + acc.peak / Amount.one :=
  p.promised_le_claims.trans h.claims_le

/-- A pool that never held a whole unit at an offset is solvent. -/
theorem Accounted.solvent_of_peak (h : Accounted p acc) (hp : acc.peak < Amount.one) :
    p.Solvent := by
  have hle := h.promised_le
  have hlt : (acc.peak : ℚ) / Amount.one < 1 :=
    (div_lt_one Amount.one_pos).2 (by exact_mod_cast hp)
  have hnat : (p.promised : ℚ) < p.total + 1 := by linarith
  exact Nat.lt_succ_iff.1 (by exact_mod_cast hnat)

end Stability.Pool

/-! ## Runs -/

theorem Protocol.Sweep.history {w w' : World} {price : Nat} {liquidator : Address}
    {t t' : Liquidation.Totals} (h : Sweep price liquidator w t w' t')
    (hw : ∃ acc, w.pool.History acc) : ∃ acc, w'.pool.History acc := by
  induction h with
  | done => exact hw
  | next _ out _ _ ih =>
    refine ih ?_
    obtain ⟨acc, ha⟩ := hw
    rcases Pool.takeOffset_ok out.pool with hp | hp
    · rw [hp]
      exact ⟨acc, ha⟩
    · obtain ⟨carried, r, hr, -⟩ := Pool.absorb_ok hp
      exact ⟨_, ha.offset hp hr⟩

/-- Whatever happens to the pool is part of its history. -/
theorem Step.history {w w' : World} {t : Turn} {k : Nat} (h : Step w t k w')
    (hw : ∃ acc, w.pool.History acc) : ∃ acc, w'.pool.History acc := by
  cases h with
  | provide h =>
    obtain ⟨acc, ha⟩ := hw
    exact ⟨_, ha.provide h.pool⟩
  | withdraw h =>
    obtain ⟨acc, ha⟩ := hw
    exact ⟨_, ha.withdraw h.pool⟩
  | claim h =>
    rw [h.rest]
    exact hw
  | borrow h =>
    obtain ⟨d, -, -, hr⟩ := h.rest
    rw [hr]
    exact hw
  | settle h =>
    rw [h.rest]
    exact hw
  | liquidate _ h =>
    obtain ⟨d, -, hs⟩ := h.sweep
    exact hs.history hw
  | _ => exact hw

/-- Whether a turn is a depositor taking something out. -/
def Turn.leaves : Turn → Prop
  | .call caller (.withdraw _) => Contract.find? caller = none
  | _ => False

theorem Turn.leaves_cases {t : Turn} (h : t.leaves) :
    ∃ a n, t = .call a (.withdraw n) ∧ Contract.find? a = none := by
  unfold leaves at h
  split at h
  · exact ⟨_, _, rfl, h⟩
  · exact h.elim

/-- What the pool holds can be taken out of it. -/
theorem World.CoinsKept.repay_succeeds {w : World} (h : w.CoinsKept) (a : Address) {n : Nat}
    (hn : n ≤ w.pool.total) : ∃ coin, w.coin.repay a n = .ok coin := by
  rw [Coin.repay]
  split
  · exact ⟨_, rfl⟩
  · obtain ⟨t, ht⟩ := Token.move_succeeds h.token.sound a (hn.trans h.token.balance)
    refine ⟨{ w.coin with token := t }, ?_⟩
    simp only [Coin.command, Checked.bind_eq_ok, require_eq_ok, Checked.pure_eq_ok]
    exact ⟨(), h.obeys.2 (.inr rfl), t, ht, rfl⟩

/-- While depositors leave, in whatever order, a solvent pool stays solvent. -/
theorem World.leaving {w : World} (hw : w.Wired) (hk : w.CoinsKept) (hc : w.CollateralKept)
    (hs : w.pool.Solvent) {us : List Turn} (h : ∀ u ∈ us, u.leaves) :
    (w.after us).Wired ∧ (w.after us).CoinsKept ∧ (w.after us).CollateralKept ∧
      (w.after us).pool.Solvent := by
  have hout : ∀ u ∈ us, u.outside := fun u hu => by
    obtain ⟨a, n, rfl, ha⟩ := Turn.leaves_cases (h u hu)
    exact ha
  refine World.after_induction (n := 0)
    (P := fun w _ => w.CoinsKept ∧ w.CollateralKept ∧ w.pool.Solvent) hw hout ?_ ⟨hk, hc, hs⟩
  intro u hu w w' n k hw hstep ⟨hk, hc, hs⟩
  obtain ⟨a, amount, rfl, ha⟩ := Turn.leaves_cases (h u hu)
  refine ⟨hk.step hstep ha trivial, hc.step hstep ha, ?_⟩
  cases hstep with
  | withdraw h =>
    obtain ⟨gain, left, hv⟩ := Pool.withdraw_ok h.pool
    exact hv.solvent hs
  | command h =>
    rcases hk.obeys.1 (Coin.command_ok h).1 with hl | hp
    · exact absurd hl (Request.ne_contract ha .ledger)
    · exact absurd hp (Request.ne_contract ha .stabilityPool)
  | liquidate request _ => exact request.elim
  | around => exact hs

theorem Deployment.Ready.history {d : Deployment} {w : World} (h : d.Ready w) :
    ∃ acc, w.pool.History acc := by
  rw [h.pool]
  exact ⟨_, .new⟩

/-- Whether the stability pool can give every depositor what it promises.

The pool has a history, and by the accounts of any history that leads to it
the pool is solvent exactly if what carrying the loss remainder has credited
twice is within the roundings and the remainder itself; it is solvent in
particular if that is within the remainder alone.  The excess is at most one
part in `10 ^ 18` of the most the pool held at an offset, so a pool that never
held a whole unit is always solvent.  And from a solvent pool all
depositors can take out what they are promised, in whatever order they
leave. -/
theorem Deployment.pool_solvent_iff {d : Deployment} {incentive? : Option Liquidation.Incentive}
    {o : Outcome Unit} (start : d.start (some { incentive? }) = .ok o) {ts : List Turn}
    (outside : ∀ t ∈ ts, t.outside) (rights : ∀ t ∈ ts, t.keepsRights) :
    let w := o.world.after ts
    let p := w.pool
    (∃ acc, p.History acc) ∧
    (∀ acc, p.History acc →
      (p.promised ≤ p.total ↔ acc.overcredit ≤
        acc.dust + p.state.lossRemainder / Amount.one + (p.claims - p.promised)) ∧
      0 ≤ acc.dust ∧ (p.promised : ℚ) ≤ p.claims ∧
      (acc.overcredit ≤ p.state.lossRemainder / Amount.one → p.promised ≤ p.total) ∧
      (p.promised : ℚ) ≤ p.total + acc.peak / Amount.one ∧
      (acc.peak < Amount.one → p.promised ≤ p.total)) ∧
    (p.promised ≤ p.total → ∀ us : List Turn, (∀ u ∈ us, u.leaves) →
      ∀ a left, (w.after us).pool.remaining a = .ok left →
        left ≤ (w.after us).pool.total ∧ left ≤ (w.after us).coin.token.balance poolAddress ∧
        ∀ gain amount, ((w.after us).pool.deposit a).amount ≠ 0 →
          (w.after us).pool.earned a = .ok gain → gain ≤ (w.after us).pool.collateral →
          ∃ o, (Request.withdraw amount).perform a (w.after us) = .ok o) := by
  intro w p
  have hr := Deployment.start_ready start
  obtain ⟨hw, ⟨hk, hc⟩, hh⟩ := World.after_induction (n := 0)
    (P := fun w _ => (w.CoinsKept ∧ w.CollateralKept) ∧ ∃ acc, w.pool.History acc)
    hr.wired outside
    (fun t ht _ _ _ _ _ hs h => ⟨⟨h.1.1.step hs (outside t ht) (rights t ht),
      h.1.2.step hs (outside t ht)⟩, hs.history h.2⟩)
    ⟨⟨hr.coinsKept, hr.collateralKept⟩, hr.history⟩
  refine ⟨hh, ?_, ?_⟩
  · intro acc ha
    have hacc := ha.accounted
    exact ⟨hacc.solvent_iff, hacc.dust, p.promised_le_claims, hacc.solvent_of_overcredit,
      hacc.promised_le, hacc.solvent_of_peak⟩
  · intro hs us hus a left hleft
    obtain ⟨hw', hk', hc', hs'⟩ := World.leaving hw hk hc hs hus
    have hle := hs'.remaining_le hleft
    have hbal := hle.trans hk'.token.balance
    refine ⟨hle, hbal, ?_⟩
    intro gain amount hd hg hgain
    have hmin : min amount left ≤ (w.after us).pool.total := (Nat.min_le_right ..).trans hle
    obtain ⟨coin, hcoin⟩ := hk'.repay_succeeds a hmin
    obtain ⟨collateral, hp⟩ := hc'.payOut_succeeds a hgain
    obtain ⟨o, ho, -⟩ := Protocol.withdraw_succeeds hw' hd hg hleft hmin hcoin hgain hp
    exact ⟨_, Action.bind_eq_ok.2 ⟨o, ho, _, rfl, rfl⟩⟩

/-- A depositor covers two small troves that are liquidated one after the
other; the first leaves a remainder that the second credits. -/
def Deployment.twoOffsets : List Turn :=
  Turn.opening (.account 1) (1000 * Amount.one) (4 * Amount.one) ++
  Turn.opening (.account 2) (20000000000000000) (2 * Amount.one - 4) ++
  Turn.opening (.account 3) (10000000000000000) (Amount.one + 5) ++
  [.call (.account 1) (.provide (4 * Amount.one)), .pricing 10000000000,
   .call (.account 4) (.liquidateOne (.account 2)),
   .call (.account 4) (.liquidateOne (.account 3))]

/-- After the first offset the pool is solvent, so what was credited twice
stays within the cushion. -/
theorem Deployment.pool_solvent_one_offset :
    ∃ o, plain.start (some { incentive? := some { debtCompensation := 0 } }) = .ok o ∧
      (∀ t ∈ twoOffsets.dropLast, t.outside) ∧ (∀ t ∈ twoOffsets.dropLast, t.keepsRights) ∧
      ∃ acc, (o.world.after twoOffsets.dropLast).pool.History acc ∧
        acc.overcredit ≤ acc.dust +
          (o.world.after twoOffsets.dropLast).pool.state.lossRemainder / Amount.one +
          ((o.world.after twoOffsets.dropLast).pool.claims -
            (o.world.after twoOffsets.dropLast).pool.promised) := by
  obtain ⟨o, ho, hs⟩ : ∃ o,
      plain.start (some { incentive? := some { debtCompensation := 0 } }) = .ok o ∧
      (o.world.after twoOffsets.dropLast).pool.Solvent := Checked.exists_ok (by decide +kernel)
  have hout : ∀ t ∈ twoOffsets.dropLast, t.outside := by decide +kernel
  have hrights : ∀ t ∈ twoOffsets.dropLast, t.keepsRights := by decide +kernel
  obtain ⟨⟨acc, ha⟩, hiff, -⟩ := pool_solvent_iff ho hout hrights
  exact ⟨o, ho, hout, hrights, acc, ha, (hiff acc ha).1.1 hs⟩

/-- After the second offset the only depositor is promised one unit more than
the pool holds, and cannot take it out. -/
theorem Deployment.pool_insolvent_two_offsets :
    ∃ o, plain.start (some { incentive? := some { debtCompensation := 0 } }) = .ok o ∧
      (∀ t ∈ twoOffsets, t.outside) ∧ (∀ t ∈ twoOffsets, t.keepsRights) ∧
      let w := o.world.after twoOffsets
      w.pool.remainingOf (.account 1) = 1000000000000000000 ∧
        w.pool.promised = 1000000000000000000 ∧ w.pool.total = 999999999999999999 ∧
        Checked.fault? ((Request.withdraw (4 * Amount.one)).perform (.account 1) w) =
          some (.refused .insufficientBalance) := by
  obtain ⟨o, ho, h⟩ : ∃ o,
      plain.start (some { incentive? := some { debtCompensation := 0 } }) = .ok o ∧
      let w := o.world.after twoOffsets
      w.pool.remainingOf (.account 1) = 1000000000000000000 ∧
        w.pool.promised = 1000000000000000000 ∧ w.pool.total = 999999999999999999 ∧
        Checked.fault? ((Request.withdraw (4 * Amount.one)).perform (.account 1) w) =
          some (.refused .insufficientBalance) := Checked.exists_ok (by decide +kernel)
  exact ⟨o, ho, by decide +kernel, by decide +kernel, h⟩

end Troves
