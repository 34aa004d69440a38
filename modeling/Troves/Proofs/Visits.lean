/-
# When a visit goes through

Providing and withdrawing do several things one after the other.  Each part
that can fail is named here, and if none of them fails the request goes
through.
-/
import Troves.Proofs.Requests

namespace Troves

namespace Protocol

open Troves.Action

variable {w : World} {Q : Unit → World → Prop}

theorem succeeds_onPool {f : Stability.Pool → Checked Stability.Pool} {pool : Stability.Pool}
    (hf : f w.pool = .ok pool) (h : Q () { w with pool }) : (onPool f).Succeeds w Q :=
  succeeds_bind (succeeds_world (succeeds_bind (succeeds_ofChecked hf (succeeds_update h))))

theorem succeeds_poolLinks {links : Stability.Links} (h : w.pool.links? = some links)
    {Q : Stability.Links → World → Prop} (hQ : Q links w) : poolLinks.Succeeds w Q := by
  refine succeeds_bind (succeeds_world ?_)
  simp only [h]
  exact succeeds_pure hQ

theorem succeeds_command {caller : Address} {f : Token → Checked Token} {coin : Coin}
    (hf : w.coin.command caller f = .ok coin) (h : Q () { w with coin }) :
    (do onlyProtocols caller; onCoin f : Action Unit).Succeeds w Q := by
  simp only [Coin.command, Checked.bind_eq_ok, Checked.pure_eq_ok] at hf
  obtain ⟨_, ho, t, ht, rfl⟩ := hf
  refine succeeds_bind (succeeds_bind (succeeds_world (succeeds_ofChecked ho ?_)))
  exact succeeds_bind (succeeds_world (succeeds_bind (succeeds_ofChecked ht (succeeds_update h))))

theorem succeeds_poolMove (hp : w.pool.links? = some .usual) {source target : Address}
    {amount : Nat} {coin : Coin}
    (hc : w.coin.command poolAddress (·.move source target amount) = .ok coin)
    (h : Q () { w with coin }) : (poolMove source target amount).Succeeds w Q := by
  refine succeeds_bind (succeeds_poolLinks hp ?_)
  rw [via_coin]
  exact succeeds_command hc h

theorem succeeds_payGain (hp : w.pool.links? = some .usual) {depositor : Address}
    {gain loss : Nat} {pool : Stability.Pool} {collateral : Token}
    (hg : w.pool.payGain gain = .ok pool)
    (hc : w.collateral.payOut poolAddress depositor gain = .ok collateral)
    (h : Q () { w with pool, collateral }) : (payGain depositor gain loss).Succeeds w Q := by
  refine succeeds_bind (succeeds_emit ?_)
  rw [Stability.Pool.payGain] at hg
  rw [Token.payOut] at hc
  by_cases hz : gain = 0
  · rw [if_pos hz] at hg hc
    rw [if_neg (not_not.2 hz)]
    cases hg
    cases hc
    exact succeeds_pure h
  · rw [if_neg hz] at hg hc
    rw [if_pos hz]
    have hl : pool.links? = some .usual := by
      simp only [Checked.bind_eq_ok, Checked.pure_eq_ok] at hg
      obtain ⟨_, -, rfl⟩ := hg
      exact hp
    refine succeeds_bind (succeeds_onPool hg (succeeds_bind (succeeds_poolLinks hl ?_)))
    have hloc : Contract.locate Stability.Links.usual.collateral = .ok .collateralToken :=
      Contract.locate_address .collateralToken
    refine succeeds_bind (succeeds_bind (succeeds_ofChecked hloc ?_))
    refine succeeds_bind (succeeds_bind (succeeds_world ?_))
    exact succeeds_bind (succeeds_ofChecked hc
      (succeeds_update (succeeds_pure (succeeds_ofChecked rfl h))))

theorem succeeds_recordDeposit {depositor : Address} {amount : Nat}
    (h : Q () { w with pool := w.pool.record depositor amount }) :
    (recordDeposit depositor amount).Succeeds w Q :=
  succeeds_bind (succeeds_onPool rfl (succeeds_emit h))

/-- The last part of a visit goes through if the gain can be paid. -/
theorem succeeds_finish {w' : World} (hl : w'.pool.links? = some .usual) {a : Address}
    {deposit gain loss : Nat} (hle : gain ≤ w'.pool.collateral) {collateral : Token}
    (hp : w'.collateral.payOut poolAddress a gain = .ok collateral) :
    (do recordDeposit a deposit; payGain a gain loss : Action Unit).Succeeds w'
      fun _ _ => True := by
  refine succeeds_bind (succeeds_recordDeposit ?_)
  obtain ⟨q, hq⟩ : ∃ q, (w'.pool.record a deposit).payGain gain = .ok q := by
    rw [Stability.Pool.payGain]
    split
    · exact ⟨_, rfl⟩
    · have hsub : Amount.sub (w'.pool.record a deposit).collateral gain =
          .ok (w'.pool.collateral - gain) := Amount.sub_eq_ok.2 ⟨hle, rfl⟩
      rw [hsub]
      exact ⟨_, rfl⟩
  exact succeeds_payGain (by exact hl) hq hp trivial

/-- A withdrawal goes through if its parts do. -/
theorem withdraw_succeeds (h : w.Wired) {a : Address} {amount gain left : Nat}
    (hd : (w.pool.deposit a).amount ≠ 0) (hg : w.pool.earned a = .ok gain)
    (hl : w.pool.remaining a = .ok left) (ht : min amount left ≤ w.pool.total)
    {coin : Coin} (hc : w.coin.repay a (min amount left) = .ok coin)
    (hcoll : gain ≤ w.pool.collateral) {collateral : Token}
    (hp : w.collateral.payOut poolAddress a gain = .ok collateral) :
    (withdraw a amount).Succeeds w fun _ _ => True := by
  have hdep : require ((w.pool.deposit a).amount != 0) .noDeposit = .ok () :=
    require_eq_ok.2 (bne_iff_ne.2 hd)
  refine succeeds_bind (succeeds_world (succeeds_bind (succeeds_ofChecked hdep ?_)))
  refine succeeds_bind (succeeds_ofChecked hg (succeeds_bind (succeeds_ofChecked hl ?_)))
  rw [Coin.repay] at hc
  by_cases hz : min amount left = 0
  · simp only [hz, ne_eq, not_true_eq_false, if_false]
    split
    · exact succeeds_bind (succeeds_onPool rfl (succeeds_finish (by exact h.pool) hcoll hp))
    · exact succeeds_finish h.pool hcoll hp
  · rw [if_neg hz] at hc
    simp only [ne_eq, hz, not_false_eq_true, if_true]
    refine succeeds_bind (succeeds_poolMove h.pool hc (succeeds_bind ?_))
    have hsub : Amount.sub w.pool.total (min amount left) =
        .ok (w.pool.total - min amount left) := Amount.sub_eq_ok.2 ⟨ht, rfl⟩
    refine succeeds_onPool (by simp only [hsub]; rfl) ?_
    split
    · exact succeeds_bind (succeeds_onPool rfl (succeeds_finish (by exact h.pool) hcoll hp))
    · exact succeeds_finish (by exact h.pool) hcoll hp

/-- A deposit goes through if its parts do. -/
theorem provide_succeeds (h : w.Wired) {a : Address} {amount gain left : Nat}
    (hn : amount ≠ 0) (hg : w.pool.earned a = .ok gain)
    (hl : w.pool.remaining a = .ok left) (ht : w.pool.total + amount < Amount.limit)
    (hd : left + amount < Amount.limit)
    (hnew : (w.pool.deposit a).amount = 0 → w.pool.depositors + 1 < Counter.limit) {coin : Coin}
    (hc : w.coin.command poolAddress (·.move a poolAddress amount) = .ok coin)
    (hcoll : gain ≤ w.pool.collateral) {collateral : Token}
    (hp : w.collateral.payOut poolAddress a gain = .ok collateral) :
    (provide a amount).Succeeds w fun _ _ => True := by
  have hamount : require (amount != 0) .zeroAmount = .ok () :=
    require_eq_ok.2 (bne_iff_ne.2 hn)
  refine succeeds_bind (succeeds_ofChecked hamount (succeeds_bind (succeeds_world ?_)))
  refine succeeds_bind (succeeds_ofChecked hg (succeeds_bind (succeeds_ofChecked hl ?_)))
  refine succeeds_bind (succeeds_poolMove h.pool hc (succeeds_bind ?_))
  have hadd : Amount.add w.pool.total amount = .ok (w.pool.total + amount) :=
    Amount.add_eq_ok.2 ⟨ht, rfl⟩
  have hdep : Amount.add left amount = .ok (left + amount) := Amount.add_eq_ok.2 ⟨hd, rfl⟩
  refine succeeds_onPool (by simp only [hadd]; rfl) ?_
  split
  · next hz =>
    have hnext : Counter.next w.pool.depositors = .ok (w.pool.depositors + 1) :=
      Counter.next_eq_ok.2 ⟨hnew hz, rfl⟩
    refine succeeds_bind (succeeds_onPool (by simp only [hnext]; rfl)
      (succeeds_bind (succeeds_ofChecked hdep ?_)))
    exact succeeds_finish (by exact h.pool) hcoll hp
  · refine succeeds_bind (succeeds_ofChecked hdep ?_)
    exact succeeds_finish (by exact h.pool) hcoll hp

end Protocol

end Troves
