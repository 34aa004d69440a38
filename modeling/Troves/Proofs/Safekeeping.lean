/-
# What the pool has in its keeping

The stability pool's books say how many coins are deposited and how much
collateral is held for the depositors.  Both are really there: whoever is
outside the contracts can neither draw on the pool nor command its coins, and
the contracts themselves move as much as they book.
-/
import Troves.Proofs.Tokens
import Troves.Proofs.Worth

namespace Troves

open Protocol (poolAddress ledgerAddress Liquidated Sweep)
open Stability

/-! ## The coins in the pool -/

theorem Coin.command_ok {c c' : Coin} {caller : Address} {f : Token → Checked Token}
    (h : c.command caller f = .ok c') :
    c.obeys caller = true ∧ f c.token = .ok c'.token ∧ c'.protocols = c.protocols := by
  simp only [command, Checked.bind_eq_ok, require_eq_ok, Checked.pure_eq_ok] at h
  obtain ⟨_, ho, t, ht, rfl⟩ := h
  exact ⟨ho, ht, rfl⟩

/-- Whether a turn leaves alone whom the stablecoin obeys. -/
def Turn.keepsRights : Turn → Prop
  | .call _ (.grant _) => False
  | .call _ (.revoke _) => False
  | _ => True

instance (t : Turn) : Decidable t.keepsRights := by
  unfold Turn.keepsRights
  split <;> infer_instance

/-- The pool has the coins deposited in it, and only the ledger and the pool
command the stablecoin. -/
structure World.CoinsKept (w : World) : Prop where
  token : w.coin.token.Keeps poolAddress w.pool.total
  protocols : w.coin.protocols = [ledgerAddress, poolAddress]

namespace World.CoinsKept

variable {w w' : World}

theorem obeys (h : w.CoinsKept) {a : Address} :
    w.coin.obeys a = true ↔ a = ledgerAddress ∨ a = poolAddress := by
  simp [Coin.obeys, h.protocols]

theorem congr (h : w.CoinsKept) (hc : w'.coin = w.coin) (hp : w'.pool.total = w.pool.total) :
    w'.CoinsKept :=
  ⟨by rw [hc, hp]; exact h.token, by rw [hc]; exact h.protocols⟩

theorem liquidated {b liquidator : Address} {pending : Holding} {s : Liquidation.Split}
    (hw : w.CoinsKept) (h : Liquidated w b liquidator pending s w') : w'.CoinsKept := by
  have hcoin := h.coin
  simp only [Coin.settleLiquidation, Checked.bind_eq_ok, Checked.pure_eq_ok] at hcoin
  obtain ⟨c, hb, t, ht, hc⟩ := hcoin
  have hne : poolAddress ≠ ledgerAddress := by decide
  -- the pool gives up as many coins as it takes debt in
  have hkeep : c.token.Keeps poolAddress w'.pool.total ∧ c.protocols = w.coin.protocols := by
    have hp := h.pool
    rw [Stability.Pool.takeOffset] at hp
    rw [Coin.burnOffset] at hb
    by_cases hz : w.pool.total = 0 ∨ s.debtToOffset = 0
    · rw [if_pos hz] at hp hb
      rw [← Except.ok.inj hp, ← Except.ok.inj hb]
      exact ⟨hw.token, rfl⟩
    · rw [if_neg hz] at hp hb
      simp only [Checked.bind_eq_ok] at hp
      obtain ⟨_, -, hp⟩ := hp
      obtain ⟨_, r, -, ha⟩ := Pool.absorb_ok hp
      obtain ⟨-, hburn, hprot⟩ := Coin.command_ok hb
      refine ⟨(hw.token.burn hburn).weaken ?_, hprot⟩
      rw [ha.total]
      omega
  refine ⟨?_, ?_⟩
  · rw [← hc]
    exact hkeep.1.payOut ht (by decide)
  · rw [← hc]
    exact hkeep.2.trans hw.protocols

theorem sweep {price : Nat} {liquidator : Address} {t t' : Liquidation.Totals}
    (hw : w.CoinsKept) (h : Sweep price liquidator w t w' t') : w'.CoinsKept := by
  induction h with
  | done => exact hw
  | next _ out _ _ ih => exact ih (hw.liquidated out)

theorem step {t : Turn} {k : Nat} (hw : w.CoinsKept) (h : Step w t k w')
    (outside : t.outside) (rights : t.keepsRights) : w'.CoinsKept := by
  cases h with
  | coin h =>
    exact ⟨hw.token.request (Request.ne_contract outside .stabilityPool) h, hw.protocols⟩
  | command h =>
    -- nobody outside is obeyed
    rcases hw.obeys.1 (Coin.command_ok h).1 with hl | hp
    · exact absurd hl (Request.ne_contract outside .ledger)
    · exact absurd hp (Request.ne_contract outside .stabilityPool)
  | grant => exact rights.elim
  | revoke => exact rights.elim
  | provide h =>
    obtain ⟨-, hm, hprot⟩ := Coin.command_ok h.coin
    obtain ⟨gain, left, hv⟩ := Pool.provide_ok h.pool
    have hne := Request.ne_contract outside .stabilityPool
    refine ⟨(hw.token.receive (Token.move_ok hm) hne.symm).weaken ?_, hprot.trans hw.protocols⟩
    have ht := hv.total
    omega
  | withdraw h =>
    obtain ⟨left, hl, hc⟩ := h.coin
    obtain ⟨gain, left', hv⟩ := Pool.withdraw_ok h.pool
    have hsame : left' = left := Except.ok.inj (hv.found.symm.trans hl)
    have ht := hv.total
    subst hsame
    rw [Coin.repay] at hc
    split at hc
    · exact hw.congr (Except.ok.inj hc).symm (by omega)
    · obtain ⟨-, hm, hprot⟩ := Coin.command_ok hc
      refine ⟨(hw.token.give (Token.move_ok hm)).weaken ?_, hprot.trans hw.protocols⟩
      omega
  | claim h =>
    rw [h.rest]
    exact ⟨hw.token, hw.protocols⟩
  | borrow h =>
    obtain ⟨c, hm, hm'⟩ := h.coin
    obtain ⟨-, hm, hprot⟩ := Coin.command_ok hm
    obtain ⟨-, hm', hprot'⟩ := Coin.command_ok hm'
    obtain ⟨d, -, -, hr⟩ := h.rest
    have hpool : w'.pool = w.pool := by rw [hr]
    refine ⟨?_, hprot'.trans (hprot.trans hw.protocols)⟩
    rw [hpool]
    exact (hw.token.mint hm).mint hm'
  | settle h =>
    rw [h.rest]
    exact ⟨hw.token, hw.protocols⟩
  | liquidate _ h =>
    obtain ⟨d, -, hs⟩ := h.sweep
    exact sweep (w := { w with feed := w.feed.follow d }) ⟨hw.token, hw.protocols⟩ hs
  | _ => exact ⟨hw.token, hw.protocols⟩

end World.CoinsKept

/-! ## The collateral in the pool -/

/-- The pool has the collateral that it holds for the depositors. -/
def World.CollateralKept (w : World) : Prop :=
  w.collateral.Keeps poolAddress w.pool.collateral

namespace World.CollateralKept

variable {w w' : World}

theorem liquidated {b liquidator : Address} {pending : Holding} {s : Liquidation.Split}
    (hw : w.CollateralKept) (h : Liquidated w b liquidator pending s w') :
    w'.CollateralKept := by
  have hcoll := h.collateral
  simp only [Token.settleLiquidation, Checked.bind_eq_ok] at hcoll
  obtain ⟨t₁, h₁, t₂, h₂, h₃⟩ := hcoll
  have hkeep := ((hw.receiveOut h₁ (by decide)).payOut h₂ (by decide)).payOut h₃ (by decide)
  refine hkeep.weaken ?_
  have hp := h.pool
  rw [Pool.takeOffset] at hp
  split at hp
  · rw [← Except.ok.inj hp]
    exact Nat.le_add_right _ _
  · next hz =>
    simp only [Checked.bind_eq_ok] at hp
    obtain ⟨_, -, hp⟩ := hp
    obtain ⟨_, r, -, ha⟩ := Pool.absorb_ok hp
    rw [ha.collateral, Liquidation.Split.handedOver, if_neg (fun h => hz (.inr h))]

theorem sweep {price : Nat} {liquidator : Address} {t t' : Liquidation.Totals}
    (hw : w.CollateralKept) (h : Sweep price liquidator w t w' t') : w'.CollateralKept := by
  induction h with
  | done => exact hw
  | next _ out _ _ ih => exact ih (hw.liquidated out)

/-- A visitor is paid what the books lose. -/
theorem visited {a : Address} {gain gain' left amount : Nat} (hw : w.CollateralKept)
    (hv : w.pool.Visited a gain left amount w'.pool) (hg : w.pool.earned a = .ok gain')
    (hp : w.collateral.payOut poolAddress a gain' = .ok w'.collateral) :
    w'.CollateralKept := by
  have hsame : gain' = gain := Except.ok.inj (hg.symm.trans hv.paid)
  subst hsame
  refine (hw.giveOut hp).weaken ?_
  have hc := hv.collateral
  omega

theorem step {t : Turn} {k : Nat} (hw : w.CollateralKept) (h : Step w t k w')
    (outside : t.outside) : w'.CollateralKept := by
  cases h with
  | collateral h => exact hw.request (Request.ne_contract outside .stabilityPool) h
  | faucet h => exact hw.mint h
  | provide h =>
    obtain ⟨gain, left, hv⟩ := Pool.provide_ok h.pool
    obtain ⟨gain', hg, hp⟩ := h.collateral
    exact hw.visited hv hg hp
  | withdraw h =>
    obtain ⟨gain, left, hv⟩ := Pool.withdraw_ok h.pool
    obtain ⟨gain', hg, hp⟩ := h.collateral
    exact hw.visited hv hg hp
  | claim h =>
    obtain ⟨amount, -, hm⟩ := h.books
    rw [h.rest]
    exact hw.move (Token.move_ok hm) (by decide)
  | borrow h =>
    obtain ⟨d, -, -, hr⟩ := h.rest
    rw [hr]
    exact hw.draw h.collateral
  | settle h =>
    rw [h.rest]
    exact hw
  | liquidate _ h =>
    obtain ⟨d, -, hs⟩ := h.sweep
    exact sweep (w := { w with feed := w.feed.follow d }) hw hs
  | _ => exact hw

end World.CollateralKept

/-! ## The beginning -/

theorem Deployment.Ready.coinsKept {d : Deployment} {w : World} (h : d.Ready w) :
    w.CoinsKept := by
  refine ⟨?_, by rw [h.coin]⟩
  rw [h.coin, h.pool]
  exact ⟨Token.sound_new, Nat.zero_le _, fun _ => rfl⟩

/-- A run that leaves the rights alone leaves them alone at every moment. -/
theorem Deployment.Ready.coinsKept_after {d : Deployment} {w : World} (h : d.Ready w)
    {ts us : List Turn} (outside : ∀ t ∈ ts, t.outside) (rights : ∀ t ∈ ts, t.keepsRights)
    (hus : us <+: ts) : (w.after us).CoinsKept := by
  have hmem {t : Turn} (ht : t ∈ us) : t ∈ ts := hus.subset ht
  exact (World.after_induction (P := fun w _ => w.CoinsKept) (n := 0) h.wired
    (fun t ht => outside t (hmem ht))
    (fun t ht _ _ _ _ _ hs hc => hc.step hs (outside t (hmem ht)) (rights t (hmem ht)))
    h.coinsKept).2

theorem Deployment.Ready.collateralKept {d : Deployment} {w : World} (h : d.Ready w) :
    w.CollateralKept := by
  rw [World.CollateralKept]
  rw [h.collateral, h.pool]
  exact ⟨Token.sound_new, Nat.zero_le _, fun _ => rfl⟩

end Troves
