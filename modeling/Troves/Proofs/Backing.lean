/-
# What backs the stablecoin

Every coin there is was minted for a debt that is still on record.  Opening a
trove mints what it owes, the part set aside for a liquidator included; an
offset burns what it cancels; everything else only moves coins between holders
or debt between the two pools.
-/
import Troves.Proofs.ActivePool
import Troves.Proofs.Safekeeping

namespace Troves

open Protocol (poolAddress ledgerAddress Liquidated Sweep)
open Liquidation (Split Totals)

/-! ## Coins that come and go -/

namespace Coin

variable {c c' : Coin}

theorem repay_reshuffled {a : Address} {amount : Nat} (h : c.repay a amount = .ok c') :
    c.token.Reshuffled c'.token := by
  rw [repay] at h
  split at h
  · cases h
    exact ⟨id, rfl⟩
  · exact (Token.move_ok (command_ok h).2.1).passed.toReshuffled

/-- An offset burns just what it cancels; a pool without deposits cancels
nothing. -/
theorem burnOffset_ok {deposits debt : Nat} (hd : debt ≤ deposits)
    (h : c.burnOffset deposits debt = .ok c') :
    (c.token.Sound → c'.token.Sound) ∧ c'.token.supply + debt = c.token.supply := by
  rw [burnOffset] at h
  split at h
  · cases h
    exact ⟨id, by omega⟩
  · obtain ⟨-, hb, -⟩ := command_ok h
    obtain ⟨-, hle, ht⟩ := Token.burn_ok hb
    refine ⟨Token.burn_sound hb, ?_⟩
    rw [ht]
    exact Nat.sub_add_cancel hle

/-- The coin obeys nobody but the ledger and the stability pool. -/
def Confined (c : Coin) : Prop :=
  ∀ a, c.obeys a = true → a = ledgerAddress ∨ a = poolAddress

theorem confined_of_protocols (h : c.protocols = [ledgerAddress, poolAddress]) :
    c.Confined := by
  intro a ha
  simpa [obeys, h] using ha

/-- Nobody outside the contracts commands a confined coin. -/
theorem Confined.not_commanded (h : c.Confined) {a : Address} (ha : Contract.find? a = none)
    {f : Token → Checked Token} : c.command a f ≠ .ok c' := by
  intro hc
  rcases h a (command_ok hc).1 with hl | hp
  · exact Request.ne_contract ha .ledger hl
  · exact Request.ne_contract ha .stabilityPool hp

end Coin

/-! ## Coins and debt -/

/-- All debt on record. -/
def Ledger.owed (l : Ledger) : Nat := l.activePool.debt + l.defaultPool.debt

/-- What is opened goes on record. -/
theorem Protocol.Opened.owed {w w' : World} {a : Address} {holding : Holding}
    {hint : TroveList.Slot} (h : Protocol.Opened w a holding hint w') :
    w'.ledger.owed = w.ledger.owed + holding.debt := by
  obtain ⟨ha, hd⟩ := h.pools .debt
  simp only [Holding.part] at ha
  rw [Ledger.owed, Ledger.owed, ha, hd]
  omega

/-- A settlement only moves debt from one pool to the other. -/
theorem Ledger.SettledIn.owed {l l' : Ledger} {b : Address} {s : Accrual.Settlement}
    (h : Ledger.SettledIn l b s l') : l'.owed = l.owed := by
  have ha := h.activePool .debt
  obtain ⟨hle, hd⟩ := Holding.part_sub h.defaultPool .debt
  simp only [Holding.part] at ha hle hd
  rw [Ledger.owed, Ledger.owed, ha, hd]
  omega

/-- The coins add up, and there are as many as there is debt on record. -/
structure World.Backed (w : World) : Prop where
  token : w.coin.token.Sound
  supply : w.coin.token.supply = w.ledger.owed

namespace World.Backed

variable {w w' : World}

theorem congr (h : w.Backed) (hc : w.coin.token.Reshuffled w'.coin.token)
    (hl : w'.ledger.owed = w.ledger.owed) : w'.Backed :=
  ⟨hc.sound h.token, by rw [hc.supply, hl, h.supply]⟩

/-- A liquidation burns the debt that it offsets and keeps the rest on
record. -/
theorem liquidated {b liquidator : Address} {price : Nat} {e : Entire} {s : Split}
    (hw : w.Backed) (due : Protocol.Due w b price e s)
    (h : Liquidated w b liquidator e.pending s w') : w'.Backed := by
  have hcoin := h.coin
  simp only [Coin.settleLiquidation, Checked.bind_eq_ok, Checked.pure_eq_ok] at hcoin
  obtain ⟨c, hb, t, ht, hc⟩ := hcoin
  obtain ⟨hsound, hburn⟩ := Coin.burnOffset_ok due.exact.covered hb
  have hpay := Token.payOut_passed ht
  obtain ⟨hactive, hdefault⟩ := Ledger.liquidate_pools h.ledger .debt
  have hout : s.outgoing.part .debt = s.debtToOffset := rfl
  have hs := hw.supply
  simp only [Holding.part, Ledger.owed] at hactive hdefault hs hout
  have ht : w'.coin.token = t := by rw [← hc]
  refine ⟨?_, ?_⟩
  · rw [ht]
    exact hpay.sound (hsound hw.token)
  · rw [ht, hpay.supply, Ledger.owed]
    omega

theorem sweep {price : Nat} {liquidator : Address} {t t' : Totals} (hw : w.Backed)
    (h : Sweep price liquidator w t w' t') : w'.Backed := by
  induction h with
  | done => exact hw
  | next due out _ _ ih => exact ih (hw.liquidated due out)

/-- A trove is opened with coins for all that it owes. -/
theorem opened {a : Address} {holding : Holding} {hint : TroveList.Slot} (hw : w.Backed)
    (h : Protocol.Opened w a holding hint w') : w'.Backed := by
  obtain ⟨c, hm, hm'⟩ := h.coin
  obtain ⟨-, hm, -⟩ := Coin.command_ok hm
  obtain ⟨-, hm', -⟩ := Coin.command_ok hm'
  obtain ⟨-, hs⟩ := Token.mint_ok hm
  obtain ⟨-, hs'⟩ := Token.mint_ok hm'
  refine ⟨Token.mint_sound hm' (Token.mint_sound hm hw.token), ?_⟩
  have hdebt := h.debt_ne
  have hsup := hw.supply
  rw [hs', hs, h.owed]
  dsimp only
  omega

theorem step {t : Turn} {k : Nat} (hw : w.Backed) (confined : w.coin.Confined)
    (outside : t.outside) (h : Step w t k w') : w'.Backed := by
  cases h with
  | coin h => exact hw.congr (Token.request_reshuffled h) rfl
  | command h => exact absurd h (confined.not_commanded outside)
  | grant =>
    refine hw.congr ?_ rfl
    show w.coin.token.Reshuffled (w.coin.grant _).token
    rw [Coin.grant]
    split <;> exact ⟨id, rfl⟩
  | revoke => exact hw.congr ⟨id, rfl⟩ rfl
  | incentive => exact hw.congr ⟨id, rfl⟩ rfl
  | provide h =>
    refine hw.congr (Token.move_ok (Coin.command_ok h.coin).2.1).passed.toReshuffled ?_
    rw [h.rest]
  | withdraw h =>
    obtain ⟨left, -, hc⟩ := h.coin
    refine hw.congr (Coin.repay_reshuffled hc) ?_
    rw [h.rest]
  | claim h =>
    rw [h.rest]
    exact ⟨hw.token, hw.supply⟩
  | borrow h => exact hw.opened h
  | settle h =>
    refine hw.congr ?_ h.booked.owed
    rw [h.rest]
    exact ⟨id, rfl⟩
  | liquidate _ h =>
    obtain ⟨d, -, hs⟩ := h.sweep
    exact sweep (w := { w with feed := w.feed.follow d }) ⟨hw.token, hw.supply⟩ hs
  | _ => exact ⟨hw.token, hw.supply⟩

end World.Backed

theorem Deployment.Ready.backed {d : Deployment} {w : World} (h : d.Ready w) : w.Backed := by
  obtain ⟨i, hi⟩ := h.ledger
  refine ⟨?_, ?_⟩
  · rw [h.coin]
    exact Token.sound_new
  · rw [h.coin, hi]
    rfl

/-- The coins in circulation, as many as the balances add up to, are all the
debt on record, in every state of a run in which the stablecoin never obeys
anybody but the ledger and the pool. -/
theorem Deployment.coin_backed {d : Deployment} {incentive? : Option Liquidation.Incentive}
    {o : Outcome Unit} (start : d.start (some { incentive? }) = .ok o) {ts : List Turn}
    (outside : ∀ t ∈ ts, t.outside)
    (confined : ∀ us, us <+: ts → (o.world.after us).coin.Confined) :
    let w := o.world.after ts
    (w.coin.token.balances.sum fun _ n => n) = w.coin.token.supply ∧
      w.ledger.systemDebt = .ok w.coin.token.supply := by
  have hr := start_ready start
  obtain ⟨-, h⟩ := World.after_induction_within (S := fun w => w.coin.Confined) hr.wired outside
    confined (fun t ht _ _ _ _ hc hs hb => hb.step hc (outside t ht) hs) hr.backed
  refine ⟨h.token.supply, Amount.add_eq_ok.2 ⟨?_, h.supply⟩⟩
  have hlt := h.token.supply_lt
  rw [h.supply] at hlt
  exact hlt

theorem Deployment.coin_backed_partlyOffset :
    ∃ o, plain.start (some { incentive? := none }) = .ok o ∧
      (∀ t ∈ partlyOffset, t.outside) ∧
      (∀ us, us <+: partlyOffset → (o.world.after us).coin.Confined) ∧
      let w := o.world.after partlyOffset
      w.coin.token.supply = 1200 * Amount.one ∧
        (w.coin.token.balances.sum fun _ n => n) = w.coin.token.supply ∧
        w.ledger.systemDebt = .ok w.coin.token.supply := by
  obtain ⟨o, ho, hs⟩ : ∃ o, plain.start (some { incentive? := none }) = .ok o ∧
      (o.world.after partlyOffset).coin.token.supply = 1200 * Amount.one :=
    Checked.exists_ok (by decide +kernel)
  have hout : ∀ t ∈ partlyOffset, t.outside := by decide +kernel
  have hrights : ∀ t ∈ partlyOffset, t.keepsRights := by decide +kernel
  have hconf : ∀ us, us <+: partlyOffset → (o.world.after us).coin.Confined := fun us hus =>
    Coin.confined_of_protocols ((start_ready ho).coinsKept_after hout hrights hus).protocols
  exact ⟨o, ho, hout, hconf, hs, coin_backed ho hout hconf⟩

end Troves
