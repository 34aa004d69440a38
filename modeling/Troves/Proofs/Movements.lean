/-
# What liquidation totals account for

A liquidation call answers with totals that were added up from the splits,
while the amounts themselves were moved by the ledger, the pool, the escrow and
the two tokens, each on its own books.  `Totals.Moves` says that the totals are
what was moved, book by book:

| total | book |
|---|---|
| debt offset | off the system's debt, the coins in circulation and the deposits |
| collateral to the pool | from the system to the pool |
| surplus | from the system to the escrow |
| compensations | to the caller, in collateral out of the system and in coins |

Every entry is additive, so it holds of a call if it holds of each trove.  The
baseline for new stakes is not: it is the last liquidation that leaves it
right, with the caller's collateral already out.
-/
import Troves.Proofs.Batches

namespace Troves

open Protocol (poolAddress ledgerAddress Liquidated Due Sweep Cleared)
open Liquidation (Split Totals)

/-- The totals are what was moved between two worlds for a caller, and say where
all debt and collateral went. -/
structure Liquidation.Totals.Moves (t : Totals) (caller : Address) (w w' : World) : Prop where
  debt : t.debt = t.debtOffset + t.debtSpread
  collateral : t.collateral =
    t.collateralCompensation + t.collateralToPool + t.collateralSpread + t.surplus
  owed : w.ledger.owed = w'.ledger.owed + t.debtOffset
  held : w.ledger.held =
    w'.ledger.held + (t.collateralCompensation + t.collateralToPool + t.surplus)
  supply : w.coin.token.supply = w'.coin.token.supply + t.debtOffset
  deposits : w.pool.total = w'.pool.total + t.debtOffset
  handedOver : w'.pool.collateral = w.pool.collateral + t.collateralToPool
  setAside : w'.escrow.total = w.escrow.total + t.surplus
  paid : w'.collateral.balance caller = w.collateral.balance caller + t.collateralCompensation
  paidCoins : w'.coin.token.balance caller = w.coin.token.balance caller + t.debtCompensation

/-! ## Several movements -/

namespace Liquidation.Totals.Moves

variable {t u : Totals} {caller : Address} {w w₁ w' : World}

theorem refl (caller : Address) (w : World) : Moves 0 caller w w :=
  ⟨rfl, rfl, rfl, rfl, rfl, rfl, rfl, rfl, rfl, rfl⟩

theorem trans (h : t.Moves caller w w₁) (h' : u.Moves caller w₁ w') :
    (t + u).Moves caller w w' := by
  obtain ⟨h₁, h₂, h₃, h₄, h₅, h₆, h₇, h₈, h₉, h₁₀⟩ := h
  obtain ⟨h₁', h₂', h₃', h₄', h₅', h₆', h₇', h₈', h₉', h₁₀'⟩ := h'
  rw [add_def]
  constructor <;> dsimp only <;> omega

end Liquidation.Totals.Moves

/-! ## One liquidation -/

namespace Token

variable {t t' : Token} {source target a : Address} {amount : Nat}

theorem burn_balance_other (h : t.burn source amount = .ok t') (ha : a ≠ source) :
    t'.balance a = t.balance a := by
  obtain ⟨-, -, rfl⟩ := burn_ok h
  show (t.setBalance source (t.balance source - amount)).balance a = _
  rw [balance_setBalance, if_neg ha.symm]

theorem Passed.balance_target (h : t.Passed source target amount t') (hs : source ≠ target) :
    t'.balance target = t.balance target + amount := by
  have hb := h.balance target
  rwa [if_neg hs, if_pos rfl, Nat.add_zero] at hb

theorem Passed.balance_other (h : t.Passed source target amount t') (hs : a ≠ source)
    (ht : a ≠ target) : t'.balance a = t.balance a := by
  have hb := h.balance a
  rwa [if_neg hs.symm, if_neg ht.symm] at hb

/-- A liquidation pays its caller's share of the collateral. -/
theorem settleLiquidation_paid {liquidator : Address} {s : Split}
    (outside : Contract.find? liquidator = none)
    (h : t.settleLiquidation liquidator s = .ok t') :
    t'.balance liquidator = t.balance liquidator + s.collateralCompensation := by
  simp only [Token.settleLiquidation, Checked.bind_eq_ok] at h
  obtain ⟨t₁, h₁, t₂, h₂, h₃⟩ := h
  have hl := Request.ne_contract outside .ledger
  have hp := Request.ne_contract outside .stabilityPool
  have he := Request.ne_contract outside .escrow
  rw [(payOut_passed h₃).balance_target hl.symm, (payOut_passed h₂).balance_other hl he,
    (payOut_passed h₁).balance_other hl hp]

end Token

/-- A liquidation burns what it offsets and pays its caller's coins. -/
theorem Coin.settleLiquidation_paid {c c' : Coin} {deposits : Nat} {liquidator : Address}
    {s : Split} (outside : Contract.find? liquidator = none) (covered : s.debtToOffset ≤ deposits)
    (h : c.settleLiquidation deposits liquidator s = .ok c') :
    c.token.supply = c'.token.supply + s.debtToOffset ∧
      c'.token.balance liquidator = c.token.balance liquidator + s.debtCompensation := by
  simp only [Coin.settleLiquidation, Checked.bind_eq_ok, Checked.pure_eq_ok] at h
  obtain ⟨c₁, hb, token, ht, rfl⟩ := h
  have hpay := Token.payOut_passed ht
  have hsupply := (Coin.burnOffset_ok covered hb).2
  have hburnt : c₁.token.balance liquidator = c.token.balance liquidator := by
    rw [burnOffset] at hb
    split at hb
    · cases hb
      rfl
    · exact Token.burn_balance_other (Coin.command_ok hb).2.1
        (Request.ne_contract outside .stabilityPool)
  refine ⟨?_, ?_⟩
  · rw [hpay.supply, hsupply]
  · rw [hpay.balance_target (Request.ne_contract outside .ledger).symm, hburnt]

/-- The baseline is taken of what is left when the caller is paid. -/
theorem Ledger.liquidate_baseline {l l' : Ledger} {b : Address} {pending : Holding} {s : Split}
    (h : l.liquidate b pending s = .ok l') :
    l'.baseline = { stakes := l'.totalStakes, collateral := l'.held } := by
  simp only [liquidate, Checked.bind_eq_ok] at h
  obtain ⟨l₁, -, l₂, -, l₃, -, l₄, -, l₅, hb, hr⟩ := h
  obtain ⟨-, rfl⟩ := rebase_ok hb
  obtain ⟨a, ha, rfl⟩ := release_ok hr
  obtain ⟨-, hsub⟩ := Holding.part_sub ha .collateral
  simp only [Holding.part] at hsub
  rw [held, hsub]

namespace Protocol

variable {w w' : World} {b liquidator : Address} {price : Nat} {e : Entire} {s : Split}

theorem Liquidated.moves (outside : Contract.find? liquidator = none) (due : Due w b price e s)
    (h : Liquidated w b liquidator e.pending s w') :
    (Totals.single s).Moves liquidator w w' := by
  have hx := due.exact
  obtain ⟨total, -, hs⟩ := due.split
  obtain ⟨hd, hc, -⟩ := Liquidation.split?_whole hs
  obtain ⟨hactive, hdefault⟩ := Ledger.liquidate_pools h.ledger .debt
  obtain ⟨hactive', hdefault'⟩ := Ledger.liquidate_pools h.ledger .collateral
  simp only [Holding.part, Split.outgoing, hx.handedOver] at hactive hdefault hactive' hdefault'
  obtain ⟨htotal, hpool⟩ := Stability.Pool.takeOffset_books hx.covered h.pool
  rw [hx.handedOver] at hpool
  obtain ⟨hsupply, hcoins⟩ := Coin.settleLiquidation_paid outside hx.covered h.coin
  constructor
  · exact hd.trans hx.debt.symm
  · exact hc.trans hx.collateral.symm
  · simp only [Ledger.owed, Totals.single]
    omega
  · simp only [Ledger.held, Totals.single]
    omega
  · exact hsupply
  · exact htotal
  · exact hpool
  · exact (Escrow.setAside_ok h.escrow).1
  · exact Token.settleLiquidation_paid outside h.collateral
  · exact hcoins

/-! ## A whole call -/

variable {t t' : Totals}

/-- The totals of a sweep grow by what it moves. -/
theorem Sweep.moves (outside : Contract.find? liquidator = none)
    (h : Sweep price liquidator w t w' t') :
    ∃ u, t' = t + u ∧ u.Moves liquidator w w' := by
  induction h with
  | done => exact ⟨0, (add_zero _).symm, .refl liquidator _⟩
  | next due out tally _ ih =>
    obtain ⟨u, rfl, hu⟩ := ih
    obtain ⟨-, rfl⟩ := Totals.tally_some tally
    exact ⟨_, add_assoc _ _ _, (out.moves outside due).trans hu⟩

/-- The last liquidation of a sweep leaves the baseline of what there is. -/
theorem Sweep.baseline (h : Sweep price liquidator w t w' t') :
    (w' = w ∧ t' = t) ∨ w'.ledger.baseline =
      { stakes := w'.ledger.totalStakes, collateral := w'.ledger.held } := by
  induction h with
  | done => exact .inl ⟨rfl, rfl⟩
  | next _ out _ _ ih =>
    rcases ih with ⟨rfl, -⟩ | hb
    · exact .inr (Ledger.liquidate_baseline out.ledger)
    · exact .inr hb

/-- A call that liquidates a trove has seen that the system's totals fit. -/
theorem Sweep.fits (h : Sweep price liquidator w t w' t') (hn : t'.troves ≠ t.troves) (x : Part) :
    w.ledger.activePool.part x + w.ledger.defaultPool.part x < Amount.limit := by
  cases h with
  | done => exact absurd rfl hn
  | next due _ _ _ =>
    obtain ⟨total, ht, -⟩ := due.split
    exact Ledger.totalRatio_fits ht x

end Protocol

theorem Ledger.systemDebt_eq {l : Ledger} (h : l.owed < Amount.limit) :
    l.systemDebt = .ok l.owed :=
  Amount.add_eq_ok.2 ⟨h, rfl⟩

theorem Ledger.systemCollateral_eq {l : Ledger} (h : l.held < Amount.limit) :
    l.systemCollateral = .ok l.held :=
  Amount.add_eq_ok.2 ⟨h, rfl⟩

/-- What is asked for liquidations answers with what the sweep came to. -/
theorem Request.ensures_cleared {w : World} (hw : w.Wired) {r : Request} (hr : r.isLiquidation)
    (caller : Address) : (r.perform caller).Ensures w fun reply w' =>
      ∃ t, reply = .totals t ∧ Cleared w caller t w' := by
  cases r with
  | liquidateOne borrower =>
    exact Action.ensures_bind.2 ((Protocol.ensures_liquidateOne hw).mono fun t _ h =>
      Action.ensures_pure.2 ⟨t, rfl, h⟩)
  | liquidateRiskiest most =>
    exact Action.ensures_bind.2 ((Protocol.ensures_liquidateRiskiest hw).mono fun t _ h =>
      Action.ensures_pure.2 ⟨t, rfl, h⟩)
  | liquidateAll borrowers =>
    exact Action.ensures_bind.2 ((Protocol.ensures_liquidateAll hw).mono fun t _ h =>
      Action.ensures_pure.2 ⟨t, rfl, h⟩)
  | _ => exact hr.elim

/-- In every state of every run, what a liquidation call answers is what it
moved: the totals say where all debt and collateral went, and every book of the
system changes by just the total for it.  The baseline for new stakes is left at
the stakes and the collateral that remain. -/
theorem Deployment.liquidation_accounted {d : Deployment}
    {incentive? : Option Liquidation.Incentive} {o : Outcome Unit}
    (start : d.start (some { incentive? }) = .ok o) {ts : List Turn}
    (outside : ∀ t ∈ ts, t.outside) {r : Request} (liquidation : r.isLiquidation)
    {caller : Address} (account : Contract.find? caller = none) {out : Outcome Reply}
    (run : r.perform caller (o.world.after ts) = .ok out) :
    let w := o.world.after ts
    let w' := out.world
    ∃ t, out.value = .totals t ∧ t.Moves caller w w' ∧
      w.ledger.systemDebt = .ok w.ledger.owed ∧ w'.ledger.systemDebt = .ok w'.ledger.owed ∧
      w.ledger.systemCollateral = .ok w.ledger.held ∧
      w'.ledger.systemCollateral = .ok w'.ledger.held ∧
      w'.ledger.baseline =
        { stakes := w'.ledger.totalStakes, collateral := w'.ledger.held } := by
  intro w w'
  have hw := (start_ready start).wired.after outside
  obtain ⟨t, ht, hc⟩ := Request.ensures_cleared hw liquidation caller out run
  obtain ⟨d, -, hs⟩ := hc.sweep
  obtain ⟨u, hu, hm⟩ := hs.moves account
  obtain rfl : t = u := hu.trans (zero_add u)
  -- the feed's step touches none of the books
  have hm : t.Moves caller w w' := ⟨hm.debt, hm.collateral, hm.owed, hm.held, hm.supply,
    hm.deposits, hm.handedOver, hm.setAside, hm.paid, hm.paidCoins⟩
  have howed : w.ledger.owed < Amount.limit := hs.fits hc.some .debt
  have hheld : w.ledger.held < Amount.limit := hs.fits hc.some .collateral
  have howed' : w'.ledger.owed < Amount.limit := by
    have := hm.owed
    omega
  have hheld' : w'.ledger.held < Amount.limit := by
    have := hm.held
    omega
  have hbase : w'.ledger.baseline =
      { stakes := w'.ledger.totalStakes, collateral := w'.ledger.held } := by
    rcases hs.baseline with ⟨-, rfl⟩ | hb
    · exact absurd rfl hc.some
    · exact hb
  exact ⟨t, ht, hm, Ledger.systemDebt_eq howed, Ledger.systemDebt_eq howed',
    Ledger.systemCollateral_eq hheld, Ledger.systemCollateral_eq hheld', hbase⟩

/-- Four troves are opened and the price falls until the system is in recovery:
one can be liquidated at the cap, one is too large for the cap and the pool, and
one is worth too little, so the pool takes a part and the rest is spread. -/
def Deployment.mixedModes : List Turn :=
  Turn.opening (.account 1) (22 * Amount.one) (2000 * Amount.one) ++
  Turn.opening (.account 2) (5 * Amount.one) (400 * Amount.one) ++
  Turn.opening (.account 3) (5 * Amount.one) (410 * Amount.one) ++
  Turn.opening (.account 4) (10 * Amount.one) (1040 * Amount.one) ++
  [.call (.account 1) (.provide (1000 * Amount.one)), .pricing 13500000000]

/-- What liquidating the last three of them comes to. -/
def Deployment.mixedTotals : Totals where
  troves := 2
  debt := 1840 * Amount.one
  collateral := 15 * Amount.one
  collateralCompensation := 74444444444444444
  debtCompensation := 400 * Amount.one
  debtOffset := 1000 * Amount.one
  collateralToPool := 8074121863799283153
  debtSpread := 840 * Amount.one
  collateralSpread := 6740322580645161291
  surplus := 111111111111111112

theorem Deployment.liquidation_accounted_mixedModes :
    ∃ o, plain.start (some { incentive? := none }) = .ok o ∧
      (∀ t ∈ mixedModes, t.outside) ∧
      let w := o.world.after mixedModes
      let r := Request.liquidateAll [.account 2, .account 3, .account 4]
      r.isLiquidation ∧ Contract.find? (.account 9) = none ∧
        ∃ out, r.perform (.account 9) w = .ok out ∧ out.value = .totals mixedTotals ∧
          mixedTotals.Moves (.account 9) w out.world ∧
          out.world.ledger.systemDebt = .ok out.world.ledger.owed ∧
          out.world.ledger.baseline =
            { stakes := out.world.ledger.totalStakes, collateral := out.world.ledger.held } := by
  obtain ⟨o, ho, hval⟩ : ∃ o, plain.start (some { incentive? := none }) = .ok o ∧
      (do
        let out ← (Request.liquidateAll [.account 2, .account 3, .account 4]).perform (.account 9)
          (o.world.after mixedModes)
        return out.value) = .ok (.totals mixedTotals) :=
    Checked.exists_ok (by decide +kernel)
  have hout : ∀ t ∈ mixedModes, t.outside := by decide +kernel
  obtain ⟨out, hrun, hval⟩ := Checked.bind_eq_ok.1 hval
  rw [Checked.pure_eq_ok] at hval
  have haccount : Contract.find? (.account 9) = none := rfl
  obtain ⟨t, ht, hm, -, hdebt, -, -, hbase⟩ :=
    liquidation_accounted ho hout (r := .liquidateAll [.account 2, .account 3, .account 4])
      trivial haccount hrun
  obtain rfl := Reply.totals.inj (hval.symm.trans ht)
  exact ⟨o, ho, hout, trivial, haccount, out, hrun, hval, hm, hdebt, hbase⟩

end Troves
