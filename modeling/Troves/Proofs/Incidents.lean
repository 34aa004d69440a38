/-
# What goes wrong on the way

A liquidation call says that there is no trove to liquidate in two places
only: before it looks at any, and when it concludes.  The price can always be had,
and whatever fails in between, in a ratio, in a split or in the books, fails
for another reason.
-/
import Troves.Proofs.Liquidable
import Troves.Proofs.Readings

namespace Troves

open Troves.Action
open Liquidation (Split Totals Mode)

/-- Whether a fault says anything but that there is no trove to liquidate. -/
@[simp] def Fault.isIncidental : Fault → Prop
  | .refused .troveNotActive | .refused .nothingToLiquidate => False
  | _ => True

theorem Fault.isIncidental.ne {f : Fault} (h : f.isIncidental) :
    f ≠ .refused .nothingToLiquidate := by
  rintro rfl
  exact h.elim

/-- The computation fails only incidentally. -/
abbrev Checked.Incidental {α : Type} (x : Checked α) : Prop :=
  x.Meets (fun _ => True) Fault.isIncidental

theorem Checked.Incidental.meets {α : Type} {x : Checked α} {Q : α → Prop} (h : x.Incidental)
    (hQ : ∀ a, x = .ok a → Q a) : x.Meets Q Fault.isIncidental :=
  Checked.Meets.mono h (fun a ha _ => hQ a ha) fun _ he => he

/-! ## Ratios and splits -/

theorem Ratio.collateral_incidental {coll debt price : Nat} :
    (Ratio.collateral coll debt price).Incidental := by
  simp [Ratio.collateral, Amount.mulDiv]

theorem Liquidation.split?_incidental {mode : Mode} {debt coll price total deposits : Nat}
    {i : Incentive} : (split? mode debt coll price total deposits i).Incidental := by
  cases mode <;>
    simp [split?, Ratio.collateral_incidental, Split.offsetAndSpread, Split.offsetPart,
      Split.spreadAll, Split.offsetAtCap, Amount.mulDiv]

theorem Liquidation.Totals.tally_incidental {t : Totals} {split? : Option Split} :
    (t.tally split?).Incidental := by
  cases split? <;> simp [tally, add]

/-! ## The books -/

@[simp] theorem Holding.add_incidental {a b : Holding} : (a.add b).Incidental := by
  simp [add]

@[simp] theorem Holding.sub_incidental {a b : Holding} : (a.sub b).Incidental := by
  simp [sub]

namespace Ledger

variable {l : Ledger} {b : Address} {amount : Holding} {s : Split} {price : Nat}

theorem entire_incidental : (l.entire b).Incidental := by
  simp [entire, pending, Accrual.pending, Accrual.share, Amount.mulDiv]

theorem ratio_incidental : (l.ratio b price).Incidental := by
  simp [ratio, entire_incidental, Ratio.collateral_incidental]

theorem totalRatio_incidental : (l.totalRatio price).Incidental := by
  simp [totalRatio, systemCollateral, systemDebt, Ratio.collateral_incidental]

theorem takeOut_incidental : (l.takeOut b amount).Incidental := by
  simp [takeOut, activate, dropStake]

theorem spreadOver_incidental : (l.spreadOver amount).Incidental := by
  simp [spreadOver, spread?, Accrual.spread?, bookSpread]

theorem liquidate_incidental : (l.liquidate b amount s).Incidental := by
  simp [liquidate, takeOut_incidental, spreadOver_incidental, releaseOffset, releaseSurplus,
    rebase, release]

end Ledger

theorem TroveList.detach_incidental {l : TroveList} {a : Address} : (l.detach a).Incidental := by
  rw [detach]
  split <;> trivial

theorem Stability.Pool.takeOffset_incidental {p : Pool} {debt coll : Nat} :
    (p.takeOffset debt coll).Incidental := by
  simp [takeOffset, absorb, ProductSum.offset, ProductSum.rates, ProductSum.lossRate,
    ProductSum.shrink]

theorem Escrow.setAside_incidental {e : Escrow} {owner : Address} {amount : Nat} :
    (e.setAside owner amount).Incidental := by
  simp [setAside, book]

theorem Token.payOut_incidental {t : Token} {source target : Address} {amount : Nat} :
    (t.payOut source target amount).Incidental := by
  simp [payOut, move]

theorem Token.settleLiquidation_incidental {t : Token} {liquidator : Address} {s : Split} :
    (t.settleLiquidation liquidator s).Incidental := by
  simp [settleLiquidation, payOut_incidental]

theorem Coin.settleLiquidation_incidental {c : Coin} {deposits : Nat} {liquidator : Address}
    {s : Split} : (c.settleLiquidation deposits liquidator s).Incidental := by
  simp [settleLiquidation, Token.payOut_incidental, burnOffset, command, Token.burn]

/-! ## Liquidations -/

namespace Protocol

variable {w : World} {b liquidator : Address} {price : Nat}

/-- An attempt at a trove fails only incidentally. -/
theorem meets_liquidateIfDue (h : w.Wired) :
    (liquidateIfDue .usual b price liquidator).Meets w (Attempted price liquidator w b)
      Fault.isIncidental := by
  refine Action.Meets.of_ensures ?_ (ensures_liquidateIfDue h)
  simp only [liquidateIfDue, meets_bind, meets_world, meets_ite, liftM_eq_ofChecked,
    meets_ofChecked, via_pool, meets_pure]
  split
  · refine Ledger.entire_incidental.meets fun e _ => Ledger.totalRatio_incidental.meets
      fun total _ => Liquidation.split?_incidental.meets fun split? _ => ?_
    cases split? with
    | none => trivial
    | some s =>
      refine Action.meets_bind.2 ?_
      exact meets_carryOut h Ledger.liquidate_incidental TroveList.detach_incidental
        Stability.Pool.takeOffset_incidental Escrow.setAside_incidental
        Token.settleLiquidation_incidental Coin.settleLiquidation_incidental
  · trivial

end Protocol

end Troves
