/-
# How liquidations raise the total ratio

A liquidation whose debt the deposits cover takes a trove out of the system with
all of its debt and at most all of its collateral.

    what there was     held / owed
    the trove          c / d, which is less
    what is left       at least (held - c) / (owed - d)

A mean does not fall when a part below it is taken away.  Both ratios are known
rounded only; but where the rounded ones differ, the trove's is below the whole
number to which the total was rounded, and no more is claimed of the total.  So in
recovery one liquidation after the other leaves the total ratio where it was or
raises it, and with it the bound below which troves are liquidated at all.
-/
import Troves.Proofs.Bystanders
import Troves.Proofs.Openings

namespace Troves

open Troves.Action
open Protocol (Due Liquidated Sweep liquidateIfDue)
open Liquidation (Split Totals Mode)

/-- Where a part below the ratio of the whole is taken away, the rest reaches
that ratio. -/
theorem Ratio.le_rest {c d held owed price : Nat} (hd : d ≠ 0) (howed : owed ≠ 0)
    (below : c * price / d < (held + c) * price / (owed + d)) :
    (held + c) * price / (owed + d) ≤ held * price / owed := by
  generalize htotal : (held + c) * price / (owed + d) = total at below ⊢
  have hwhole : total * (owed + d) ≤ (held + c) * price := by
    rw [← htotal]
    exact Nat.div_mul_le_self _ _
  have hpart : c * price < total * d := (Nat.div_lt_iff_lt_mul (Nat.pos_of_ne_zero hd)).1 below
  rw [Nat.le_div_iff_mul_le (Nat.pos_of_ne_zero howed)]
  rw [Nat.mul_add, Nat.add_mul] at hwhole
  omega

namespace Ledger

variable {l : Ledger} {price total : Nat}

theorem totalRatio_unbounded (h : l.totalRatio price = .ok total) (howed : l.owed = 0) :
    total = Ratio.unbounded := by
  obtain ⟨-, rfl⟩ | ⟨hne, -⟩ := Ratio.collateral_eq_ok.1 (totalRatio_ok h)
  · rfl
  · exact absurd howed hne

theorem totalRatio_le (h : l.totalRatio price = .ok total) : total ≤ Ratio.unbounded :=
  Nat.le_sub_one_of_lt (Ratio.collateral_lt (totalRatio_ok h))

end Ledger

/-- What a liquidation of a borrower's trove makes of the total ratio at a price,
from one world to another.  The ratios can be reckoned; the total does not fall if
the trove's ratio was below it; and it is unbounded if no debt is left. -/
def World.Relieved (w w' : World) (price : Nat) (b : Address) : Prop :=
  ∃ ratio total total', w.ledger.ratio b price = .ok ratio ∧
    w.ledger.totalRatio price = .ok total ∧ w'.ledger.totalRatio price = .ok total' ∧
    (ratio < total → total ≤ total') ∧ (w'.ledger.owed = 0 → total' = Ratio.unbounded)

namespace Protocol

variable {w w' : World} {price ratio total total' : Nat} {b caller liquidator : Address}
  {e : Entire} {s : Split} {t t' : Totals}

/-! ## One liquidation -/

/-- A trove that is due has a ratio and is in a system that has one. -/
theorem Due.ruled (due : Due w b price e s) :
    ∃ ratio total, w.ledger.ratio b price = .ok ratio ∧ w.ledger.totalRatio price = .ok total ∧
      Liquidation.Ruled (Mode.ofTotal total) e.debt e.collateral price total w.pool.total
        w.ledger.incentive ratio s := by
  obtain ⟨total, ht, hs⟩ := due.split
  obtain ⟨ratio, hr, hruled⟩ := Liquidation.split?_ruled hs
  exact ⟨ratio, total, Checked.bind_eq_ok.2 ⟨e, due.position, hr⟩, ht, hruled⟩

/-- A trove is liquidated below the minimum or below the total ratio. -/
theorem Due.below (due : Due w b price e s) (ht : w.ledger.totalRatio price = .ok total)
    (hm : Ratio.minimum ≤ total) :
    ∃ ratio, w.ledger.ratio b price = .ok ratio ∧ ratio < total := by
  obtain ⟨ratio, _, hr, ht', hruled⟩ := due.ruled
  cases ht.symm.trans ht'
  have hone : Amount.one ≤ Ratio.minimum := by decide
  refine ⟨ratio, hr, ?_⟩
  cases hruled with
  | offset below _ _ => omega
  | spread _ below _ => omega
  | capped _ _ below _ _ => exact below

/-- Where no debt is spread, a trove leaves with all of its debt, and with its
collateral or a part of it. -/
theorem Liquidated.withdraws (out : Liquidated w b liquidator e.pending s w')
    (due : Due w b price e s) (nothing : s.debtToSpread = 0) :
    w.ledger.owed = w'.ledger.owed + e.debt ∧
      w'.ledger.held ≤ w.ledger.held ∧ w.ledger.held ≤ w'.ledger.held + e.collateral := by
  have hx := due.exact
  obtain ⟨hd, hd'⟩ := Ledger.liquidate_pools out.ledger .debt
  obtain ⟨hc, hc'⟩ := Ledger.liquidate_pools out.ledger .collateral
  have hdebt := hx.debt
  have hcoll := hx.shared .collateral
  simp only [Holding.part, Split.outgoing, Split.spread] at hd hd' hc hc' hcoll
  simp only [Ledger.owed, Ledger.held]
  omega

/-- A liquidation below the total ratio that spreads no debt does not lower it. -/
theorem Liquidated.total_le (out : Liquidated w b liquidator e.pending s w')
    (due : Due w b price e s) (nothing : s.debtToSpread = 0)
    (hr : w.ledger.ratio b price = .ok ratio) (ht : w.ledger.totalRatio price = .ok total)
    (below : ratio < total) :
    ∃ total', w'.ledger.totalRatio price = .ok total' ∧ total ≤ total' := by
  obtain ⟨howed, hheld, hcoll⟩ := out.withdraws due nothing
  obtain ⟨total', ht'⟩ := out.totalRatio ht
  refine ⟨total', ht', ?_⟩
  by_cases hz : w'.ledger.owed = 0
  · rw [Ledger.totalRatio_unbounded ht' hz]
    exact Ledger.totalRatio_le ht
  · obtain ⟨e', he, hr⟩ := World.ratio_ok hr
    cases due.position.symm.trans he
    have hd := Ratio.debt_ne hr (below.trans_le (Ledger.totalRatio_le ht))
    have howed' : w.ledger.owed ≠ 0 := by omega
    rw [Ratio.quotient hr hd, Ratio.quotient (Ledger.totalRatio_ok ht) howed', howed] at below
    rw [Ratio.quotient (Ledger.totalRatio_ok ht) howed',
      Ratio.quotient (Ledger.totalRatio_ok ht') hz, howed]
    -- less collateral than the trove had may have left the system
    have hle : w.ledger.held * price / (w'.ledger.owed + e.debt) ≤
        (w'.ledger.held + e.collateral) * price / (w'.ledger.owed + e.debt) :=
      Nat.div_le_div_right (Nat.mul_le_mul_right _ hcoll)
    exact hle.trans (Ratio.le_rest hd hz (below.trans_le hle))

theorem Liquidated.relieved (out : Liquidated w b liquidator e.pending s w')
    (due : Due w b price e s) (nothing : s.debtToSpread = 0) : w.Relieved w' price b := by
  obtain ⟨ratio, total, hr, ht, -⟩ := due.ruled
  obtain ⟨total', ht'⟩ := out.totalRatio ht
  refine ⟨ratio, total, total', hr, ht, ht', fun below => ?_, Ledger.totalRatio_unbounded ht'⟩
  obtain ⟨_, ht'', hle⟩ := out.total_le due nothing hr ht below
  cases ht'.symm.trans ht''
  exact hle

/-! ## Calls -/

/-- A call that goes through has reckoned the total ratio, and it can be reckoned
afterwards. -/
theorem Sweep.totalRatio (h : Sweep price liquidator w t w' t') (some : t'.troves ≠ t.troves) :
    (∃ total, w.ledger.totalRatio price = .ok total) ∧
      ∃ total', w'.ledger.totalRatio price = .ok total' := by
  induction h with
  | done => exact absurd rfl some
  | @next _ _ _ t t₁ t' _ _ s due out tally rest ih =>
    obtain ⟨total, ht, -⟩ := due.split
    refine ⟨⟨total, ht⟩, ?_⟩
    by_cases hlast : t'.troves = t₁.troves
    · rw [rest.eq_of_troves hlast]
      exact out.totalRatio ht
    · exact (ih hlast).2

/-- While no debt is spread and the total ratio is not below the minimum, it does
not fall. -/
theorem Sweep.total_le (h : Sweep price liquidator w t w' t')
    (nothing : t'.debtSpread = t.debtSpread) (ht : w.ledger.totalRatio price = .ok total)
    (ht' : w'.ledger.totalRatio price = .ok total') (hm : Ratio.minimum ≤ total) :
    total ≤ total' := by
  induction h generalizing total with
  | done =>
    cases ht.symm.trans ht'
    exact le_rfl
  | @next _ _ _ t t₁ t' _ _ s due out tally rest ih =>
    have hrest : t₁.debtSpread ≤ t'.debtSpread := rest.spread_le .debt
    have hspread : t₁.debtSpread = t.debtSpread + s.debtToSpread := Totals.spread_add tally .debt
    obtain ⟨ratio, hr, below⟩ := due.below ht hm
    obtain ⟨total₁, ht₁, hle⟩ := out.total_le due (by omega) hr ht below
    exact hle.trans (ih (by omega) ht₁ ht' (hm.trans hle))

/-- A single call liquidates its trove. -/
theorem ensures_single {d : Price.Decision} (hw : w.Wired)
    (hd : w.feed.decideAt w.round? w.quote? w.time = .ok d) :
    (liquidateOne caller b).Ensures w fun t w' =>
      let w₀ := { w with feed := w.feed.follow d }
      ∃ e s, Due w₀ b (w.feed.follow d).lastGood e s ∧
        Liquidated w₀ b caller e.pending s w' ∧ t = Totals.single s := by
  rw [ensures_iff_meets, meets_single hw hd]
  split
  · refine (ensures_iff_meets.1 (ensures_liquidateIfDue (hw.withFeed _))).mono
      (fun split? w' attempt => ?_) fun _ h => h
    refine Checked.meets_any.2 fun t tally => ?_
    split
    · next some =>
      cases split? with
      | none =>
        cases tally
        exact absurd rfl some
      | some s =>
        obtain ⟨e, due, out⟩ := attempt
        exact ⟨e, s, due, out, (Totals.tally_some tally).2.trans (zero_add _)⟩
    · trivial
  · trivial

end Protocol

namespace Deployment

/-- A liquidation that redistributes no debt never worsens the system.

In every reachable state, at the price the feed gives, and between the
liquidations of any call there: if a liquidation closes a trove whose ratio is
below the total ratio, and spreads none of its debt over the others, the total
ratio afterwards is at least what it was, and unbounded if no debt is left.  A
single call does this to the state as a whole.  And any call that spreads no debt
leaves the total ratio where it was or higher, if that was not below the
minimum. -/
theorem total_not_lowered {d : Deployment} {incentive? : Option Liquidation.Incentive}
    {o : Outcome Unit} (start : d.start (some { incentive? }) = .ok o) {ts : List Turn}
    (outside : ∀ t ∈ ts, t.outside) {decision : Price.Decision}
    (answered : (o.world.after ts).feed.decideAt (o.world.after ts).round?
      (o.world.after ts).quote? (o.world.after ts).time = .ok decision) :
    let w := o.world.after ts
    let price := (w.feed.follow decision).lastGood
    (∀ {liquidator w₁ t b out s},
      Sweep price liquidator { w with feed := w.feed.follow decision } {} w₁ t →
      liquidateIfDue .usual b price liquidator w₁ = .ok out → out.value = some s →
      s.debtToSpread = 0 → w₁.Relieved out.world price b) ∧
    (∀ {caller b out t}, (Request.liquidateOne b).perform caller w = .ok out →
      out.value = .totals t → t.debtSpread = 0 → w.Relieved out.world price b) ∧
    ∀ {r : Request} {caller out t}, r.isLiquidation → r.perform caller w = .ok out →
      out.value = .totals t → t.debtSpread = 0 →
      ∃ total total', w.ledger.totalRatio price = .ok total ∧
        out.world.ledger.totalRatio price = .ok total' ∧
        (Ratio.minimum ≤ total → total ≤ total') ∧
        (out.world.ledger.owed = 0 → total' = Ratio.unbounded) := by
  intro w price
  have hw : w.Wired := (start_ready start).wired.after outside
  refine ⟨?_, ?_, ?_⟩
  · intro liquidator w₁ t b out s sweep run closed nothing
    have attempt := Protocol.ensures_liquidateIfDue (sweep.wired (hw.withFeed _)) out run
    rw [closed] at attempt
    obtain ⟨e, due, out⟩ := attempt
    exact out.relieved due nothing
  · intro caller b out t run answer nothing
    obtain ⟨single, hrun, _, hreply, rfl⟩ := bind_eq_ok.1 run
    cases hreply
    cases answer
    obtain ⟨e, s, due, out, ht⟩ := Protocol.ensures_single hw answered single hrun
    rw [ht] at nothing
    exact out.relieved due nothing
  · intro r caller out t liquidation run answer nothing
    obtain ⟨t', answer', cleared⟩ := Request.ensures_cleared hw liquidation caller out run
    cases answer.symm.trans answer'
    obtain ⟨decision', hd, sweep⟩ := cleared.sweep
    cases answered.symm.trans hd
    obtain ⟨⟨total, ht⟩, total', ht'⟩ := sweep.totalRatio cleared.some
    exact ⟨total, total', ht, ht', sweep.total_le nothing ht ht',
      Ledger.totalRatio_unbounded ht'⟩

/-- The trove in the middle is above the minimum and below the total ratio, and
closed at the cap: its owner is left a surplus.  A request for the riskiest closes
the first one before it. -/
theorem total_not_lowered_passedOver :
    ∃ o, plain.start (some { incentive? := none }) = .ok o ∧
      (∀ t ∈ passedOver, t.outside) ∧
      let w := o.world.after passedOver
      let decision : Price.Decision := ⟨.secondaryUntrusted, .primary (125 * Amount.one)⟩
      let price := (w.feed.follow decision).lastGood
      w.feed.decideAt w.round? w.quote? w.time = .ok decision ∧
        w.ledger.ratio (.account 3) price = .ok 1250000000000000000 ∧
        w.ledger.totalRatio price = .ok 1380597014925373134 ∧
        (∃ out s, liquidateIfDue .usual (.account 3) price (.account 5)
            { w with feed := w.feed.follow decision } = .ok out ∧ out.value = some s ∧
          s.debtToSpread = 0 ∧ s.surplus = 480000000000000000 ∧
          World.Relieved { w with feed := w.feed.follow decision } out.world price
            (.account 3)) ∧
        (∃ out t, (Request.liquidateOne (.account 3)).perform (.account 5) w = .ok out ∧
          out.value = .totals t ∧ t.debtSpread = 0 ∧
          w.Relieved out.world price (.account 3)) ∧
        ∃ out t total', (Request.liquidateRiskiest 4).perform (.account 5) w = .ok out ∧
          out.value = .totals t ∧ t.debtSpread = 0 ∧ t.troves = 2 ∧
          out.world.ledger.totalRatio price = .ok total' ∧ 1380597014925373134 ≤ total' := by
  let decision : Price.Decision := ⟨.secondaryUntrusted, .primary (125 * Amount.one)⟩
  obtain ⟨o, ho, hd, hr, ht, hdue, hone, hall⟩ : ∃ o,
      plain.start (some { incentive? := none }) = .ok o ∧
      let w := o.world.after passedOver
      let price := (w.feed.follow decision).lastGood
      w.feed.decideAt w.round? w.quote? w.time = .ok decision ∧
        w.ledger.ratio (.account 3) price = .ok 1250000000000000000 ∧
        w.ledger.totalRatio price = .ok 1380597014925373134 ∧
        (do
          let out ← liquidateIfDue .usual (.account 3) price (.account 5)
            { w with feed := w.feed.follow decision }
          return out.value.map fun s : Split => (s.debtToSpread, s.surplus)) =
            .ok (some (0, 480000000000000000)) ∧
        (do
          let out ← Protocol.liquidateOne (.account 5) (.account 3) w
          return out.value.debtSpread) = .ok 0 ∧
        (do
          let out ← Protocol.liquidateRiskiest (.account 5) 4 w
          return (out.value.debtSpread, out.value.troves)) = .ok (0, 2) :=
    Checked.exists_ok (by decide +kernel)
  have hout : ∀ t ∈ passedOver, t.outside := by decide +kernel
  simp only [Checked.bind_eq_ok, Checked.pure_eq_ok, Option.map_eq_some_iff, Prod.mk.injEq]
    at hdue hone hall
  obtain ⟨out₁, hrun₁, s, hs, hnothing, hsurplus⟩ := hdue
  obtain ⟨out₂, hrun₂, hspread₂⟩ := hone
  obtain ⟨out₃, hrun₃, hspread₃, htroves⟩ := hall
  have hrun₂ : (Request.liquidateOne (.account 3)).perform (.account 5)
      (o.world.after passedOver) = .ok ⟨.totals out₂.value, out₂.world, out₂.events ++ []⟩ :=
    bind_eq_ok.2 ⟨out₂, hrun₂, _, rfl, rfl⟩
  have hrun₃ : (Request.liquidateRiskiest 4).perform (.account 5)
      (o.world.after passedOver) = .ok ⟨.totals out₃.value, out₃.world, out₃.events ++ []⟩ :=
    bind_eq_ok.2 ⟨out₃, hrun₃, _, rfl, rfl⟩
  obtain ⟨hmid, hsingle, hcall⟩ := total_not_lowered ho hout hd
  obtain ⟨total, total', ht₁, ht', hle, -⟩ :=
    hcall (r := .liquidateRiskiest 4) trivial hrun₃ rfl hspread₃
  cases ht.symm.trans ht₁
  exact ⟨o, ho, hout, hd, hr, ht,
    ⟨out₁, s, hrun₁, hs, hnothing, hsurplus, hmid .done hrun₁ hs hnothing⟩,
    ⟨_, _, hrun₂, rfl, hspread₂, hsingle hrun₂ rfl hspread₂⟩,
    ⟨_, _, total', hrun₃, rfl, hspread₃, htroves, ht', hle (by decide)⟩⟩

end Deployment

end Troves
