/-
# What an opening does to the system

A trove is let in by checks on totals that are not there yet.  Whether the
state that comes out of it would pass them is another question, and so is
whether the ratios in it, rounded anew, are still on the right side.

    before       asked for                     afterwards
    normal       the minimum of the trove,     still normal
                 the critical of the total
    recovery     the critical of the trove     the total ratio has not fallen

Either way the new trove cannot be liquidated at the price it was opened at.
In recovery this takes that the new totals can be reckoned with at all, which
nobody checks there: their worth has to fit, and the debt.  The debt always
does while the stablecoin obeys nobody but the ledger and the pool, since there
are as many coins; and whomever it obeys, unless troves were opened more than a
quintillion times.
-/
import Troves.Proofs.Backing
import Troves.Proofs.Movements
import Troves.Proofs.Walks

namespace Troves

open Troves.Action
open Liquidation (Mode)

/-! ## Ratios -/

/-- What two ratios reach they reach together. -/
theorem Ratio.le_mediant {a b c d t : Nat} (hb : b ≠ 0) (hd : d ≠ 0) (h : t ≤ a / b)
    (h' : t ≤ c / d) : t ≤ (a + c) / (b + d) := by
  rw [Nat.le_div_iff_mul_le (by omega)] at h h' ⊢
  rw [Nat.mul_add]
  exact Nat.add_le_add h h'

namespace Liquidation

theorem threshold_le_critical {total : Nat} : threshold total ≤ Ratio.critical := by
  have hle : Ratio.minimum ≤ Ratio.critical := by decide
  rw [threshold]
  split
  · next ht => exact max_le hle ht.le
  · exact hle

theorem threshold_of_critical_le {total : Nat} (h : Ratio.critical ≤ total) :
    threshold total = Ratio.minimum :=
  if_neg (Nat.not_lt.mpr h)

end Liquidation

namespace Ledger

variable {l : Ledger} {holding : Holding} {price total ratio : Nat}

theorem totalRatio_eq (hheld : l.held < Amount.limit) (howed : l.owed < Amount.limit) :
    l.totalRatio price = Ratio.collateral l.held l.owed price := by
  rw [totalRatio, systemCollateral_eq hheld, systemDebt_eq howed]
  rfl

theorem totalRatio_ok (h : l.totalRatio price = .ok total) :
    Ratio.collateral l.held l.owed price = .ok total := by
  rw [← totalRatio_eq (totalRatio_fits h .collateral) (totalRatio_fits h .debt)]
  exact h

theorem recovering_of_critical_le (h : l.totalRatio price = .ok total)
    (healthy : Ratio.critical ≤ total) : l.recovering price = .ok false := by
  rw [Ledger.recovering, h]
  exact congrArg Except.ok (decide_eq_false (Nat.not_lt.mpr healthy))

theorem recovering_ok {recovering : Bool} (h : l.recovering price = .ok recovering) :
    ∃ total, l.totalRatio price = .ok total ∧ recovering = decide (total < Ratio.critical) := by
  simp only [Ledger.recovering, Checked.bind_eq_ok, Checked.pure_eq_ok] at h
  obtain ⟨total, ht, hr⟩ := h
  exact ⟨total, ht, hr.symm⟩

/-! ## What is checked -/

/-- How a position of some ratio is let in. -/
inductive Admits (l : Ledger) (holding : Holding) (price ratio : Nat) : Bool → Prop where
  | normal {total : Nat} (least : Ratio.minimum ≤ ratio)
      (held : l.held + holding.collateral < Amount.limit)
      (owed : l.owed + holding.debt < Amount.limit)
      (rated : Ratio.collateral (l.held + holding.collateral) (l.owed + holding.debt) price =
        .ok total)
      (healthy : Ratio.critical ≤ total) : Admits l holding price ratio false
  | recovery (least : Ratio.critical ≤ ratio) : Admits l holding price ratio true

theorem Admits.minimum_le {recovering : Bool} (h : l.Admits holding price ratio recovering) :
    Ratio.minimum ≤ ratio := by
  have hle : Ratio.minimum ≤ Ratio.critical := by decide
  cases h with
  | normal least => exact least
  | recovery least => exact hle.trans least

end Ledger

namespace Protocol

theorem checkOpening_ok {l : Ledger} {holding : Holding} {price : Nat}
    (h : checkOpening l holding price = .ok ()) :
    ∃ ratio recovering, Ratio.collateral holding.collateral holding.debt price = .ok ratio ∧
      l.recovering price = .ok recovering ∧ l.Admits holding price ratio recovering := by
  simp only [checkOpening, Checked.bind_eq_ok] at h
  obtain ⟨ratio, hr, recovering, hm, h⟩ := h
  refine ⟨ratio, recovering, hr, hm, ?_⟩
  cases recovering with
  | true =>
    simp only [if_true, require_eq_ok, decide_eq_true_eq] at h
    exact .recovery h
  | false =>
    simp only [Bool.false_eq_true, if_false, Checked.bind_eq_ok, require_eq_ok,
      decide_eq_true_eq, Ledger.systemCollateral, Ledger.systemDebt, Amount.add_eq_ok] at h
    obtain ⟨_, hle, _, ⟨-, rfl⟩, _, ⟨hheld, rfl⟩, _, ⟨-, rfl⟩, _, ⟨howed, rfl⟩, total, ht, hc⟩ := h
    exact .normal hle hheld howed ht hc

/-! ## The new trove -/

namespace Opened

variable {w w' : World} {a : Address} {holding : Holding} {hint : TroveList.Slot}
  {price r : Nat}

theorem isActive (h : Opened w a holding hint w') : w'.ledger.isActive a = true := by
  obtain ⟨l, he, pool, -, hl, -⟩ := h.enrolled
  rw [hl]
  show l.isActive a = true
  rw [(Ledger.enroll_ok he).isActive, if_pos rfl]

/-- Nothing is due to a trove that was just opened. -/
theorem entire (h : Opened w a holding hint w') (hc : holding.collateral < Amount.limit) :
    w'.ledger.entire a = .ok { toHolding := holding, pending := {} } := by
  obtain ⟨l, he, pool, -, hl, -⟩ := h.enrolled
  have hk := Ledger.enroll_ok he
  have hactive : l.isActive a = true := by rw [hk.isActive, if_pos rfl]
  have hmark : l.mark a = l.index := by rw [hk.mark, hk.kept]
  have hadd : (l.trove a).toHolding.add {} = .ok holding := by
    rw [hk.opened, Holding.add_eq_ok]
    exact ⟨⟨hc, h.debt_lt⟩, rfl⟩
  rw [hl]
  show l.entire a = _
  simp only [Ledger.entire, Checked.bind_eq_ok, Checked.pure_eq_ok]
  exact ⟨{}, Ledger.pending_of_mark hactive hmark, holding, hadd, rfl⟩

/-- A new trove has debt, so its ratio is a quotient; and where that is not zero
nor is the price. -/
theorem rated (h : Opened w a holding hint w')
    (hr : Ratio.collateral holding.collateral holding.debt price = .ok r) (hpos : r ≠ 0) :
    0 < price ∧ holding.collateral * price < Amount.limit ∧ holding.debt ≠ 0 ∧
      r = holding.collateral * price / holding.debt := by
  have hdebt := h.debt_ne
  obtain ⟨hz, -⟩ | ⟨hd, hfit, rfl⟩ := Ratio.collateral_eq_ok.1 hr
  · omega
  · refine ⟨Nat.pos_of_ne_zero fun hz => ?_, hfit, hd, rfl⟩
    rw [hz, Nat.mul_zero, Nat.zero_div] at hpos
    exact hpos rfl

/-- The ratio that was checked is the one the new trove has. -/
theorem ratio (h : Opened w a holding hint w')
    (hr : Ratio.collateral holding.collateral holding.debt price = .ok r) (hpos : r ≠ 0) :
    w'.ledger.ratio a price = .ok r := by
  obtain ⟨hp, hfit, -⟩ := h.rated hr hpos
  have hc : holding.collateral < Amount.limit := (Nat.le_mul_of_pos_right _ hp).trans_lt hfit
  rw [Ledger.ratio, h.entire hc]
  exact hr

/-- What was checked of the totals holds of them afterwards. -/
theorem stays_normal (h : Opened w a holding hint w')
    (checked : w.ledger.Admits holding price r false) :
    ∃ total, w'.ledger.totalRatio price = .ok total ∧ Ratio.critical ≤ total := by
  cases checked with
  | @normal total _ held owed rated healthy =>
    rw [← h.held] at held rated
    rw [← h.owed] at owed rated
    exact ⟨total, (Ledger.totalRatio_eq held owed).trans rated, healthy⟩

/-- A trove above the critical ratio does not lower a total below it. -/
theorem total_le {total : Nat} (h : Opened w a holding hint w')
    (hr : Ratio.collateral holding.collateral holding.debt price = .ok r)
    (least : Ratio.critical ≤ r) (ht : w.ledger.totalRatio price = .ok total)
    (below : total < Ratio.critical) (worth : w'.ledger.held * price < Amount.limit)
    (howed : w'.ledger.owed < Amount.limit) :
    ∃ total', w'.ledger.totalRatio price = .ok total' ∧ total ≤ total' := by
  have hcritical : Ratio.critical ≠ 0 ∧ Ratio.critical < Ratio.unbounded := by decide
  obtain ⟨hp, -, hdebt, hratio⟩ := h.rated hr (by omega)
  have hheld : w'.ledger.held < Amount.limit := (Nat.le_mul_of_pos_right _ hp).trans_lt worth
  have hne : w'.ledger.owed ≠ 0 := by
    rw [h.owed]
    omega
  -- without debt there is no recovery
  obtain ⟨-, rfl⟩ | ⟨hd, -, htotal⟩ := Ratio.collateral_eq_ok.1 (Ledger.totalRatio_ok ht)
  · omega
  · refine ⟨w'.ledger.held * price / w'.ledger.owed, ?_, ?_⟩
    · rw [Ledger.totalRatio_eq hheld howed]
      exact Ratio.collateral_eq_ok.2 (.inr ⟨hne, worth, rfl⟩)
    · rw [h.held, h.owed, Nat.add_mul]
      exact Ratio.le_mediant hd hdebt htotal.le (by omega)

/-- Whoever asks next cannot have a trove liquidated that is at the threshold. -/
theorem refused {d : Price.Decision} {total : Nat} (h : Opened w a holding hint w')
    (hw : w.Wired) (hd : w.feed.decideAt w.round? w.quote? w.time = .ok d)
    (hfeed : w'.feed = w.feed.follow d)
    (hr : w'.ledger.ratio a (w.feed.follow d).lastGood = .ok r)
    (ht : w'.ledger.totalRatio (w.feed.follow d).lastGood = .ok total)
    (hle : Liquidation.threshold total ≤ r) (liquidator : Address) :
    (Request.liquidateOne a).perform liquidator w' = .error (.refused .nothingToLiquidate) := by
  obtain ⟨_, -, -, hrest⟩ := h.rest
  have hd' : w'.feed.decideAt w'.round? w'.quote? w'.time = .ok d := by
    have haround : w'.round? = w.round? ∧ w'.quote? = w.quote? ∧ w'.time = w.time := by
      rw [hrest]
      exact ⟨rfl, rfl, rfl⟩
    rw [hfeed, haround.1, haround.2.1, haround.2.2]
    exact Price.Feed.decideAt_again hd
  refine World.Spares.refused (h.wired hw) hd' h.isActive ?_ liquidator
  rw [hfeed, Price.Feed.follow_again]
  exact World.spares_of_threshold hr ht hle

/-- A new trove that meets the minimum has only so much debt. -/
theorem debt_le (h : Opened w a holding hint w')
    (hr : Ratio.collateral holding.collateral holding.debt price = .ok r)
    (least : Ratio.minimum ≤ r) : holding.debt ≤ Amount.limit / Ratio.minimum := by
  have hmin : 0 < Ratio.minimum := by decide
  obtain ⟨-, hfit, -, rfl⟩ := h.rated hr (by omega)
  rw [Nat.le_div_iff_mul_le hmin, Nat.mul_comm]
  exact (Nat.mul_le_of_le_div _ _ _ least).trans hfit.le

end Opened

end Protocol

/-! ## How much debt there can be -/

/-- A turn adds no more debt than one trove may have. -/
theorem Step.owed_le {w w' : World} {t : Turn} {k : Nat} (outside : t.outside)
    (h : Step w t k w') : w'.ledger.owed ≤ w.ledger.owed + Amount.limit / Ratio.minimum := by
  cases h.onLedger with
  | kept hk =>
    rw [hk]
    exact Nat.le_add_right _ _
  | opened ho =>
    obtain ⟨d, -, hc, -⟩ := ho.rest
    obtain ⟨ratio, recovering, hr, -, admits⟩ := Protocol.checkOpening_ok hc
    rw [ho.owed]
    exact Nat.add_le_add_left (ho.debt_le hr admits.minimum_le) _
  | settled hd =>
    rw [hd.booked.owed]
    exact Nat.le_add_right _ _
  | cleared hc =>
    obtain ⟨d, -, hs⟩ := hc.sweep
    obtain ⟨u, -, hm⟩ := hs.moves outside
    have howed : w.ledger.owed = w'.ledger.owed + u.debtOffset := hm.owed
    rw [howed, Nat.add_assoc]
    exact Nat.le_add_right _ _

theorem World.owed_after_le {w : World} (hw : w.Wired) {ts : List Turn}
    (outside : ∀ t ∈ ts, t.outside) :
    (w.after ts).ledger.owed ≤ w.ledger.owed + ts.length * (Amount.limit / Ratio.minimum) := by
  induction ts generalizing w with
  | nil => simp
  | cons t ts ih =>
    have hstep := Turn.step hw (outside t List.mem_cons_self)
    have hrest := ih (hstep.wired hw) fun u hu => outside u (List.mem_cons_of_mem t hu)
    have hle := hstep.owed_le (outside t List.mem_cons_self)
    rw [World.after_cons, List.length_cons, Nat.succ_mul]
    omega

theorem Deployment.Ready.owed_le {d : Deployment} {w : World} (h : d.Ready w) {ts : List Turn}
    (outside : ∀ t ∈ ts, t.outside) :
    (w.after ts).ledger.owed ≤ ts.length * (Amount.limit / Ratio.minimum) := by
  have hle := World.owed_after_le h.wired outside
  have hzero : w.ledger.owed = 0 := by
    obtain ⟨i, hi⟩ := h.ledger
    rw [hi]
    rfl
  rwa [hzero, Nat.zero_add] at hle

/-- A quintillion troves do not owe more than fits. -/
theorem Ratio.quintillion_owed {n : Nat} (h : n < Amount.one) :
    n * (Amount.limit / minimum) + Amount.limit / minimum < Amount.limit := by
  have hbound : Amount.one * (Amount.limit / minimum) < Amount.limit := by decide
  rw [← Nat.succ_mul]
  exact (Nat.mul_le_mul_right _ h).trans_lt hbound

/-- What is opened from a state with as many coins as debt leaves debt that
fits, since the coins do. -/
theorem Protocol.Opened.owed_lt {w w' : World} {a : Address} {holding : Holding}
    {hint : TroveList.Slot} (h : Opened w a holding hint w') (hb : w.Backed) :
    w'.ledger.owed < Amount.limit := by
  have hb' := hb.opened h
  have hlt := hb'.token.supply_lt
  rwa [hb'.supply] at hlt

theorem Deployment.Ready.backed_after {d : Deployment} {w : World} (h : d.Ready w)
    {ts : List Turn} (outside : ∀ t ∈ ts, t.outside)
    (confined : ∀ us, us <+: ts → (w.after us).coin.Confined) : (w.after ts).Backed :=
  (World.after_induction_within (S := fun w => w.coin.Confined) h.wired outside confined
    (fun t ht _ _ _ _ hc hs hb => hb.step hc (outside t ht) hs) h.backed).2

/-! ## The opening -/

/-- An opening is safe, in every state of every run and at the price it finds.

The new trove is at the minimum or above.  Where the system was not in recovery
it is not afterwards; where it was, the trove is at the critical ratio or above
and the total ratio does not fall.  In both cases whoever asks next cannot have
the trove liquidated.  In recovery this takes that the new totals fit; their
debt does in every run in which the stablecoin never obeys anybody but the ledger
and the pool, and in every other of fewer than a quintillion turns. -/
theorem Deployment.opening_safe {d : Deployment} {incentive? : Option Liquidation.Incentive}
    {o : Outcome Unit} (start : d.start (some { incentive? }) = .ok o) {ts : List Turn}
    (outside : ∀ t ∈ ts, t.outside) {owner : Address} {collateral debt : Nat}
    {hint : TroveList.Slot} {out : Outcome Reply}
    (opened : (Request.borrow collateral debt hint).perform owner (o.world.after ts) = .ok out) :
    let w := o.world.after ts
    let w' := out.world
    let refused := ∀ liquidator, (Request.liquidateOne owner).perform liquidator w' =
      .error (.refused .nothingToLiquidate)
    ∃ decision, w.feed.decideAt w.round? w.quote? w.time = .ok decision ∧
      let price := (w.feed.follow decision).lastGood
      ∃ recovering ratio, w.ledger.recovering price = .ok recovering ∧
        w'.ledger.ratio owner price = .ok ratio ∧ Ratio.minimum ≤ ratio ∧
        (recovering = false → w'.ledger.recovering price = .ok false ∧ refused) ∧
        (recovering = true → Ratio.critical ≤ ratio ∧
          (w'.ledger.held * price < Amount.limit → w'.ledger.owed < Amount.limit →
            ∃ total total', w.ledger.totalRatio price = .ok total ∧
              w'.ledger.totalRatio price = .ok total' ∧ total ≤ total' ∧ refused)) ∧
        ((∀ us, us <+: ts → (o.world.after us).coin.Confined) ∨ ts.length < Amount.one →
          w'.ledger.owed < Amount.limit) := by
  intro w w' refused
  have hr := start_ready start
  have hw : w.Wired := hr.wired.after outside
  have h : Protocol.Opened w owner _ hint w' := Request.borrow_opened hw opened
  obtain ⟨decision, hd, hcheck, hrest⟩ := h.rest
  have hfeed : w'.feed = w.feed.follow decision := congrArg World.feed hrest
  obtain ⟨ratio, recovering, hratio, hmode, admits⟩ := Protocol.checkOpening_ok hcheck
  have hmin := admits.minimum_le
  have hpos : 0 < Ratio.minimum := by decide
  have hratio' := h.ratio hratio (by omega)
  refine ⟨decision, hd, recovering, ratio, hmode, hratio', hmin, ?_, ?_, ?_⟩
  · rintro rfl
    obtain ⟨total, ht, healthy⟩ := h.stays_normal admits
    have hle : Liquidation.threshold total ≤ ratio :=
      (Liquidation.threshold_of_critical_le healthy).trans_le hmin
    exact ⟨Ledger.recovering_of_critical_le ht healthy, h.refused hw hd hfeed hratio' ht hle⟩
  · rintro rfl
    cases admits with
    | recovery least =>
      refine ⟨least, fun worth howed => ?_⟩
      obtain ⟨total, ht, hbelow⟩ := Ledger.recovering_ok hmode
      obtain ⟨total', ht', hle⟩ := h.total_le hratio least ht (by simpa using hbelow) worth howed
      exact ⟨total, total', ht, ht', hle, h.refused hw hd hfeed hratio' ht'
        (Liquidation.threshold_le_critical.trans least)⟩
  · rintro (confined | short)
    · exact h.owed_lt (hr.backed_after outside confined)
    · have hdebts := Nat.add_le_add (hr.owed_le outside) (h.debt_le hratio hmin)
      rw [h.owed]
      exact hdebts.trans_lt (Ratio.quintillion_owed short)

/-- A trove is opened, the price falls until the system is in recovery, and
somebody comes by the collateral for another one. -/
def Deployment.inRecovery : List Turn :=
  Turn.opening (.account 1) (10 * Amount.one) (600 * Amount.one) ++ [.pricing 11000000000] ++
  (Turn.opening (.account 2) (10 * Amount.one) (300 * Amount.one)).dropLast

theorem Deployment.opening_safe_inRecovery :
    ∃ o, plain.start (some { incentive? := none }) = .ok o ∧ (∀ t ∈ inRecovery, t.outside) ∧
      let w := o.world.after inRecovery
      ∃ out, (Request.borrow (10 * Amount.one) (300 * Amount.one) {}).perform (.account 2) w =
          .ok out ∧
        ∃ ratio total total', out.world.ledger.ratio (.account 2) (110 * Amount.one) = .ok ratio ∧
          Ratio.critical ≤ ratio ∧ w.ledger.totalRatio (110 * Amount.one) = .ok total ∧
          out.world.ledger.totalRatio (110 * Amount.one) = .ok total' ∧
          total < Ratio.critical ∧ total ≤ total' ∧
          (Request.liquidateOne (.account 2)).perform (.account 3) out.world =
            .error (.refused .nothingToLiquidate) := by
  let decision : Price.Decision := ⟨.secondaryUntrusted, .primary (110 * Amount.one)⟩
  have hout : ∀ t ∈ inRecovery, t.outside := by decide +kernel
  obtain ⟨o, ho, hd, hmode, htotal, hrun⟩ :
      ∃ o, plain.start (some { incentive? := none }) = .ok o ∧
        let w := o.world.after inRecovery
        w.feed.decideAt w.round? w.quote? w.time = .ok decision ∧
        w.ledger.recovering (110 * Amount.one) = .ok true ∧
        w.ledger.totalRatio (110 * Amount.one) = .ok 1375000000000000000 ∧
        (do
          let out ← (Request.borrow (10 * Amount.one) (300 * Amount.one) {}).perform (.account 2) w
          return out.world.ledger.held) = .ok (20 * Amount.one) :=
    Checked.exists_ok (by decide +kernel)
  obtain ⟨out, hperform, hheld⟩ := Checked.bind_eq_ok.1 hrun
  have hheld : out.world.ledger.held = 20 * Amount.one := Except.ok.inj hheld
  have hshort : inRecovery.length < Amount.one := by
    rw [show inRecovery.length = 6 from rfl]
    decide
  obtain ⟨d, hd', recovering, ratio, hr, hratio, -, -, hrec, hfits⟩ :=
    opening_safe ho hout hperform
  cases hd.symm.trans hd'
  have hprice (f : Price.Feed) (p : Nat) :
      (f.follow ⟨.secondaryUntrusted, .primary p⟩).lastGood = p := rfl
  simp only [decision, hprice] at hr hratio hrec
  cases hmode.symm.trans hr
  obtain ⟨hcritical, hrest⟩ := hrec rfl
  have hworth : out.world.ledger.held * (110 * Amount.one) < Amount.limit := by
    rw [hheld]
    decide
  obtain ⟨total, total', ht, ht', hle, hrefused⟩ := hrest hworth (hfits (.inr hshort))
  have htotal := Except.ok.inj (ht.symm.trans htotal)
  have hbelow : total < Ratio.critical := by
    rw [htotal]
    decide
  exact ⟨o, ho, hout, out, hperform, ratio, total, total', hratio, hcritical, ht, ht', hbelow,
    hle, hrefused _⟩

end Troves
