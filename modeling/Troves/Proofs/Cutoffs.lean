/-
# Where the walk stops

A walk up the list stops at the first ratio that is not below a threshold, and a
liquidation goes by a table of modes and ratios.  The rule is written down twice,
and each time it is reckoned anew from the totals of the moment.

    ratio                     the walk    the table
    from the threshold on     stops       nothing
    below the threshold       goes on     a split, but nothing where the system
                                          recovers, the ratio reaches the minimum
                                          and the deposits do not cover the debt

The two agree.  So a walk could as well attempt the trove at which it stops, and
does what a request for all the troves that it examines does.
-/
import Troves.Proofs.Prefixes

namespace Troves

open Troves.Action
open Liquidation (Split Totals Mode)

/-! ## One trove -/

theorem Liquidation.Mode.ofTotal_eq_recovery {total : Nat} :
    Mode.ofTotal total = .recovery ↔ total < Ratio.critical := by
  rw [ofTotal]
  split
  · next h => exact iff_of_true rfl h
  · next h => exact iff_of_false (fun hm => by cases hm) h

namespace World

variable {w : World} {price ratio total : Nat} {b : Address}

/-- Which troves a liquidation spares, in terms of the walk's threshold. -/
theorem spares_iff (hr : w.ledger.ratio b price = .ok ratio)
    (ht : w.ledger.totalRatio price = .ok total) :
    w.Spares price b ↔ Liquidation.threshold total ≤ ratio ∨
      (Mode.ofTotal total = .recovery ∧ Ratio.minimum ≤ ratio ∧ ratio < total ∧
        ∃ e, w.ledger.entire b = .ok e ∧ w.pool.total < e.debt) := by
  obtain ⟨e, he, hratio⟩ := ratio_ok hr
  have hnone : Liquidation.split? (Mode.ofTotal total) e.debt e.collateral price total
      w.pool.total w.ledger.incentive = .ok none ↔ _ := Liquidation.split?_eq_none_iff hratio
  rw [Mode.ofTotal_eq_recovery]
  constructor
  · rintro ⟨e', total', he', ht', hs⟩
    cases he.symm.trans he'
    cases ht.symm.trans ht'
    rcases hnone.1 hs with hstop | ⟨hc, hm, hlt, hd⟩
    · exact .inl hstop
    · exact .inr ⟨hc, hm, hlt, e, he, hd⟩
  · rintro (hstop | ⟨hc, hm, hlt, e', he', hd⟩)
    · exact ⟨e, total, he, ht, hnone.2 (.inl hstop)⟩
    · cases he.symm.trans he'
      exact ⟨e, total, he, ht, hnone.2 (.inr ⟨hc, hm, hlt, hd⟩)⟩

end World

namespace Protocol

variable {w : World} {price ratio total n : Nat} {liquidator b : Address}
  {t : Totals} {place? : Option Address} {passed rest : List Address} {o : Outcome Totals}

/-- A trove that is spared is left as it is, without a report. -/
theorem liquidateIfDue_spared (h : w.Spares price b) :
    liquidateIfDue .usual b price liquidator w = .ok ⟨none, w, []⟩ := by
  obtain ⟨e, total, he, ht, hs⟩ := h
  simp only [liquidateIfDue, liftM_eq_ofChecked, world_bind]
  split
  · simp only [ofChecked_bind_eq_ok, via_pool, bind_assoc, pure_bind, world_bind]
    exact ⟨e, he, total, ht, none, hs, rfl⟩
  · rfl

/-- An open trove is spared exactly if an attempt on it goes through and closes
nothing. -/
theorem attempt_none_iff (hb : w.ledger.isActive b = true) :
    (∃ attempt, liquidateIfDue .usual b price liquidator w = .ok attempt ∧
      attempt.value = none) ↔ w.Spares price b := by
  constructor
  · rintro ⟨attempt, h, hnone⟩
    exact ensures_spares hb attempt h hnone
  · exact fun hs => ⟨_, liquidateIfDue_spared hs, rfl⟩

/-! ## The walk -/

theorem examined_stop (hr : w.ledger.ratio b price = .ok ratio)
    (ht : w.ledger.totalRatio price = .ok total) (stop : Liquidation.threshold total ≤ ratio) :
    examined price liquidator (n + 1) (some b) w = [(w, b)] := by
  simp [examined, goesOn, hr, ht, Nat.not_lt.2 stop]

/-- Every trove that a walk examines is open when it does. -/
theorem examined_active (hw : w.Wired) (ht : w.Threaded (passed ++ rest)) :
    ∀ m ∈ examined price liquidator n rest.head? w, m.1.ledger.isActive m.2 = true := by
  -- on how many may still be examined; what was passed goes with the state
  induction n generalizing w passed rest with
  | zero => exact fun m hm => absurd hm List.not_mem_nil
  | succ n ih =>
    cases rest with
    | nil => exact fun m hm => absurd hm List.not_mem_nil
    | cons b rest =>
      intro m hm
      rw [List.head?_cons, examined] at hm
      rcases List.mem_cons.1 hm with rfl | hm
      · exact (ht.listed b).1 (by simp)
      · split at hm
        · next attempt _ hattempt =>
          have hout := ensures_liquidateIfDue hw attempt hattempt
          obtain ⟨passed', ht'⟩ := hout.threaded ht
          rw [ht.holds.next] at hm
          exact ih (hout.wired hw) ht' m hm
        · exact absurd hm List.not_mem_nil

/-- A walk that goes through does what the troves it examines, as a list, come to,
the one at which it stops included. -/
theorem liquidateFrom_examined
    (h : liquidateFrom .usual price liquidator n place? t w = .ok o) :
    liquidateEach .usual price liquidator
      ((examined price liquidator n place? w).map Prod.snd) t w = .ok o := by
  induction n generalizing w place? t o with
  | zero => exact h
  | succ n ih =>
    cases place? with
    | none => exact h
    | some b =>
      obtain ⟨ratio, total, hr, ht, ⟨stop, rfl⟩ | ⟨below, attempt, t₁, ahead, hattempt, tally,
        hahead, rfl⟩⟩ := liquidateFrom_pass h
      · -- the trove at the threshold is spared, so attempting it adds nothing
        have hspared := World.spares_of_threshold hr ht stop
        have hnil : liquidateEach .usual price liquidator [] t w = .ok ⟨t, w, []⟩ := rfl
        rw [examined_stop hr ht stop]
        exact liquidateEach_cons (liquidateIfDue_spared hspared) rfl hnil
      · rw [examined_next hr ht below hattempt]
        exact liquidateEach_cons hattempt tally (ih hahead)

end Protocol

namespace Deployment

open Protocol (examined liquidateIfDue)

/-- The cut-off of a walk agrees with the table of liquidations.

In every reachable state, take any trove that a request for the riskiest
examines, in the state in which it does so.  The trove is open.  If the request
stops at it, an attempt on it would close nothing and change nothing.  If the
request goes on, then an attempt on it closes nothing exactly if the system
recovers, the trove's ratio is between the minimum and the total ratio, and its
debt is more than the deposits.  And a request that goes through does what one
for the list of all troves that it examines does. -/
theorem cutoff_agrees {d : Deployment} {incentive? : Option Liquidation.Incentive}
    {o : Outcome Unit} (start : d.start (some { incentive? }) = .ok o) {ts : List Turn}
    (outside : ∀ t ∈ ts, t.outside) (caller : Address) (most : Nat) {decision : Price.Decision}
    (answered : (o.world.after ts).feed.decideAt (o.world.after ts).round?
      (o.world.after ts).quote? (o.world.after ts).time = .ok decision) :
    let w := o.world.after ts
    let price := (w.feed.follow decision).lastGood
    let walk := examined price caller most w.list.head? { w with feed := w.feed.follow decision }
    (∀ m ∈ walk, m.1.ledger.isActive m.2 = true ∧
      ∀ ratio total, m.1.ledger.ratio m.2 price = .ok ratio →
        m.1.ledger.totalRatio price = .ok total →
        (Liquidation.threshold total ≤ ratio →
          liquidateIfDue .usual m.2 price caller m.1 = .ok ⟨none, m.1, []⟩) ∧
        (ratio < Liquidation.threshold total →
          ((∃ attempt, liquidateIfDue .usual m.2 price caller m.1 = .ok attempt ∧
              attempt.value = none) ↔
            Mode.ofTotal total = .recovery ∧ Ratio.minimum ≤ ratio ∧ ratio < total ∧
              ∃ e, m.1.ledger.entire m.2 = .ok e ∧ m.1.pool.total < e.debt))) ∧
    ∀ out, (Request.liquidateRiskiest most).perform caller w = .ok out →
      (Request.liquidateAll (walk.map Prod.snd)).perform caller w = .ok out := by
  have sound := (start_ready start).sound_after outside
  obtain ⟨xs, ht⟩ := sound.threaded
  intro w price walk
  have ht' : World.Threaded { w with feed := w.feed.follow decision } ([] ++ xs) := ht.withFeed _
  constructor
  · intro m hm
    have hwalk : walk = examined price caller most xs.head?
        { w with feed := w.feed.follow decision } := by rw [← ht.holds.head]
    have hopen : m.1.ledger.isActive m.2 = true :=
      Protocol.examined_active (sound.wired.withFeed _) ht' m (hwalk ▸ hm)
    refine ⟨hopen, fun ratio total hr htotal => ⟨fun stop => ?_, fun below => ?_⟩⟩
    · exact Protocol.liquidateIfDue_spared (World.spares_of_threshold hr htotal stop)
    · rw [Protocol.attempt_none_iff hopen, World.spares_iff hr htotal]
      exact or_iff_right (Nat.not_le.2 below)
  · intro out hout
    obtain ⟨totals, hrun, _, hreply, rfl⟩ := bind_eq_ok.1 hout
    obtain ⟨decision', walked, hd, hwalk, hlist⟩ := Protocol.liquidateRiskiest_walk sound.wired hrun
    cases answered.symm.trans hd
    exact bind_eq_ok.2 ⟨totals, hlist _ (Protocol.liquidateFrom_examined hwalk), _, hreply, rfl⟩

/-- The walk examines all four troves.  It goes on past the second, which is spared
because the deposits do not cover it, and stops at the last. -/
theorem cutoff_agrees_passedOver :
    ∃ o, plain.start (some { incentive? := none }) = .ok o ∧
      (∀ t ∈ passedOver, t.outside) ∧
      let w := o.world.after passedOver
      let decision : Price.Decision := ⟨.secondaryUntrusted, .primary (125 * Amount.one)⟩
      let price := (w.feed.follow decision).lastGood
      let walk := examined price (.account 5) 4 w.list.head?
        { w with feed := w.feed.follow decision }
      w.feed.decideAt w.round? w.quote? w.time = .ok decision ∧
        walk.map Prod.snd = [.account 4, .account 2, .account 3, .account 1] ∧
        (∃ m ∈ walk, m.2 = .account 2 ∧
          m.1.ledger.ratio m.2 price = .ok 1136363636363636363 ∧
          m.1.ledger.totalRatio price = .ok 1416666666666666666 ∧
          ∃ e, m.1.ledger.entire m.2 = .ok e ∧ m.1.pool.total < e.debt) ∧
        (∃ m ∈ walk, m.2 = .account 1 ∧
          liquidateIfDue .usual m.2 price (.account 5) m.1 = .ok ⟨none, m.1, []⟩) ∧
        ∃ out, (Request.liquidateRiskiest 4).perform (.account 5) w = .ok out ∧
          (Request.liquidateAll (walk.map Prod.snd)).perform (.account 5) w = .ok out := by
  let decision : Price.Decision := ⟨.secondaryUntrusted, .primary (125 * Amount.one)⟩
  obtain ⟨o, ho, hd, haddr, hskip, hstop, hrun⟩ : ∃ o,
      plain.start (some { incentive? := none }) = .ok o ∧
      let w := o.world.after passedOver
      let price := (w.feed.follow decision).lastGood
      let walk := examined price (.account 5) 4 w.list.head?
        { w with feed := w.feed.follow decision }
      w.feed.decideAt w.round? w.quote? w.time = .ok decision ∧
        walk.map Prod.snd = [.account 4, .account 2, .account 3, .account 1] ∧
        (∃ m ∈ walk, m.2 = .account 2 ∧
          m.1.ledger.ratio m.2 price = .ok 1136363636363636363 ∧
          m.1.ledger.totalRatio price = .ok 1416666666666666666 ∧
          (do
            let attempt ← liquidateIfDue .usual m.2 price (.account 5) m.1
            return attempt.value) = .ok none) ∧
        (∃ m ∈ walk, m.2 = .account 1 ∧
          m.1.ledger.ratio m.2 price = .ok 1666666666666666666 ∧
          m.1.ledger.totalRatio price = .ok 1442307692307692307) ∧
        (do
          let out ← (Request.liquidateRiskiest 4).perform (.account 5) w
          return out.world.list.size) = .ok 2 := Checked.exists_ok (by decide +kernel)
  have hout : ∀ t ∈ passedOver, t.outside := by decide +kernel
  obtain ⟨hexamined, hwhole⟩ := cutoff_agrees ho hout (.account 5) 4 hd
  refine ⟨o, ho, hout, hd, haddr, ?_, ?_, ?_⟩
  · obtain ⟨m, hm, hb, hr, ht, hnone⟩ := hskip
    obtain ⟨attempt, hattempt, hvalue⟩ := Checked.bind_eq_ok.1 hnone
    obtain ⟨-, -, -, hdebt⟩ := (((hexamined m hm).2 _ _ hr ht).2 (by decide)).1
      ⟨attempt, hattempt, Except.ok.inj hvalue⟩
    exact ⟨m, hm, hb, hr, ht, hdebt⟩
  · obtain ⟨m, hm, hb, hr, ht⟩ := hstop
    exact ⟨m, hm, hb, ((hexamined m hm).2 _ _ hr ht).1 (by decide)⟩
  · obtain ⟨out, hout', -⟩ := Checked.bind_eq_ok.1 hrun
    exact ⟨out, hout', hwhole out hout'⟩

end Deployment

end Troves
