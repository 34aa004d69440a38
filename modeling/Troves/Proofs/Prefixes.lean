/-
# The walk as a list

A request for the riskiest troves follows the links of the list while it takes
troves out of it.  It reads where to go on before it takes a trove out, and the
others keep their order, so it meets the owners as they stood when it began:
what is still ahead of it is always the rest of that sequence.  The request does
therefore what a request for the owners up to where it stopped does.

    passed              b    rest
    taken out or kept   ↑    untouched, in the order of the beginning
-/
import Troves.Proofs.Walks

namespace Troves

open Troves.Action
open Liquidation (Split Totals)

namespace Action

variable {α β : Type} {w : World} {s : Outcome β}

/-! ## Steps that leave the world alone -/

theorem ofChecked_bind_eq_ok {x : Checked α} {f : α → Action β} :
    (ofChecked x >>= f) w = .ok s ↔ ∃ a, x = .ok a ∧ f a w = .ok s := by
  cases x with
  | error e => simp [bind_run]
  | ok a => cases h : f a w <;> simp [bind_run, h, Except.map]

theorem world_bind {f : World → Action β} : (world >>= f) w = f w w := by
  cases h : f w w <;> simp [bind_run, h, Except.map]

end Action

namespace Protocol

variable {w w₁ : World} {price n most : Nat} {liquidator caller b : Address} {t t₁ : Totals}
  {bs passed rest : List Address} {split? : Option Split} {o : Outcome Totals}

/-! ## One trove after another -/

/-- A pass of the walk stops at the threshold; below it, it attempts the trove and
goes on to the one that was behind it. -/
theorem liquidateFrom_pass
    (h : liquidateFrom .usual price liquidator (n + 1) (some b) t w = .ok o) :
    ∃ ratio total, w.ledger.ratio b price = .ok ratio ∧ w.ledger.totalRatio price = .ok total ∧
      (Liquidation.threshold total ≤ ratio ∧ o = ⟨t, w, []⟩ ∨
        ratio < Liquidation.threshold total ∧ ∃ attempt t₁ ahead,
          liquidateIfDue .usual b price liquidator w = .ok attempt ∧
            t.tally attempt.value = .ok t₁ ∧
            liquidateFrom .usual price liquidator n (w.list.next? b) t₁ attempt.world =
              .ok ahead ∧
            o = ⟨ahead.value, ahead.world, attempt.events ++ ahead.events⟩) := by
  simp only [liquidateFrom, via_list, liftM_eq_ofChecked, bind_assoc, pure_bind, world_bind,
    ofChecked_bind_eq_ok] at h
  obtain ⟨ratio, hr, total, ht, h⟩ := h
  refine ⟨ratio, total, hr, ht, ?_⟩
  by_cases stop : Liquidation.threshold total ≤ ratio
  · rw [if_pos stop] at h
    cases h
    exact .inl ⟨stop, rfl⟩
  · rw [if_neg stop, bind_eq_ok] at h
    obtain ⟨attempt, hattempt, ahead, h, rfl⟩ := h
    rw [ofChecked_bind_eq_ok] at h
    obtain ⟨t₁, tally, hahead⟩ := h
    exact .inr ⟨Nat.lt_of_not_le stop, attempt, t₁, ahead, hattempt, tally, hahead, rfl⟩

/-- The first of a list of owners is attempted, and then the others. -/
theorem liquidateEach_cons {attempt : Outcome (Option Split)} {ahead : Outcome Totals}
    (hattempt : liquidateIfDue .usual b price liquidator w = .ok attempt)
    (tally : t.tally attempt.value = .ok t₁)
    (hahead : liquidateEach .usual price liquidator bs t₁ attempt.world = .ok ahead) :
    liquidateEach .usual price liquidator (b :: bs) t w =
      .ok ⟨ahead.value, ahead.world, attempt.events ++ ahead.events⟩ := by
  rw [liquidateEach, bind_eq_ok]
  exact ⟨attempt, hattempt, ahead, ofChecked_bind_eq_ok.2 ⟨t₁, tally, hahead⟩, rfl⟩

/-- An attempt leaves the owners behind in their order. -/
theorem Attempted.threaded (h : Attempted price liquidator w b split? w₁)
    (ht : w.Threaded (passed ++ b :: rest)) : ∃ passed', w₁.Threaded (passed' ++ rest) := by
  cases split? with
  | none =>
    cases h
    exact ⟨passed ++ [b], by simpa using ht⟩
  | some s =>
    obtain ⟨entire, -, out⟩ := h
    exact ⟨passed, out.threaded ht⟩

/-- A walk that goes through does what the first of the owners ahead of it, as
a list, come to. -/
theorem liquidateFrom_prefix (hw : w.Wired) (ht : w.Threaded (passed ++ rest))
    (h : liquidateFrom .usual price liquidator n rest.head? t w = .ok o) :
    ∃ k ≤ n, k ≤ rest.length ∧
      liquidateEach .usual price liquidator (rest.take k) t w = .ok o := by
  -- on how many may still be examined; what was passed goes with the state
  induction n generalizing w passed rest t o with
  | zero => exact ⟨0, le_rfl, Nat.zero_le _, h⟩
  | succ n ih =>
    cases rest with
    | nil => exact ⟨0, Nat.zero_le _, le_rfl, h⟩
    | cons b rest =>
      obtain ⟨_, _, -, -, ⟨-, rfl⟩ | ⟨-, attempt, t₁, ahead, hattempt, tally, hahead, rfl⟩⟩ :=
        liquidateFrom_pass h
      · exact ⟨0, Nat.zero_le _, Nat.zero_le _, rfl⟩
      · have hout := ensures_liquidateIfDue hw attempt hattempt
        obtain ⟨passed', ht'⟩ := hout.threaded ht
        rw [ht.holds.next] at hahead
        obtain ⟨k, hkn, hkr, hk⟩ := ih (hout.wired hw) ht' hahead
        exact ⟨k + 1, Nat.succ_le_succ hkn, Nat.succ_le_succ hkr,
          liquidateEach_cons hattempt tally hk⟩

/-! ## The whole request -/

theorem ledgerLinks_run (hw : w.Wired) : ledgerLinks w = .ok ⟨.usual, w, []⟩ := by
  rw [ledgerLinks, world_bind, hw.ledger]
  rfl

/-- Asking for the price moves the feed as it decides, and nothing else. -/
theorem priceFrom_decision {o : Outcome Nat} (h : priceFrom Ledger.Links.usual.feed w = .ok o) :
    ∃ d, w.feed.decideAt w.round? w.quote? w.time = .ok d ∧
      o.value = (w.feed.follow d).lastGood ∧ o.world = { w with feed := w.feed.follow d } := by
  let Q (price : Nat) (w' : World) : Prop :=
    ∃ d, w.feed.decideAt w.round? w.quote? w.time = .ok d ∧
      price = (w.feed.follow d).lastGood ∧ w' = { w with feed := w.feed.follow d }
  exact (ensures_priceFrom (Q := Q)).2 (fun d hd => ⟨d, hd, rfl, rfl⟩) o h

/-- What a request for the riskiest does after the price is known.  A request for a
list comes to the same where the list does. -/
theorem liquidateRiskiest_walk (hw : w.Wired) (h : liquidateRiskiest caller most w = .ok o) :
    ∃ d walk, w.feed.decideAt w.round? w.quote? w.time = .ok d ∧
      let price := (w.feed.follow d).lastGood
      let w' := { w with feed := w.feed.follow d }
      liquidateFrom .usual price caller most w.list.head? {} w' = .ok walk ∧
        ∀ bs, liquidateEach .usual price caller bs {} w' = .ok walk →
          liquidateAll caller bs w = .ok o := by
  simp only [liquidateRiskiest, liftM_eq_ofChecked, ofChecked_bind_eq_ok] at h
  obtain ⟨-, -, h⟩ := h
  obtain ⟨links, hlinks, _, priced, rfl⟩ := bind_eq_ok.1 h
  cases (ledgerLinks_run hw).symm.trans hlinks
  obtain ⟨price, hprice, _, walked, rfl⟩ := bind_eq_ok.1 priced
  obtain ⟨d, hd, hvalue, hworld⟩ := priceFrom_decision hprice
  simp only [hvalue, hworld, via_list, bind_assoc, pure_bind, world_bind] at walked
  obtain ⟨walk, hwalk, _, hconclude, rfl⟩ := bind_eq_ok.1 walked
  refine ⟨d, walk, hd, hwalk, fun bs heach => ?_⟩
  refine bind_eq_ok.2 ⟨_, hlinks, _, bind_eq_ok.2 ⟨price, hprice, _, ?_, rfl⟩, rfl⟩
  rw [hvalue, hworld]
  exact bind_eq_ok.2 ⟨walk, heach, _, hconclude, rfl⟩

/-- A request for the riskiest that goes through does what a request for the
first owners of the list does. -/
theorem liquidateRiskiest_prefix {xs : List Address} (hw : w.Wired) (ht : w.Threaded xs)
    (h : liquidateRiskiest caller most w = .ok o) :
    ∃ k ≤ most, k ≤ xs.length ∧ liquidateAll caller (xs.take k) w = .ok o := by
  obtain ⟨d, walk, -, hwalk, hlist⟩ := liquidateRiskiest_walk hw h
  rw [ht.holds.head] at hwalk
  have ht' : World.Threaded { w with feed := w.feed.follow d } ([] ++ xs) := ht.withFeed _
  obtain ⟨k, hkm, hkx, heach⟩ := liquidateFrom_prefix (hw.withFeed _) ht' hwalk
  exact ⟨k, hkm, hkx, hlist _ heach⟩

end Protocol

namespace Deployment

/-- A walk and a list come to the same.

In every reachable state, if a request for the riskiest troves goes through,
then so does a request for the first so many members of the list as it stood,
with the same answer, the same reports and the same world left behind. -/
theorem riskiest_as_list {d : Deployment} {incentive? : Option Liquidation.Incentive}
    {o : Outcome Unit} (start : d.start (some { incentive? }) = .ok o) {ts : List Turn}
    (outside : ∀ t ∈ ts, t.outside) {caller : Address} {most : Nat} {out : Outcome Reply}
    (done : (Request.liquidateRiskiest most).perform caller (o.world.after ts) = .ok out) :
    let w := o.world.after ts
    ∃ k ≤ most, k ≤ w.list.size ∧
      (Request.liquidateAll (w.list.forward k)).perform caller w = .ok out := by
  have sound := (start_ready start).sound_after outside
  obtain ⟨xs, ht⟩ := sound.threaded
  obtain ⟨totals, hrun, _, hreply, rfl⟩ := bind_eq_ok.1 done
  obtain ⟨k, hkm, hkx, hlist⟩ := Protocol.liquidateRiskiest_prefix sound.wired ht hrun
  refine ⟨k, hkm, hkx.trans_eq ht.holds.size.symm, ?_⟩
  rw [ht.holds.forward]
  exact bind_eq_ok.2 ⟨totals, hlist, _, hreply, rfl⟩

/-- The walk takes out the first and the third of four troves and keeps the
second. -/
theorem riskiest_as_list_passedOver :
    ∃ o, plain.start (some { incentive? := none }) = .ok o ∧
      (∀ t ∈ passedOver, t.outside) ∧
      let w := o.world.after passedOver
      w.list.forward 4 = [.account 4, .account 2, .account 3, .account 1] ∧
        ∃ out, (Request.liquidateRiskiest 4).perform (.account 5) w = .ok out ∧
          out.world.list.forward 4 = [.account 2, .account 1] ∧
          ∃ k ≤ 4, k ≤ w.list.size ∧
            (Request.liquidateAll (w.list.forward k)).perform (.account 5) w = .ok out := by
  obtain ⟨o, ho, hl, hr⟩ : ∃ o, plain.start (some { incentive? := none }) = .ok o ∧
      let w := o.world.after passedOver
      w.list.forward 4 = [.account 4, .account 2, .account 3, .account 1] ∧
        (do
          let out ← (Request.liquidateRiskiest 4).perform (.account 5) w
          return out.world.list.forward 4) = .ok [.account 2, .account 1] :=
    Checked.exists_ok (by decide +kernel)
  have hout : ∀ t ∈ passedOver, t.outside := by decide +kernel
  obtain ⟨out, hout', hlist⟩ := Checked.bind_eq_ok.1 hr
  exact ⟨o, ho, hout, hl, out, hout', Except.ok.inj hlist, riskiest_as_list ho hout hout'⟩

end Deployment

end Troves
