/-
# Batches and single calls

A batch asks for the price once and goes through its borrowers at that price;
single calls ask for it every time, and a call that finds nothing to
liquidate takes back even the step the feed took to answer.  The batch still
comes to what the single calls come to, one after the other: asked again, the
feed decides the same and stays where it is, so each single call sees the
world the batch sees at this place, up to a step of the feed that the next
call takes again.

`Protocol.oneByOne` makes the single calls and passes over those that find
nothing to liquidate.  The induction is over the borrowers still ahead, with
two worlds side by side: the batch's own, and the one the single calls have
reached.
-/
import Troves.Proofs.Incidents
import Troves.Proofs.Repricing

namespace Troves

open Troves.Action
open Liquidation (Split Totals)

/-! ## Totals as sums -/

namespace Liquidation.Totals

/-- Totals are added field by field. -/
instance : Add Totals where
  add t u := {
    troves := t.troves + u.troves
    debt := t.debt + u.debt
    collateral := t.collateral + u.collateral
    collateralCompensation := t.collateralCompensation + u.collateralCompensation
    debtCompensation := t.debtCompensation + u.debtCompensation
    debtOffset := t.debtOffset + u.debtOffset
    collateralToPool := t.collateralToPool + u.collateralToPool
    debtSpread := t.debtSpread + u.debtSpread
    collateralSpread := t.collateralSpread + u.collateralSpread
    surplus := t.surplus + u.surplus }

instance : Zero Totals := ⟨{}⟩

theorem add_def (t u : Totals) : t + u = {
    troves := t.troves + u.troves
    debt := t.debt + u.debt
    collateral := t.collateral + u.collateral
    collateralCompensation := t.collateralCompensation + u.collateralCompensation
    debtCompensation := t.debtCompensation + u.debtCompensation
    debtOffset := t.debtOffset + u.debtOffset
    collateralToPool := t.collateralToPool + u.collateralToPool
    debtSpread := t.debtSpread + u.debtSpread
    collateralSpread := t.collateralSpread + u.collateralSpread
    surplus := t.surplus + u.surplus } := rfl

theorem zero_def : (0 : Totals) = {} := rfl

instance : AddMonoid Totals where
  add_assoc t u v := by simp only [add_def, Nat.add_assoc]
  zero_add t := by simp only [add_def, zero_def, Nat.zero_add]
  add_zero t := by simp only [add_def, zero_def, Nat.add_zero]
  nsmul := nsmulRec

/-- The totals of a single trove. -/
def single (s : Split) : Totals where
  troves := 1
  debt := s.debt
  collateral := s.collateral
  collateralCompensation := s.collateralCompensation
  debtCompensation := s.debtCompensation
  debtOffset := s.debtToOffset
  collateralToPool := s.collateralToPool
  debtSpread := s.debtToSpread
  collateralSpread := s.collateralToSpread
  surplus := s.surplus

/-- A trove that fits into some totals fits into none, and adds its own. -/
theorem tally_some {t t' : Totals} {s : Split} (h : t.tally (some s) = .ok t') :
    tally {} (some s) = .ok (single s) ∧ t' = t + single s := by
  simp only [tally, add, Checked.bind_eq_ok, Checked.pure_eq_ok, Amount.add_eq_ok] at h ⊢
  obtain ⟨_, ⟨h₁, rfl⟩, _, ⟨h₂, rfl⟩, _, ⟨h₃, rfl⟩, _, ⟨h₄, rfl⟩, _, ⟨h₅, rfl⟩, _, ⟨h₆, rfl⟩,
    _, ⟨h₇, rfl⟩, _, ⟨h₈, rfl⟩, _, ⟨h₉, rfl⟩, rfl⟩ := h
  refine ⟨⟨_, ⟨?_, rfl⟩, _, ⟨?_, rfl⟩, _, ⟨?_, rfl⟩, _, ⟨?_, rfl⟩, _, ⟨?_, rfl⟩, _, ⟨?_, rfl⟩,
    _, ⟨?_, rfl⟩, _, ⟨?_, rfl⟩, _, ⟨?_, rfl⟩, ?_⟩, rfl⟩
  all_goals first | omega | simp [single]

end Liquidation.Totals

/-! ## Single calls -/

/-- Whether a single liquidation finds nothing to liquidate. -/
def Fault.isPassedOver : Fault → Bool
  | .refused .troveNotActive | .refused .nothingToLiquidate => true
  | _ => false

theorem Fault.isPassedOver_iff {f : Fault} :
    f.isPassedOver = true ↔
      f = .refused .troveNotActive ∨ f = .refused .nothingToLiquidate := by
  constructor
  · intro h
    unfold isPassedOver at h
    split at h <;> simp_all
  · rintro (rfl | rfl) <;> rfl

namespace Protocol

/-- Liquidates some borrowers by one call for each, with what the calls came
to; a call that finds nothing to liquidate is passed over. -/
def oneByOne (caller : Address) : List Address → World → Checked (World × List Totals)
  | [], w => return (w, [])
  | b :: bs, w =>
    match liquidateOne caller b w with
    | .ok o => do
      let (w', parts) ← oneByOne caller bs o.world
      return (w', o.value :: parts)
    | .error f => if f.isPassedOver then oneByOne caller bs w else .error f

variable {w w' W W' : World} {caller b : Address} {bs : List Address} {d : Price.Decision}

theorem oneByOne_passed {f : Fault} (h : liquidateOne caller b w = .error f)
    (hf : f.isPassedOver = true) : oneByOne caller (b :: bs) w = oneByOne caller bs w := by
  rw [oneByOne, h]
  exact if_pos hf

theorem oneByOne_done {o : Outcome Totals} {parts : List Totals}
    (h : liquidateOne caller b w = .ok o) (hrest : oneByOne caller bs o.world = .ok (w', parts)) :
    oneByOne caller (b :: bs) w = .ok (w', o.value :: parts) := by
  rw [oneByOne, h]
  simp [hrest]

/-- If no call did anything, every one of them, made now, is passed over. -/
theorem oneByOne_none (h : oneByOne caller bs w = .ok (w', [])) :
    ∀ b ∈ bs, ∃ f, liquidateOne caller b w = .error f ∧ f.isPassedOver = true := by
  induction bs with
  | nil => simp
  | cons b bs ih =>
    rw [oneByOne] at h
    cases hb : liquidateOne caller b w with
    | ok o => simp [hb] at h
    | error f =>
      simp only [hb] at h
      split at h
      · next hf => exact List.forall_mem_cons.2 ⟨⟨f, hb, hf⟩, ih h⟩
      · cases h

theorem meets_conclude {t : Totals} {Q : Totals → World → Prop} {E : Fault → Prop} :
    (conclude caller t).Meets w Q E ↔
      if t.troves ≠ 0 then Q t w else E (.refused .nothingToLiquidate) := by
  simp [conclude]

/-- A batch goes through its borrowers at the price of the moment. -/
theorem meets_liquidateAll (hw : w.Wired) {Q : Totals → World → Prop} {E : Fault → Prop} :
    (liquidateAll caller bs).Meets w Q E ↔
      (w.feed.decideAt w.round? w.quote? w.time).Meets
        (fun d => (liquidateEach .usual (w.feed.follow d).lastGood caller bs {}).Meets
          { w with feed := w.feed.follow d }
          (fun t w' => if t.troves ≠ 0 then Q t w' else E (.refused .nothingToLiquidate)) E) E := by
  simp only [liquidateAll, meets_bind, meets_ledgerLinks hw.ledger, meets_conclude]
  exact meets_priceFrom

/-- A single call is an attempt at its trove at the price of the moment. -/
theorem meets_single (hw : w.Wired) (hd : w.feed.decideAt w.round? w.quote? w.time = .ok d)
    {Q : Totals → World → Prop} {E : Fault → Prop} :
    (liquidateOne caller b).Meets w Q E ↔
      if w.ledger.isActive b = true then
        (liquidateIfDue .usual b (w.feed.follow d).lastGood caller).Meets
          { w with feed := w.feed.follow d }
          (fun split? w' => (Totals.tally {} split?).Meets
            (fun t => if t.troves ≠ 0 then Q t w' else E (.refused .nothingToLiquidate)) E) E
      else E (.refused .troveNotActive) := by
  simp only [liquidateOne, liquidateEach, liftM_eq_ofChecked, meets_bind, meets_world,
    meets_ofChecked, meets_require, meets_liquidateAll hw, meets_pure, hd, Checked.meets_ok]

/-! ## The batch beside the single calls -/

/-- A world whose feed has been asked for the price, and the world as it was
before. -/
structure Asked (d : Price.Decision) (w W : World) : Prop where
  decided : w.feed.decideAt w.round? w.quote? w.time = .ok d
  world : W = { w with feed := w.feed.follow d }

namespace Asked

/-- Asked again, the feed stays where it is. -/
theorem again (h : Asked d w W) : Asked d W W := by
  obtain ⟨hd, rfl⟩ := h
  refine ⟨Price.Feed.decideAt_again hd, ?_⟩
  simp only [Price.Feed.follow_again]

/-- A liquidation leaves the feed alone and what it reads. -/
theorem liquidated {pending : Holding} {s : Split} (h : Asked d W W)
    (out : Liquidated W b caller pending s W') : Asked d W' W' := by
  have hf : W.feed.follow d = W.feed := by
    conv => rhs; rw [h.world]
  rw [out.rest]
  exact ⟨h.decided, by simp only [hf]⟩

theorem wired (h : Asked d w W) (hw : w.Wired) : W.Wired := by
  rw [h.world]
  exact hw.withFeed _

theorem price (h : Asked d w W) : (w.feed.follow d).lastGood = W.feed.lastGood := by
  rw [h.world]

variable {W₁ : World} {events : List Event}

/-- Where the batch passes a trove over, the single call is passed over. -/
theorem one_passed (h : Asked d w W) (hw : w.Wired)
    (hrun : liquidateIfDue .usual b W.feed.lastGood caller W = .ok ⟨none, W₁, events⟩) :
    ∃ f, liquidateOne caller b w = .error f ∧ f.isPassedOver = true := by
  refine Action.Meets.fails ?_
  rw [meets_single hw h.decided, h.price, ← h.world]
  split
  · exact Checked.meets_of_ok hrun (Checked.meets_of_ok rfl rfl)
  · rfl

/-- Where the batch liquidates a trove, the single call does the same. -/
theorem one_done {s : Split} (h : Asked d w W) (hw : w.Wired) (ha : w.ledger.isActive b = true)
    (hrun : liquidateIfDue .usual b W.feed.lastGood caller W = .ok ⟨some s, W₁, events⟩)
    (ht : Totals.tally {} (some s) = .ok (.single s)) :
    ∃ o, liquidateOne caller b w = .ok o ∧ o.value = .single s ∧ o.world = W₁ := by
  refine Action.Meets.goes_through (Q := fun t w' => t = Totals.single s ∧ w' = W₁) ?_
  rw [meets_single hw h.decided, h.price, ← h.world, if_pos ha]
  exact Checked.meets_of_ok hrun (Checked.meets_of_ok ht ⟨rfl, rfl⟩)

end Asked

/-- What a batch has come to, with its totals from `t` to `t'` and its world
from `W` to `W'`, while the single calls started from `w`: they add the same to
the totals, and if they did anything they reached the same world. -/
def Matched (caller : Address) (bs : List Address) (w W : World) (t t' : Totals) (W' : World) :
    Prop :=
  ∃ parts w', oneByOne caller bs w = .ok (w', parts) ∧ t' = t + parts.sum ∧
    t'.troves = t.troves + parts.length ∧
    (parts = [] ∧ w' = w ∧ W' = W ∨ parts ≠ [] ∧ w' = W')

namespace Matched

variable {t t' : Totals}

theorem nil : Matched caller [] w W t t W :=
  ⟨[], w, rfl, (add_zero t).symm, rfl, .inl ⟨rfl, rfl, rfl⟩⟩

theorem passed {f : Fault} (h : Matched caller bs w W t t' W')
    (hf : liquidateOne caller b w = .error f) (hpassed : f.isPassedOver = true) :
    Matched caller (b :: bs) w W t t' W' := by
  unfold Matched
  rw [oneByOne_passed hf hpassed]
  exact h

theorem done {o : Outcome Totals} {s : Split} (ho : liquidateOne caller b w = .ok o)
    (hs : o.value = .single s) (h : Matched caller bs o.world o.world (t + .single s) t' W') :
    Matched caller (b :: bs) w W t t' W' := by
  obtain ⟨parts, w', hrest, hsum, htroves, hsame⟩ := h
  refine ⟨o.value :: parts, w', oneByOne_done ho hrest, ?_, ?_, .inr ⟨List.cons_ne_nil _ _, ?_⟩⟩
  · rw [hsum, List.sum_cons, hs, add_assoc]
  · have hone : (t + .single s).troves = t.troves + 1 := rfl
    rw [htroves, hone, List.length_cons]
    omega
  · rcases hsame with ⟨-, rfl, rfl⟩ | ⟨-, hsame⟩
    · rfl
    · exact hsame

end Matched

/-- The rest of a batch, from the world it has reached, against the single
calls for the rest. -/
theorem Asked.meets_liquidateEach (h : Asked d w W) (hw : w.Wired) {t : Totals} :
    (liquidateEach .usual W.feed.lastGood caller bs t).Meets W (Matched caller bs w W t)
      Fault.isIncidental := by
  induction bs generalizing w W t with
  | nil => exact .nil
  | cons b bs ih =>
    have hW := h.wired hw
    simp only [liquidateEach, meets_bind, liftM_eq_ofChecked, meets_ofChecked]
    have hdue : (liquidateIfDue .usual b W.feed.lastGood caller).Meets W
        (Attempted W.feed.lastGood caller W b) Fault.isIncidental := meets_liquidateIfDue hW
    rw [Action.Meets] at hdue ⊢
    cases hrun : liquidateIfDue .usual b W.feed.lastGood caller W with
    | error e => simpa [hrun] using hdue
    | ok r =>
      obtain ⟨split?, W₁, events⟩ := r
      rw [hrun] at hdue
      cases split? with
      | none =>
        obtain rfl : W₁ = W := hdue
        obtain ⟨f, hf, hpassed⟩ := h.one_passed hw hrun
        exact (ih h hw).mono (fun _ _ hrest => hrest.passed hf hpassed) fun _ he => he
      | some s =>
        obtain ⟨e, due, out⟩ : ∃ e, Due W b W.feed.lastGood e s ∧
          Liquidated W b caller e.pending s W₁ := hdue
        have ha : w.ledger.isActive b = true := by
          have ha := due.active
          rwa [h.world] at ha
        refine Totals.tally_incidental.meets ?_
        intro t₁ ht
        obtain ⟨hsingle, rfl⟩ := Totals.tally_some ht
        obtain ⟨o, ho, hs, rfl⟩ := h.one_done hw ha hrun hsingle
        -- from here on both go on from the same world
        have hfeed : o.world.feed = W.feed := by rw [out.rest]
        rw [← hfeed]
        exact (ih (h.again.liquidated out) (out.wired hW)).mono
          (fun _ _ hrest => .done ho hs hrest) fun _ he => he

/-- A batch that goes through leaves behind what the single calls leave
behind, and if there is nothing in it to liquidate, none of them goes through. -/
theorem batch_singles (hw : w.Wired) :
    (liquidateAll caller bs).Meets w
      (fun t w' => ∃ parts, oneByOne caller bs w = .ok (w', parts) ∧ t = parts.sum)
      fun f => f = .refused .nothingToLiquidate → oneByOne caller bs w = .ok (w, []) := by
  have fault {f : Fault} (hf : f.isIncidental) (he : f = .refused .nothingToLiquidate) :
      oneByOne caller bs w = .ok (w, []) := absurd he hf.ne
  rw [meets_liquidateAll hw]
  refine Price.Feed.decideAt_meets.mono (fun d hd _ => ?_) fun _ => False.elim
  have h : Asked d w { w with feed := w.feed.follow d } := ⟨hd, rfl⟩
  refine (h.meets_liquidateEach hw).mono ?_ fun _ he => fault he
  rintro _ W' ⟨parts, w', hone, rfl, htroves, hsame⟩
  have htroves : Totals.troves ({} + parts.sum) = parts.length := htroves.trans (Nat.zero_add _)
  rw [htroves]
  rcases hsame with ⟨rfl, rfl, -⟩ | ⟨hsome, rfl⟩
  · exact fun _ => hone
  · rw [if_pos fun hz => hsome (List.length_eq_zero_iff.1 hz)]
    exact ⟨parts, hone, zero_add _⟩

end Protocol

open Protocol (liquidateAll liquidateOne oneByOne)

/-- A batch and its single calls, in every state of every run, whoever calls
and whichever borrowers are named.  A batch that goes through leaves the world
as the single calls leave it, made in the same order and passed over where
they find nothing to liquidate, and its totals are the sums of theirs.  If
there is nothing to liquidate in the batch, every single call is refused, for
that reason or because its trove is not open. -/
theorem Deployment.batch_one_by_one {d : Deployment} {incentive? : Option Liquidation.Incentive}
    {o : Outcome Unit} (start : d.start (some { incentive? }) = .ok o) {ts : List Turn}
    (outside : ∀ t ∈ ts, t.outside) (caller : Address) (borrowers : List Address) :
    let w := o.world.after ts
    (∀ out, liquidateAll caller borrowers w = .ok out →
      ∃ parts, oneByOne caller borrowers w = .ok (out.world, parts) ∧ out.value = parts.sum) ∧
    (liquidateAll caller borrowers w = .error (.refused .nothingToLiquidate) →
      ∀ b ∈ borrowers, liquidateOne caller b w = .error (.refused .troveNotActive) ∨
        liquidateOne caller b w = .error (.refused .nothingToLiquidate)) := by
  intro w
  have hw : w.Wired := (Deployment.start_ready start).wired.after outside
  have h : (liquidateAll caller borrowers).Meets w _ _ := Protocol.batch_singles hw
  rw [Action.Meets] at h
  refine ⟨?_, ?_⟩
  · intro out hout
    rw [hout] at h
    exact h
  · intro herr b hb
    rw [herr] at h
    obtain ⟨f, hf, hpassed⟩ := Protocol.oneByOne_none (h rfl) b hb
    rcases Fault.isPassedOver_iff.1 hpassed with rfl | rfl
    · exact .inl hf
    · exact .inr hf

/-- Three troves are opened, two of them are due after the price fell, and the
pool takes a part of the first. -/
def Deployment.twoDue : List Turn :=
  Turn.opening (.account 1) (20 * Amount.one) (500 * Amount.one) ++
  Turn.opening (.account 2) (5 * Amount.one) (400 * Amount.one) ++
  Turn.opening (.account 3) (5 * Amount.one) (410 * Amount.one) ++
  [.call (.account 1) (.provide (100 * Amount.one)), .pricing 12100000000]

/-- One of these borrowers has no trove, one is named twice and one is not
due. -/
def Deployment.mixed : List Address :=
  [.account 7, .account 2, .account 2, .account 1, .account 3]

theorem Deployment.batch_one_by_one_twoDue :
    ∃ o, plain.start (some { incentive? := none }) = .ok o ∧ (∀ t ∈ twoDue, t.outside) ∧
      let w := o.world.after twoDue
      (∃ out parts, liquidateAll (.account 9) mixed w = .ok out ∧
        oneByOne (.account 9) mixed w = .ok (out.world, parts) ∧ out.value = parts.sum ∧
        parts.length = 2) ∧
      liquidateAll (.account 9) [.account 7, .account 1] w = .error (.refused .nothingToLiquidate) ∧
      ∀ b ∈ [Address.account 7, .account 1],
        liquidateOne (.account 9) b w = .error (.refused .troveNotActive) ∨
          liquidateOne (.account 9) b w = .error (.refused .nothingToLiquidate) := by
  obtain ⟨o, ho, hall, hparts, hnone⟩ : ∃ o,
      plain.start (some { incentive? := none }) = .ok o ∧
      let w := o.world.after twoDue
      (do
        let out ← liquidateAll (.account 9) mixed w
        return out.value.troves) = .ok 2 ∧
      (do
        let r ← oneByOne (.account 9) mixed w
        return r.2.length) = .ok 2 ∧
      (liquidateAll (.account 9) [.account 7, .account 1] w).fault? =
        some (.refused .nothingToLiquidate) :=
    Checked.exists_ok (by decide +kernel)
  have hout : ∀ t ∈ twoDue, t.outside := by decide +kernel
  have hnone := Checked.fault?_eq_some.1 hnone
  obtain ⟨out, hrun, -⟩ := Checked.bind_eq_ok.1 hall
  obtain ⟨r, hr, hlen⟩ := Checked.bind_eq_ok.1 hparts
  obtain ⟨parts, hone, hsum⟩ := (batch_one_by_one ho hout (.account 9) mixed).1 out hrun
  obtain rfl : r = (out.world, parts) := Except.ok.inj (hr.symm.trans hone)
  exact ⟨o, ho, hout, ⟨out, parts, hrun, hone, hsum, Except.ok.inj hlen⟩, hnone,
    (batch_one_by_one ho hout (.account 9) [.account 7, .account 1]).2 hnone⟩

end Troves
