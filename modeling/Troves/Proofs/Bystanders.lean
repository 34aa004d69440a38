/-
# What a liquidation leaves to the others

A liquidation request writes to the records of the troves it closes and, where
the last owner moves into a slot that came free, to the slot of that owner.
Whoever else is open afterwards has the records of before.  What a redistribution
gives them shows in the index alone, and the index only grows, so no position
becomes smaller; where nothing is redistributed, none becomes larger either.
-/
import Troves.Proofs.Movements
import Troves.Proofs.Spreads
import Troves.Proofs.Walks

namespace Troves

open Liquidation (Split Totals)

theorem Holding.eq_empty {a : Holding} (h : ∀ x, a.part x = 0) : a = {} := by
  obtain ⟨collateral, debt⟩ := a
  exact congrArg₂ Holding.mk (h .collateral) (h .debt)

/-! ## Positions -/

namespace Ledger

variable {l l' : Ledger} {a b : Address} {x : Part}

/-- An owner's position is beyond what amounts can express: the product of stake
and growth is, or the sum with what the trove records. -/
def Outgrown (l : Ledger) (a : Address) : Prop :=
  ∃ x, Amount.limit ≤ l.due a x ∨
    Amount.limit ≤ (l.trove a).toHolding.part x + l.due a x / Amount.one

/-- The pending rewards of an open trove can be reckoned unless a product of
stake and growth does not fit. -/
theorem pending_meets {Q : Holding → Prop} {E : Fault → Prop} (ha : l.isActive a = true)
    (marks : ∀ x, (l.mark a).part x ≤ l.index.part x) (hQ : ∀ p, l.pending a = .ok p → Q p)
    (hE : ∀ x, Amount.limit ≤ l.due a x → E .overflow) : (l.pending a).Meets Q E := by
  refine Checked.Meets.mono (P := fun _ => True) ?_ (fun p hp _ => hQ p hp) fun _ he => he
  rw [pending, if_pos (by exact ha), Accrual.pending]
  split
  · exact trivial
  · obtain ⟨growth, hg⟩ := Holding.sub_of_part_le marks
    have hpart (x : Part) : growth.part x = l.growth a x := (Holding.part_sub hg x).2
    have share {x : Part} {Q : Nat → Prop} (hQ : ∀ n, Q n) :
        (Accrual.share (l.trove a).stake (growth.part x)).Meets Q E := by
      rw [Accrual.share, Amount.mulDiv, Checked.meets_bind, hpart]
      refine Amount.meets_mul_of (fun _ => ?_) (hE x)
      rw [Amount.meets_div]
      exact hQ _
    rw [Checked.meets_bind]
    refine Checked.meets_of_ok hg ?_
    rw [Checked.meets_bind]
    refine share (x := .collateral) fun _ => ?_
    rw [Checked.meets_bind]
    exact share (x := .debt) fun _ => trivial

/-- The position of an open trove is what it records with what is due to it in
whole units, or beyond expression. -/
theorem entire_meets (ha : l.isActive a = true)
    (marks : ∀ x, (l.mark a).part x ≤ l.index.part x) :
    (l.entire a).Meets (fun e => ∀ x, e.toHolding.part x =
        (l.trove a).toHolding.part x + l.due a x / Amount.one)
      fun f => f = .overflow ∧ l.Outgrown a := by
  rw [entire, Checked.meets_bind]
  refine pending_meets ha marks (fun p hp => ?_) fun x hx => ⟨rfl, x, .inl hx⟩
  have hpart := pending_ok ha hp
  rw [Checked.meets_bind]
  refine Holding.meets_add_of (fun c hc x => ?_) fun x hx => ⟨rfl, x, .inr ?_⟩
  · rw [← hpart]
    exact Holding.part_add hc x
  · rwa [← hpart]

theorem entire_part {e : Entire} (ha : l.isActive a = true) (h : l.entire a = .ok e) (x : Part) :
    e.toHolding.part x = (l.trove a).toHolding.part x + l.due a x / Amount.one := by
  obtain ⟨hp, hpart⟩ := entire_ok h
  rw [hpart, pending_ok ha hp]

/-! ## One liquidation -/

theorem Retains.isActive (h : l.Retains l' a) : l'.isActive a = l.isActive a := by
  obtain ⟨slot, hs⟩ := h.trove
  rw [Ledger.isActive, hs]
  rfl

theorem Retains.due_le (h : l.Retains l' a) (grown : l.index.part x ≤ l'.index.part x) :
    l.due a x ≤ l'.due a x := by
  obtain ⟨slot, hs⟩ := h.trove
  rw [due, due, growth, growth, hs, h.mark]
  exact Nat.mul_le_mul_left _ (Nat.sub_le_sub_right grown _)

/-- Beside kept records a greater index never makes for a smaller position. -/
theorem Retains.entire_grows {e : Entire} (h : l.Retains l' a)
    (grown : ∀ x, l.index.part x ≤ l'.index.part x) (ha : l'.isActive a = true)
    (marks : ∀ x, (l'.mark a).part x ≤ l'.index.part x) (he : l.entire a = .ok e) :
    (l'.entire a).Meets (fun e' => ∀ x, e.toHolding.part x ≤ e'.toHolding.part x)
      fun f => f = .overflow ∧ l'.Outgrown a := by
  refine (entire_meets ha marks).mono (fun e' _ he' x => ?_) fun _ hf => hf
  obtain ⟨slot, hs⟩ := h.trove
  rw [he', entire_part (h.isActive ▸ ha) he, hs]
  exact Nat.add_le_add_left (Nat.div_le_div_right (h.due_le (grown x))) _

theorem spreadOver_index {amount : Holding} (h : l.spreadOver amount = .ok l') (x : Part) :
    l.index.part x ≤ l'.index.part x := by
  obtain ⟨-, -, parked | shared⟩ := spreadOver_ok h
  · rw [parked.kept]
  · exact shared.grown x

/-- A liquidation never lowers the index. -/
theorem liquidate_index_le {pending : Holding} {s : Split}
    (h : l.liquidate b pending s = .ok l') (x : Part) : l.index.part x ≤ l'.index.part x := by
  obtain ⟨l₁, a₁, l₂, a₂, base, out, spread, rfl⟩ := liquidate_ok h
  have hindex : l₁.index = l.index := by rw [out.kept]
  exact hindex ▸ spreadOver_index spread x

end Ledger

/-! ## The liquidations of one call -/

namespace Protocol

variable {w w' : World} {price : Nat} {liquidator a : Address} {t t' : Totals}

/-- Who is open after some liquidations was open before them and keeps the
records. -/
theorem Sweep.retains (h : Sweep price liquidator w t w' t')
    (ha : w'.ledger.isActive a = true) :
    w.ledger.isActive a = true ∧ w.ledger.Retains w'.ledger a := by
  induction h with
  | done => exact ⟨ha, .refl⟩
  | next _ out _ _ ih =>
    obtain ⟨ha₁, rest⟩ := ih ha
    obtain ⟨others, active⟩ := Ledger.liquidate_retains out.ledger
    obtain ⟨hne, ha⟩ := (active a).1 ha₁
    exact ⟨ha, (others a hne).trans rest⟩

theorem Sweep.index_le (h : Sweep price liquidator w t w' t') (x : Part) :
    w.ledger.index.part x ≤ w'.ledger.index.part x := by
  induction h with
  | done => exact le_rfl
  | next _ out _ _ ih => exact (Ledger.liquidate_index_le out.ledger x).trans ih

end Protocol

/-- What some totals say was redistributed. -/
def Liquidation.Totals.spread (t : Totals) : Holding where
  collateral := t.collateralSpread
  debt := t.debtSpread

theorem Liquidation.Totals.spread_add {t t₁ : Totals} {s : Split} (h : t.add s = .ok t₁)
    (x : Part) : t₁.spread.part x = t.spread.part x + s.spread.part x := by
  obtain ⟨-, rfl⟩ := Totals.tally_some h
  cases x <;> rfl

namespace Protocol

variable {w w' : World} {price : Nat} {liquidator : Address} {t t' : Totals}

theorem Sweep.spread_le (h : Sweep price liquidator w t w' t') (x : Part) :
    t.spread.part x ≤ t'.spread.part x := by
  induction h with
  | done => exact le_rfl
  | next _ _ tally _ ih =>
    rw [Totals.spread_add tally] at ih
    omega

/-- Where the totals say that nothing was redistributed, no liquidation moved
the index. -/
theorem Sweep.index_eq (h : Sweep price liquidator w t w' t') (nothing : t'.spread = {}) :
    w'.ledger.index = w.ledger.index := by
  induction h with
  | done => rfl
  | @next _ _ _ _ _ _ _ _ s _ out tally rest ih =>
    have hs : s.spread = {} := Holding.eq_empty fun x => by
      have hle := rest.spread_le x
      rw [nothing, Holding.part_empty, Totals.spread_add tally] at hle
      omega
    exact (ih nothing).trans (Ledger.liquidate_index out.ledger hs)

end Protocol

/-! ## Runs -/

namespace Deployment

/-- A liquidation request harms nobody's records but those it closes.

In every reachable state, and whatever troves the request closes: whoever is
open afterwards was open before and keeps debt, collateral, stake, status and
mark; only the slot may be another one.  The position with pending rewards
becomes no smaller, as far as amounts can express it, and where the request
redistributes nothing it is exactly as before. -/
theorem liquidation_spares_bystanders {d : Deployment}
    {incentive? : Option Liquidation.Incentive} {o : Outcome Unit}
    (start : d.start (some { incentive? }) = .ok o) {ts : List Turn}
    (outside : ∀ t ∈ ts, t.outside) {r : Request} (liquidation : r.isLiquidation)
    {caller : Address} {out : Outcome Reply}
    (done : r.perform caller (o.world.after ts) = .ok out) {a : Address}
    (still : out.world.ledger.isActive a = true) :
    let l := (o.world.after ts).ledger
    let l' := out.world.ledger
    l.isActive a = true ∧
      (∃ slot, l'.trove a = { l.trove a with slot }) ∧ l'.mark a = l.mark a ∧
      (∀ e, l.entire a = .ok e → (l'.entire a).Meets
        (fun e' => e.collateral ≤ e'.collateral ∧ e.debt ≤ e'.debt)
        fun f => f = .overflow ∧ l'.Outgrown a) ∧
      ∀ t, out.value = .totals t → t.collateralSpread = 0 → t.debtSpread = 0 →
        l'.entire a = l.entire a := by
  have sound := (start_ready start).sound_after outside
  obtain ⟨n, balanced⟩ := sound.balanced
  obtain ⟨t, answer, cleared⟩ := Request.ensures_cleared sound.wired liquidation caller out done
  obtain ⟨d, -, sweep⟩ := cleared.sweep
  obtain ⟨ha, retains⟩ := sweep.retains still
  have marks := (sweep.balanced (n := n) (by exact balanced)).marks a
  refine ⟨ha, retains.trove, retains.mark, fun e he => ?_, fun t' answer' hc hd => ?_⟩
  · exact (retains.entire_grows sweep.index_le still (fun x => marks x still) he).mono
      (fun _ _ grows => ⟨grows .collateral, grows .debt⟩) fun _ hf => hf
  · cases answer.symm.trans answer'
    exact retains.entire_eq (sweep.index_eq (by rw [Totals.spread, hc, hd]))

/-- Of four troves the second and the fourth are closed, so that the third moves
up in the list of owners and has a part of the debt spread over it; or the second
is closed alone, with nothing to spread. -/
theorem liquidation_spares_bystanders_mixedModes :
    ∃ o, plain.start (some { incentive? := none }) = .ok o ∧
      (∀ t ∈ mixedModes, t.outside) ∧
      let w := o.world.after mixedModes
      let a := Address.account 3
      (∃ out, (Request.liquidateAll [.account 2, a, .account 4]).perform (.account 9) w =
          .ok out ∧
        out.world.ledger.isActive a = true ∧
        (w.ledger.trove a).slot = 2 ∧ (out.world.ledger.trove a).slot = 1 ∧
        (∃ slot, out.world.ledger.trove a = { w.ledger.trove a with slot }) ∧
        ∃ e e', w.ledger.entire a = .ok e ∧ out.world.ledger.entire a = .ok e' ∧
          e.collateral ≤ e'.collateral ∧ e.debt < e'.debt) ∧
      ∃ out, (Request.liquidateOne (.account 2)).perform (.account 9) w = .ok out ∧
        out.world.ledger.isActive a = true ∧
        out.world.ledger.entire a = w.ledger.entire a := by
  obtain ⟨o, ho, hall, hone⟩ : ∃ o, plain.start (some { incentive? := none }) = .ok o ∧
      let w := o.world.after mixedModes
      let a := Address.account 3
      (do
        let e ← w.ledger.entire a
        let out ← (Request.liquidateAll [.account 2, a, .account 4]).perform (.account 9) w
        let e' ← out.world.ledger.entire a
        return (out.world.ledger.isActive a, (w.ledger.trove a).slot,
          (out.world.ledger.trove a).slot, decide (e.debt < e'.debt))) = .ok (true, 2, 1, true) ∧
      (do
        let out ← Protocol.liquidateOne (.account 9) (.account 2) w
        return (out.world.ledger.isActive a, out.value.spread)) = .ok (true, {}) :=
    Checked.exists_ok (by decide +kernel)
  have hout : ∀ t ∈ mixedModes, t.outside := by decide +kernel
  simp only [Checked.bind_eq_ok, Checked.pure_eq_ok, Prod.mk.injEq, decide_eq_true_eq]
    at hall hone
  obtain ⟨e, he, out, hrun, e', he', hactive, hslot, hslot', hgrown⟩ := hall
  obtain ⟨out', hone, hactive', hspread⟩ := hone
  have hrun' : (Request.liquidateOne (.account 2)).perform (.account 9) (o.world.after mixedModes) =
      .ok ⟨.totals out'.value, out'.world, out'.events ++ []⟩ :=
    Action.bind_eq_ok.2 ⟨out', hone, _, rfl, rfl⟩
  refine ⟨o, ho, hout, ⟨out, hrun, hactive, hslot, hslot', ?_⟩, _, hrun', hactive', ?_⟩
  · obtain ⟨-, htrove, -, hgrows, -⟩ :=
      liquidation_spares_bystanders ho hout (r := .liquidateAll [.account 2, .account 3, .account 4])
        trivial hrun hactive
    have hgrows := hgrows e he
    rw [he'] at hgrows
    exact ⟨htrove, e, e', he, he', hgrows.1, hgrown⟩
  · obtain ⟨-, -, -, -, hsame⟩ :=
      liquidation_spares_bystanders ho hout (r := .liquidateOne (.account 2)) trivial hrun' hactive'
    exact hsame _ rfl (congrArg Holding.collateral hspread) (congrArg Holding.debt hspread)

end Deployment

end Troves
