/-
# Who holds a stake

What is spread falls on the stakes, so an open trove takes part in a
redistribution exactly if its stake is not zero.  A stake is sized when the trove
is opened, by the baseline of that moment, and stays as it is until the trove is
closed.

    baseline                        stake of a new trove
    no stakes, or no collateral     the collateral
    otherwise                       the collateral times stakes per collateral

The quotient is rounded down.  A baseline whose collateral is more than the new
trove's times the stakes leaves nothing of it: the trove is open, no
redistribution ever reaches it, and what is to be spread when all others are
gone waits unassigned.  Nothing else takes a trove's stake away.  So all open troves
hold one throughout a run exactly if no opening is rounded to nothing.
-/
import Troves.Proofs.Openings
import Troves.Proofs.Shares

namespace Troves

open Liquidation (Split Totals)

/-! ## The stake of a new trove -/

namespace Accrual

/-- Whether the baseline leaves some stake to a new trove's collateral. -/
def Baseline.Serves (base : Baseline) (collateral : Nat) : Prop :=
  base.stakes = 0 ∨ base.collateral = 0 ∨ base.collateral ≤ collateral * base.stakes

instance (base : Baseline) (collateral : Nat) : Decidable (base.Serves collateral) :=
  inferInstanceAs (Decidable (_ ∨ _ ∨ _))

/-- What is served to a trove is served to a larger one. -/
theorem Baseline.Serves.mono {base : Baseline} {c c' : Nat} (h : base.Serves c) (hle : c ≤ c') :
    base.Serves c' := by
  obtain hz | hz | hserved := h
  · exact .inl hz
  · exact .inr (.inl hz)
  · exact .inr (.inr (hserved.trans (Nat.mul_le_mul_right _ hle)))

theorem stakeFor_pos_iff {collateral stake : Nat} {base : Baseline} (hc : collateral ≠ 0)
    (h : stakeFor collateral base = .ok stake) : 0 < stake ↔ base.Serves collateral := by
  rw [stakeFor] at h
  rw [Baseline.Serves]
  by_cases hb : base.stakes = 0 ∨ base.collateral = 0
  · rw [if_pos hb] at h
    cases h
    rw [← or_assoc]
    exact ⟨fun _ => .inl hb, fun _ => Nat.pos_of_ne_zero hc⟩
  · rw [if_neg hb, Amount.mulDiv_eq_ok] at h
    obtain ⟨-, hne, rfl⟩ := h
    rw [Nat.div_pos_iff]
    rw [not_or] at hb
    constructor
    · exact fun hpos => .inr (.inr hpos.2)
    · rintro (hz | hz | hle)
      · exact absurd hz hb.1
      · exact absurd hz hb.2
      · exact ⟨Nat.pos_of_ne_zero hne, hle⟩

end Accrual

namespace Ledger

variable {l l' : Ledger} {a b : Address}

/-- Every open trove holds a stake. -/
def Staked (l : Ledger) : Prop :=
  ∀ a, l.isActive a = true → 0 < (l.trove a).stake

/-- No open trove holds a stake. -/
def Stakeless (l : Ledger) : Prop :=
  ∀ a, l.isActive a = true → (l.trove a).stake = 0

theorem Balanced.totalStakes_eq_zero_iff {n : Nat} (h : l.Balanced n) :
    l.totalStakes = 0 ↔ l.Stakeless := by
  rw [h.stakes, Finset.sum_eq_zero_iff]
  simp only [mem_openTroves]
  rfl

theorem Staked.stakeless_iff (h : l.Staked) : l.Stakeless ↔ ∀ a, l.isActive a = false := by
  constructor
  · intro hs a
    rw [← Bool.not_eq_true]
    intro ha
    exact (h a ha).ne' (hs a ha)
  · intro hn a ha
    rw [hn a] at ha
    cases ha

/-! ## What becomes of the stakes -/

/-- Beside the troves that held one already, the new one holds a stake if the
baseline leaves it any. -/
theorem Enrolled.staked_iff {holding : Holding} (h : Enrolled l a holding l')
    (hc : holding.collateral ≠ 0) (hs : l.Staked) :
    l'.Staked ↔ l.baseline.Serves holding.collateral := by
  rw [← Accrual.stakeFor_pos_iff hc h.stakeFor]
  constructor
  · intro hs'
    exact hs' a (by rw [h.isActive, if_pos rfl])
  · intro hpos b hb
    by_cases hab : b = a
    · rw [hab]
      exact hpos
    · rw [h.isActive, if_neg hab] at hb
      rw [h.others b hab]
      exact hs b hb

/-- A settlement touches no stake. -/
theorem Staked.settle {s : Accrual.Settlement} (h : l.Staked) (hb : l.isActive b = true)
    (hs : l.settlement b = .ok s) (ht : SettledIn l b s l') : l'.Staked := by
  obtain ⟨-, -, -, htrove⟩ := settlement_ok hb hs
  intro a ha
  rw [ht.isActive hb hs] at ha
  by_cases hab : a = b
  · rw [hab, ht.trove, htrove]
    exact h b hb
  · rw [ht.others a hab]
    exact h a ha

/-- A liquidation touches the stake of nobody else. -/
theorem Staked.liquidate {pending : Holding} {s : Split} (h : l.Staked)
    (hl : l.liquidate b pending s = .ok l') : l'.Staked := by
  obtain ⟨hr, hact⟩ := liquidate_retains hl
  intro a ha
  obtain ⟨hne, ha⟩ := (hact a).1 ha
  obtain ⟨slot, hslot⟩ := (hr a hne).trove
  rw [hslot]
  exact h a ha

/-! ## What is set aside -/

/-- More waits unassigned than before. -/
def Parks (l l' : Ledger) : Prop :=
  ∃ x, l.unassigned.part x < l'.unassigned.part x

theorem Parks.congr {l₁ l₁' : Ledger} (h : l.unassigned = l₁.unassigned)
    (h' : l'.unassigned = l₁'.unassigned) : l.Parks l' ↔ l₁.Parks l₁' := by
  rw [Parks, Parks, h, h']

/-- As soon as there are stakes, debt is shared out with all that waited. -/
theorem spreadOver_shared {amount : Holding} (h : l.spreadOver amount = .ok l')
    (hd : amount.debt ≠ 0) (hs : l.totalStakes ≠ 0) : l'.unassigned = {} := by
  have hz : ¬ amount.isZero = true := by
    rw [Holding.isZero_iff]
    rintro rfl
    exact hd rfl
  rw [spreadOver, if_neg hz] at h
  simp only [spread?, Checked.bind_eq_ok] at h
  obtain ⟨s?, ⟨t, ht, hspread⟩, h⟩ := h
  have htotal : t.debt ≠ 0 := by
    have := Holding.part_add ht .debt
    simp only [Holding.part] at this
    omega
  cases s? with
  | none =>
    rw [Accrual.spread?, if_neg (not_or.2 ⟨htotal, hs⟩)] at hspread
    simp only [Checked.bind_eq_ok, Checked.pure_eq_ok] at hspread
    obtain ⟨_, -, _, -, _, -, _, -, hnone⟩ := hspread
    cases hnone
  | some s =>
    simp only [bookSpread, Checked.bind_eq_ok, Checked.pure_eq_ok] at h
    obtain ⟨_, -, _, rfl, _, -, _, -, rfl⟩ := h
    rfl

/-- An amount is set aside exactly if there is one and there are no stakes. -/
theorem spreadOver_parks_iff {amount : Holding} (h : l.spreadOver amount = .ok l')
    (together : amount.debt = 0 → amount.collateral = 0) :
    l.Parks l' ↔ amount ≠ {} ∧ l.totalStakes = 0 := by
  obtain ⟨-, -, hbooked⟩ := spreadOver_ok h
  have hdebt (hne : amount ≠ {}) : amount.debt ≠ 0 := by
    intro hz
    refine hne (Holding.isZero_iff.1 ?_)
    rw [Holding.isZero, hz, together hz]
    rfl
  constructor
  · rintro ⟨x, hlt⟩
    have hne : amount ≠ {} := by
      rintro rfl
      obtain hp | hs := hbooked
      · have hgrown := hp.unassigned x
        rw [Holding.part_empty] at hgrown
        omega
      · rw [hs.unassigned, Holding.part_empty] at hlt
        omega
    refine ⟨hne, by_contra fun hs => ?_⟩
    rw [spreadOver_shared h (hdebt hne) hs, Holding.part_empty] at hlt
    omega
  · rintro ⟨hne, hs⟩
    obtain hp | hshared := hbooked
    · have hgrown := hp.unassigned .debt
      have hpos : 0 < amount.part .debt := Nat.pos_of_ne_zero (hdebt hne)
      exact ⟨.debt, by omega⟩
    · exact absurd hs hshared.stakes

/-- What a liquidation leaves to the others is set aside exactly if none of
them holds a stake. -/
theorem liquidate_parks_iff {pending : Holding} {s : Split}
    (h : l.liquidate b pending s = .ok l')
    (together : s.debtToSpread = 0 → s.collateralToSpread = 0) :
    l.Parks l' ↔ s.spread ≠ {} ∧ l'.totalStakes = 0 := by
  obtain ⟨l₁, a₁, l₂, a₂, base, ht, hs, rfl⟩ := liquidate_ok h
  have hbefore : l.unassigned = l₁.unassigned := by rw [ht.kept]
  have hparks := spreadOver_parks_iff hs together
  show _ ↔ _ ∧ l₂.totalStakes = 0
  rw [spreadOver_stakes hs]
  exact (Parks.congr hbefore rfl).trans hparks

end Ledger

/-! ## One liquidation after the other -/

namespace Protocol

variable {w w' : World} {b liquidator : Address} {price : Nat} {e : Entire} {s : Split}

/-- A liquidated trove leaves collateral to the others with debt or not at
all. -/
theorem Due.together (due : Due w b price e s) :
    s.debtToSpread = 0 → s.collateralToSpread = 0 := by
  obtain ⟨total, ht, hs⟩ := due.split
  have hlt : total < Amount.limit := Ratio.collateral_lt (Ledger.totalRatio_ok ht)
  obtain ⟨ratio, -, -, fair⟩ := (Liquidation.meets_split? hlt).of_eq_ok hs
  exact (fair s rfl).together

theorem Sweep.staked {t t' : Totals} (h : Sweep price liquidator w t w' t')
    (hs : w.ledger.Staked) : w'.ledger.Staked := by
  induction h with
  | done => exact hs
  | next _ out _ _ ih => exact ih (hs.liquidate out.ledger)

theorem Opened.staked_iff {a : Address} {holding : Holding} {hint : TroveList.Slot}
    (h : Opened w a holding hint w') (hs : w.ledger.Staked) :
    w'.ledger.Staked ↔ w.ledger.baseline.Serves holding.collateral := by
  obtain ⟨l, he, pool, -, hl, -⟩ := h.enrolled
  rw [hl]
  exact (Ledger.enroll_ok he).staked_iff h.collateral_ne hs

end Protocol

/-! ## One turn -/

/-- A turn that opens a trove with some collateral. -/
def Turn.Opens (t : Turn) (w : World) (collateral : Nat) : Prop :=
  ∃ a debt hint out, t = .call a (.borrow collateral debt hint) ∧
    (Request.borrow collateral debt hint).perform a w = .ok out

/-- Only an opening can leave an open trove without a stake. -/
theorem Step.staked_or_opened {w w' : World} {t : Turn} {k : Nat} (h : Step w t k w')
    (hs : w.ledger.Staked) : w'.ledger.Staked ∨
      ∃ a collateral debt hint, t = .call a (.borrow collateral debt hint) := by
  cases h.onLedger with
  | kept hk =>
    rw [hk]
    exact .inl hs
  | opened ho => exact .inr ⟨_, _, _, _, rfl⟩
  | settled hd => exact .inl (hs.settle hd.active hd.settlement hd.booked)
  | cleared hc =>
    obtain ⟨d, -, hsweep⟩ := hc.sweep
    exact .inl (hsweep.staked (by exact hs))

/-- Troves that all hold a stake go on to do so over a turn, unless it opens one
and the baseline leaves it none. -/
theorem Turn.staked_iff {w : World} {t : Turn} (hw : w.Wired) (ht : t.outside)
    (hs : w.ledger.Staked) : (t.take w).1.ledger.Staked ↔
      ∀ collateral, t.Opens w collateral → w.ledger.baseline.Serves collateral := by
  have opening {a collateral debt hint out}
      (h : (Request.borrow collateral debt hint).perform a w = .ok out) :
      out.world.ledger.Staked ↔ w.ledger.baseline.Serves collateral :=
    (Request.borrow_opened hw h).staked_iff hs
  constructor
  · rintro hs' collateral ⟨a, debt, hint, out, rfl, h⟩
    simp only [take, h] at hs'
    exact (opening h).1 hs'
  · intro served
    obtain hs' | ⟨a, collateral, debt, hint, rfl⟩ := (Turn.step hw ht).staked_or_opened hs
    · exact hs'
    · cases h : (Request.borrow collateral debt hint).perform a w with
      | error f =>
        simp only [take, h]
        exact hs
      | ok out =>
        simp only [take, h]
        exact (opening h).2 (served collateral ⟨a, debt, hint, out, rfl, h⟩)

/-! ## Runs -/

theorem Deployment.Ready.staked {d : Deployment} {w : World} (h : d.Ready w) :
    w.ledger.Staked := by
  intro a ha
  have hmem : a ∈ ([] : List Address) := (h.threaded.listed a).2 ha
  cases hmem

open Protocol (Due Sweep Liquidated)

/-- Who shares in redistributions.

In all states of a run every open trove holds a stake exactly if each opening
along it is served by the baseline it finds.  In every state the total of the
stakes is zero exactly if no open trove holds one, and a liquidation, also one
in the middle of a call, sets aside what it would spread exactly if none of the
troves that stay open holds one.  While every open trove holds a stake, either
is so only if there is no open trove at all. -/
theorem Deployment.stakes_positive_iff {d : Deployment} {incentive? : Option Liquidation.Incentive}
    {o : Outcome Unit} (start : d.start (some { incentive? }) = .ok o) {ts : List Turn}
    (outside : ∀ t ∈ ts, t.outside) :
    ((∀ us, us <+: ts → (o.world.after us).ledger.Staked) ↔
      ∀ us t, us ++ [t] <+: ts → let w := o.world.after us
        ∀ collateral, t.Opens w collateral → w.ledger.baseline.Serves collateral) ∧
    ∀ us, us <+: ts → let w := o.world.after us
      (w.ledger.totalStakes = 0 ↔ w.ledger.Stakeless) ∧
      (w.ledger.Staked → (w.ledger.totalStakes = 0 ↔ ∀ a, w.ledger.isActive a = false)) ∧
      ∀ {w₀ price liquidator w₁ t}, w₀.ledger = w.ledger → Sweep price liquidator w₀ {} w₁ t →
        ∀ {b e s w₂}, Due w₁ b price e s → Liquidated w₁ b liquidator e.pending s w₂ →
          (w₁.ledger.Parks w₂.ledger ↔ s.spread ≠ {} ∧ w₂.ledger.Stakeless) ∧
          (w.ledger.Staked → w₂.ledger.Staked ∧
            (w₁.ledger.Parks w₂.ledger → ∀ a, w₂.ledger.isActive a = false)) := by
  have hr := start_ready start
  have sound {us : List Turn} (hu : us <+: ts) : (o.world.after us).Sound :=
    hr.sound_after fun t ht => outside t (hu.subset ht)
  -- what the last of some turns does
  have last {us : List Turn} {t : Turn} (hu : us ++ [t] <+: ts)
      (hs : (o.world.after us).ledger.Staked) : (o.world.after (us ++ [t])).ledger.Staked ↔
        ∀ collateral, t.Opens (o.world.after us) collateral →
          (o.world.after us).ledger.baseline.Serves collateral := by
    rw [World.after_append]
    exact Turn.staked_iff (sound ((List.prefix_append us [t]).trans hu)).wired
      (outside t (hu.subset (by simp))) hs
  refine ⟨⟨fun hs us t hu => ?_, fun hserved us => ?_⟩, fun us hu => ?_⟩
  · exact (last hu (hs us ((List.prefix_append us [t]).trans hu))).1 (hs _ hu)
  · induction us using List.reverseRecOn with
    | nil => exact fun _ => hr.staked
    | append_singleton us t ih =>
      intro hu
      exact (last hu (ih ((List.prefix_append us [t]).trans hu))).2 (hserved us t hu)
  · intro w
    obtain ⟨n, hb⟩ := (sound hu).balanced
    refine ⟨hb.totalStakes_eq_zero_iff,
      fun hs => hb.totalStakes_eq_zero_iff.trans hs.stakeless_iff, ?_⟩
    intro w₀ price liquidator w₁ t hl hsweep b e s w₂ due out
    have hb₁ := hsweep.balanced (hl ▸ hb)
    have hb₂ := hb₁.liquidate due.active (Ledger.entire_ok due.position).1 out.ledger
    have hparks := Ledger.liquidate_parks_iff out.ledger due.together
    rw [hb₂.totalStakes_eq_zero_iff] at hparks
    refine ⟨hparks, fun hs => ?_⟩
    have hs₂ := (hsweep.staked (hl ▸ hs)).liquidate out.ledger
    exact ⟨hs₂, fun hp => hs₂.stakeless_iff.1 (hparks.1 hp).2⟩

/-- The only trove is liquidated, so that it is set aside and no stake is left.
Two more are opened, and one of them is due. -/
def Deployment.restarted : List Turn :=
  Turn.opening (.account 1) Amount.one (100 * Amount.one) ++
  [.pricing 7500000000, .call (.account 9) (.liquidateOne (.account 1))] ++
  Turn.opening (.account 2) (10 * Amount.one) (100 * Amount.one) ++
  Turn.opening (.account 3) Amount.one (50 * Amount.one) ++
  [.pricing 4000000000, .call (.account 9) .currentPrice]

theorem Deployment.stakes_positive_restarted :
    ∃ o, plain.start (some { incentive? := some { debtCompensation := 0 } }) = .ok o ∧
      (∀ t ∈ restarted, t.outside) ∧
      (∀ us, us <+: restarted → (o.world.after us).ledger.Staked) ∧
      let w := o.world.after restarted
      w.ledger.unassigned.debt = 100 * Amount.one ∧
        ∃ e s w', Due w (.account 3) w.feed.lastGood e s ∧
          Liquidated w (.account 3) (.account 9) e.pending s w' ∧
          s.spread ≠ {} ∧ w'.ledger.Staked ∧ ¬ w.ledger.Parks w'.ledger := by
  obtain ⟨o, ho, hserved, hwait, hrun⟩ : ∃ o,
      plain.start (some { incentive? := some { debtCompensation := 0 } }) = .ok o ∧
      (∀ us ∈ restarted.inits, (o.world.after us).ledger.baseline.Serves Amount.one) ∧
      let w := o.world.after restarted
      w.ledger.unassigned.debt = 100 * Amount.one ∧
        (do
          let out ← Protocol.liquidateIfDue .usual (.account 3) w.feed.lastGood (.account 9) w
          return (out.world.ledger.isActive (.account 2),
            out.value.map fun (s : Split) => s.spread.isZero)) =
          .ok (true, some false) :=
    Checked.exists_ok (by decide +kernel)
  have hout : ∀ t ∈ restarted, t.outside := by decide +kernel
  obtain ⟨hstaked, hstates⟩ := stakes_positive_iff ho hout
  have hall := hstaked.2 <| by
    rintro us _ hu w collateral ⟨a, debt, hint, out, rfl, -⟩
    have hmem : Turn.call a (.borrow collateral debt hint) ∈ restarted := hu.subset (by simp)
    simp only [restarted, Turn.opening, Turn.pricing, List.mem_append, List.mem_cons,
      List.not_mem_nil, Turn.call.injEq, Request.borrow.injEq, reduceCtorEq, and_false, or_false,
      false_or] at hmem
    have hbefore := hserved us ((List.mem_inits _ _).2 ((List.prefix_append us _).trans hu))
    exact hbefore.mono (by omega)
  obtain ⟨-, -, hswept⟩ := hstates restarted (List.prefix_refl _)
  refine ⟨o, ho, hout, hall, hwait, ?_⟩
  have hw := (start_ready ho).wired.after hout
  have hs := hall restarted (List.prefix_refl _)
  generalize o.world.after restarted = w at *
  simp only [Checked.bind_eq_ok, Checked.pure_eq_ok, Prod.mk.injEq,
    Option.map_eq_some_iff] at hrun
  obtain ⟨out, hl, hactive, s, hsome, hspread⟩ := hrun
  have attempt := Protocol.ensures_liquidateIfDue hw out hl
  rw [hsome] at attempt
  obtain ⟨e, due, gone⟩ := attempt
  obtain ⟨hs', hnone⟩ := (hswept rfl .done due gone).2 hs
  rw [← Bool.not_eq_true, Holding.isZero_iff] at hspread
  refine ⟨e, s, out.world, due, gone, hspread, hs', fun hp => ?_⟩
  rw [hnone hp] at hactive
  cases hactive

/-- A large trove is liquidated and leaves all it had to a tiny one, whose stake
is then the only one for all the collateral.  A trove of a hundred units is
opened, and the tiny one is liquidated. -/
def Deployment.dwarfed : List Turn :=
  Turn.opening (.account 1) 1 1 ++
  Turn.opening (.account 2) (1000 * Amount.one) (100000 * Amount.one) ++
  [.pricing 10500000000, .call (.account 9) (.liquidateOne (.account 2)),
   .pricing 20000000000] ++
  Turn.opening (.account 3) (100 * Amount.one) (1000 * Amount.one) ++
  [.pricing 10500000000, .call (.account 9) (.liquidateOne (.account 1))]

/-- The trove of a hundred units stays open, holds no stake, and is given nothing
of what the tiny one leaves. -/
theorem Deployment.stake_zero_dwarfed :
    ∃ o, plain.start (some { incentive? := some { debtCompensation := 0 } }) = .ok o ∧
      (∀ t ∈ dwarfed, t.outside) ∧
      let before := (o.world.after dwarfed.dropLast).ledger
      let l := (o.world.after dwarfed).ledger
      l.isActive (.account 3) = true ∧ (l.trove (.account 3)).stake = 0 ∧
        ¬ before.Staked ∧ ¬ l.Staked ∧ l.totalStakes = 0 ∧ before.unassigned = {} ∧
        l.unassigned = ⟨990025000000000000001, 100000 * Amount.one + 1⟩ := by
  obtain ⟨o, ho, hactive, hactive', hstake, hstake', htotal, hbefore, hafter⟩ : ∃ o,
      plain.start (some { incentive? := some { debtCompensation := 0 } }) = .ok o ∧
      let before := (o.world.after dwarfed.dropLast).ledger
      let l := (o.world.after dwarfed).ledger
      before.isActive (.account 3) = true ∧ l.isActive (.account 3) = true ∧
        (before.trove (.account 3)).stake = 0 ∧ (l.trove (.account 3)).stake = 0 ∧
        l.totalStakes = 0 ∧ before.unassigned = {} ∧
        l.unassigned = ⟨990025000000000000001, 100000 * Amount.one + 1⟩ :=
    Checked.exists_ok (by decide +kernel)
  refine ⟨o, ho, by decide +kernel, hactive', hstake', fun h => ?_, fun h => ?_, htotal, hbefore,
    hafter⟩
  · exact (h _ hactive).ne' hstake
  · exact (h _ hactive').ne' hstake'

end Troves
