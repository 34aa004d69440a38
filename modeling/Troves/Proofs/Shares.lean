/-
# How fairly a trove is split

The split of a trove is a number of products and quotients, rounded down, and
of differences that nothing guards.  None of the differences goes below zero
and no divisor is zero: a split fails only where a product is no amount, and
these are the products it makes.

    product                      made for
    collateral * price           a trove with debt
    rest * cancelled             an offset, if there are deposits at all
    debt * minimum ratio         an offset at the cap

What the pool gets for the debt it cancels is at most its part of the
collateral.  A trove at or above the minimum gives up collateral worth at most
the minimum ratio of its debt, and its owner keeps the rest.
-/
import Troves.Proofs.Splits

namespace Troves

/-- A product that fits is divided, by anything but zero. -/
theorem Amount.meets_mulDiv_of {a b c : Nat} {Q : Nat → Prop} {E : Fault → Prop} (hc : c ≠ 0)
    (hQ : Q (a * b / c)) (hE : Amount.limit ≤ a * b → E .overflow) :
    (Amount.mulDiv a b c).Meets Q E := by
  rw [mulDiv, Checked.meets_bind]
  refine meets_mul_of (fun _ => ?_) hE
  rwa [meets_div, if_neg hc]

namespace Liquidation

theorem Incentive.collateralOf_le (i : Incentive) (collateral : Nat) :
    i.collateralOf collateral ≤ collateral := by
  rw [Incentive.collateralOf]
  split
  · exact Nat.zero_le _
  · exact Nat.div_le_self _ _

namespace Split

variable {s : Split} {mode : Mode} {debt collateral price total deposits ratio : Nat}
  {i : Incentive} {E : Fault → Prop}

/-! ## The parts -/

/-- The pool gives no more for the debt it cancels than this debt's part of
the collateral, and all of it for the whole debt. -/
theorem meets_offsetPart {rest : Nat} (hd : debt ≠ 0)
    (hE : deposits ≠ 0 → Amount.limit ≤ rest * min debt deposits → E .overflow) :
    (offsetPart debt rest deposits).Meets
      (fun p => p.1 ≤ debt ∧ p.2 ≤ rest ∧ p.2 * debt ≤ rest * p.1 ∧ (p.1 = debt → p.2 = rest))
      E := by
  rw [offsetPart]
  split
  · refine ⟨Nat.zero_le _, Nat.zero_le _, ?_, fun h => absurd h.symm hd⟩
    simp
  · next hz =>
    rw [Checked.meets_bind]
    refine Amount.meets_mulDiv_of hd ⟨Nat.min_le_left _ _, ?_, Nat.div_mul_le_self _ _, ?_⟩ (hE hz)
    · refine Nat.div_le_of_le_mul ?_
      rw [Nat.mul_comm debt]
      exact Nat.mul_le_mul_left _ (Nat.min_le_left _ _)
    · intro hall
      simp only at hall
      rw [hall]
      exact Nat.mul_div_cancel _ (Nat.pos_of_ne_zero hd)

/-- An offset keeps to the proportion, and the collateral is spread with debt
or not at all. -/
theorem meets_offsetAndSpread (hd : debt ≠ 0)
    (hE : deposits ≠ 0 →
      Amount.limit ≤ (collateral - i.collateralOf collateral) * min debt deposits → E .overflow) :
    (offsetAndSpread debt collateral deposits i).Meets
      (fun s =>
        s.collateralToPool * debt ≤ (collateral - s.collateralCompensation) * s.debtToOffset ∧
          (s.debtToSpread = 0 → s.collateralToSpread = 0)) E := by
  simp only [offsetAndSpread, Checked.meets_bind, Amount.meets_sub, if_pos (i.collateralOf_le _)]
  refine (meets_offsetPart hd hE).mono (fun p _ hp => ?_) fun _ he => he
  obtain ⟨hle, hrest, hpart, hall⟩ := hp
  rw [if_pos hle, if_pos hrest]
  refine ⟨hpart, fun hz => ?_⟩
  have hz : debt - p.1 = 0 := hz
  show collateral - i.collateralOf collateral - p.2 = 0
  have := hall (by omega)
  omega

/-- Everything is spread, the whole debt with it. -/
theorem meets_spreadAll (hd : debt ≠ 0) :
    (spreadAll debt collateral i).Meets
      (fun s => s.collateralToPool = 0 ∧ s.debtToSpread ≠ 0) E := by
  simp only [spreadAll, Checked.meets_bind, Amount.meets_sub, if_pos (i.collateralOf_le _)]
  exact ⟨rfl, hd⟩

/-- At the cap the trove gives up no more than the minimum ratio of its debt,
and nothing is spread. -/
theorem meets_offsetAtCap (hd : debt ≠ 0) (hm : Ratio.minimum ≤ collateral * price / debt)
    (hE : Amount.limit ≤ debt * Ratio.minimum → E .overflow) :
    (offsetAtCap debt collateral price i).Meets
      (fun s => (collateral - s.surplus) * price ≤ debt * Ratio.minimum ∧
        s.debtToSpread = 0 ∧ s.collateralToSpread = 0) E := by
  -- the ratio is rounded down, the bound on the worth is exact all the same
  have hworth : debt * Ratio.minimum ≤ price * collateral := by
    rw [Nat.mul_comm debt, Nat.mul_comm price]
    exact Nat.mul_le_of_le_div _ _ _ hm
  have hprice : price ≠ 0 := by
    intro hz
    have hpos : 0 < debt * Ratio.minimum := Nat.mul_pos (Nat.pos_of_ne_zero hd) (by decide)
    rw [hz, Nat.zero_mul] at hworth
    omega
  have hcap : debt * Ratio.minimum / price ≤ collateral := Nat.div_le_of_le_mul hworth
  simp only [offsetAtCap, Checked.meets_bind]
  refine Amount.meets_mulDiv_of hprice ?_ hE
  rw [Amount.meets_sub, if_pos (i.collateralOf_le _), Amount.meets_sub, if_pos hcap]
  refine ⟨?_, rfl, rfl⟩
  show (collateral - (collateral - debt * Ratio.minimum / price)) * price ≤ _
  rw [Nat.sub_sub_self hcap]
  exact Nat.div_mul_le_self _ _

end Split

/-! ## The whole split -/

variable {s : Split} {mode : Mode} {debt collateral price total deposits ratio : Nat}
  {i : Incentive}

/-- The products that a split makes and that are no amount. -/
inductive Overflows (mode : Mode) (debt collateral price total deposits : Nat) (i : Incentive) :
    Prop where
  | worth (owes : debt ≠ 0) (large : Amount.limit ≤ collateral * price)
  | offset {ratio : Nat} (rated : Ratio.collateral collateral debt price = .ok ratio)
      (below : ratio < Ratio.minimum) (worth : mode = .recovery → Amount.one ≤ ratio)
      (filled : deposits ≠ 0)
      (large : Amount.limit ≤ (collateral - i.collateralOf collateral) * min debt deposits)
  | cap {ratio : Nat} (rated : Ratio.collateral collateral debt price = .ok ratio)
      (recovery : mode = .recovery) (least : Ratio.minimum ≤ ratio) (below : ratio < total)
      (covered : debt ≤ deposits) (large : Amount.limit ≤ debt * Ratio.minimum)

/-- A split that shares a trove out exactly and gives nobody too much. -/
structure Split.Fair (s : Split) (debt collateral price deposits ratio : Nat) : Prop where
  /-- The shares come to the whole trove. -/
  whole : s.Exact debt collateral deposits
  /-- Collateral is spread with debt or not at all. -/
  together : s.debtToSpread = 0 → s.collateralToSpread = 0
  /-- Under the minimum the pool gets at most its part. -/
  proRata : ratio < Ratio.minimum →
    s.collateralToPool * debt ≤ (collateral - s.collateralCompensation) * s.debtToOffset
  /-- From the minimum on the trove gives up at most the minimum ratio of its
  debt; the owner keeps the rest, and the other troves are given nothing. -/
  capped : Ratio.minimum ≤ ratio →
    (collateral - s.surplus) * price ≤ debt * Ratio.minimum ∧
      s.surplus = collateral - (s.collateralCompensation + s.collateralToPool) ∧
      s.debtToSpread = 0 ∧ s.collateralToSpread = 0

section Bands

variable {E : Fault → Prop}

theorem Split.fair_offsetAndSpread (hd : debt ≠ 0) (hb : ratio < Ratio.minimum)
    (hE : deposits ≠ 0 →
      Amount.limit ≤ (collateral - i.collateralOf collateral) * min debt deposits → E .overflow) :
    (offsetAndSpread debt collateral deposits i).Meets
      (fun s => s.Fair debt collateral price deposits ratio) E := by
  refine (meets_offsetAndSpread hd hE).mono (fun s hs h => ?_) fun _ he => he
  exact {
    whole := offsetAndSpread_exact hs
    together := h.2
    proRata := fun _ => h.1
    capped := fun hm => absurd hb (Nat.not_lt.mpr hm) }

theorem Split.fair_spreadAll (hd : debt ≠ 0) (hb : ratio < Ratio.minimum) :
    (spreadAll debt collateral i).Meets
      (fun s => s.Fair debt collateral price deposits ratio) E := by
  refine (meets_spreadAll hd).mono (fun s hs h => ?_) fun _ he => he
  refine ⟨spreadAll_exact hs, fun hz => absurd hz h.2, fun _ => ?_,
    fun hm => absurd hb (Nat.not_lt.mpr hm)⟩
  rw [h.1, Nat.zero_mul]
  exact Nat.zero_le _

theorem Split.fair_offsetAtCap (hd : debt ≠ 0) (hm : Ratio.minimum ≤ collateral * price / debt)
    (hb : ratio = collateral * price / debt) (hc : debt ≤ deposits)
    (hE : Amount.limit ≤ debt * Ratio.minimum → E .overflow) :
    (offsetAtCap debt collateral price i).Meets
      (fun s => s.Fair debt collateral price deposits ratio) E := by
  refine (meets_offsetAtCap hd hm hE).mono (fun s hs h => ?_) fun _ he => he
  have hw := offsetAtCap_exact hc hs
  obtain ⟨hworth, hdebt, hcoll⟩ := h
  refine ⟨hw, fun _ => hcoll, fun hlt => absurd hm (Nat.not_le.mpr (hb ▸ hlt)), fun _ => ?_⟩
  have := hw.collateral
  exact ⟨hworth, by omega, hdebt, hcoll⟩

end Bands

/-- Whether a trove is left alone: its ratio is at least the minimum, and in
recovery it is not under the total, or the deposits do not cover the debt. -/
def Spared (mode : Mode) (debt total deposits ratio : Nat) : Prop :=
  Ratio.minimum ≤ ratio ∧ (mode = .recovery → total ≤ ratio ∨ deposits < debt)

/-- What the split of a trove comes to. -/
def Split.Settles (split : Option Split) (mode : Mode)
    (debt collateral price total deposits : Nat) : Prop :=
  ∃ ratio, Ratio.collateral collateral debt price = .ok ratio ∧
    (split = none ↔ Spared mode debt total deposits ratio) ∧
    ∀ s, split = some s → s.Fair debt collateral price deposits ratio

/-- A trove that is not spared is taken with the split of its band. -/
theorem meets_taken {part : Checked Split} {E : Fault → Prop}
    (hr : Ratio.collateral collateral debt price = .ok ratio)
    (hs : ¬ Spared mode debt total deposits ratio)
    (h : part.Meets (fun s => s.Fair debt collateral price deposits ratio) E) :
    (do return some (← part) : Checked (Option Split)).Meets
      (fun split => Split.Settles split mode debt collateral price total deposits) E := by
  rw [Checked.meets_bind]
  refine h.mono (fun s _ hf => ⟨ratio, hr, ?_, ?_⟩) fun _ he => he
  · simp only [reduceCtorEq, hs]
  · intro s' hs'
    cases hs'
    exact hf

theorem settles_none (hr : Ratio.collateral collateral debt price = .ok ratio)
    (hs : Spared mode debt total deposits ratio) :
    Split.Settles none mode debt collateral price total deposits :=
  ⟨ratio, hr, by simp only [hs], fun _ h => by cases h⟩

/-- Every split is settled, unless a product overflows. -/
theorem meets_split? (ht : total < Amount.limit) :
    (split? mode debt collateral price total deposits i).Meets
      (fun split => Split.Settles split mode debt collateral price total deposits)
      (fun e => e = .overflow ∧ Overflows mode debt collateral price total deposits i) := by
  have hrated : (Ratio.collateral collateral debt price).Meets (fun _ => True)
      (fun e => e = .overflow ∧ Overflows mode debt collateral price total deposits i) := by
    rw [Ratio.collateral]
    split
    · trivial
    · next hd => exact Amount.meets_mulDiv_of hd trivial fun h => ⟨rfl, .worth hd h⟩
  rw [split?, Checked.meets_bind]
  refine hrated.mono (fun ratio hr _ => ?_) fun _ he => he
  have hone : Amount.one < Ratio.minimum := by decide
  have hmin : Ratio.minimum < Ratio.unbounded := by decide
  have hall : Ratio.unbounded = Amount.limit - 1 := rfl
  -- a trove without debt is above the minimum and not under any total
  have hrate := Ratio.collateral_eq_ok.1 hr
  cases mode with
  | normal =>
    by_cases hm : ratio < Ratio.minimum
    · have hd : debt ≠ 0 := by omega
      simp only [if_pos hm]
      refine meets_taken hr (fun h => absurd hm (Nat.not_lt.mpr h.1)) ?_
      exact Split.fair_offsetAndSpread hd hm fun hz h =>
        ⟨rfl, .offset hr hm (fun h => by cases h) hz h⟩
    · simp only [if_neg hm, Checked.meets_pure]
      exact settles_none hr ⟨Nat.le_of_not_lt hm, fun h => by cases h⟩
  | recovery =>
    by_cases ho : ratio < Amount.one
    · have hm : ratio < Ratio.minimum := by omega
      simp only [if_pos ho]
      exact meets_taken hr (fun h => absurd hm (Nat.not_lt.mpr h.1))
        (Split.fair_spreadAll (by omega) hm)
    · by_cases hm : ratio < Ratio.minimum
      · simp only [if_neg ho, if_pos hm]
        refine meets_taken hr (fun h => absurd hm (Nat.not_lt.mpr h.1)) ?_
        exact Split.fair_offsetAndSpread (by omega) hm fun hz h =>
          ⟨rfl, .offset hr hm (fun _ => Nat.le_of_not_lt ho) hz h⟩
      · have hm' := Nat.le_of_not_lt hm
        by_cases hc : ratio < total ∧ debt ≤ deposits
        · obtain ⟨hd, heq⟩ : debt ≠ 0 ∧ ratio = collateral * price / debt := by omega
          simp only [if_neg ho, if_neg hm, if_pos hc]
          refine meets_taken hr (fun h => ?_) ?_
          · have := h.2 rfl
            omega
          · exact Split.fair_offsetAtCap hd (heq ▸ hm') heq hc.2 fun h =>
              ⟨rfl, .cap hr rfl hm' hc.1 hc.2 h⟩
        · simp only [if_neg ho, if_neg hm, if_neg hc, Checked.meets_pure]
          exact settles_none hr ⟨hm', fun _ => by omega⟩

/-- A product that overflows is one the split does make. -/
theorem Overflows.fails (h : Overflows mode debt collateral price total deposits i)
    (ht : total < Amount.limit) {split : Option Split} :
    split? mode debt collateral price total deposits i ≠ .ok split := by
  intro hs
  obtain ⟨ratio, hr, hspared, -⟩ := (meets_split? ht).of_eq_ok hs
  have hone : Amount.one ≤ Ratio.minimum := by decide
  have ruled (h : ¬ Spared mode debt total deposits ratio) :
      ∃ s, Ruled mode debt collateral price total deposits i ratio s := by
    cases split with
    | none => exact absurd (hspared.mp rfl) h
    | some s =>
      obtain ⟨ratio', hr', hruled⟩ := split?_ruled hs
      cases hr.symm.trans hr'
      exact ⟨s, hruled⟩
  cases h with
  | worth hd hl =>
    rw [Ratio.collateral_eq_ok] at hr
    omega
  | offset hr' hm hw hf hl =>
    cases hr.symm.trans hr'
    obtain ⟨s, hs⟩ := ruled fun h => absurd hm (Nat.not_lt.mpr h.1)
    cases hs with
    | offset _ _ hs =>
      simp only [Split.offsetAndSpread, Split.offsetPart, if_neg hf, Checked.bind_eq_ok,
        Amount.sub_eq_ok, Amount.mulDiv_eq_ok] at hs
      obtain ⟨_, ⟨-, rfl⟩, _, ⟨_, ⟨hlt, -⟩, -⟩, -⟩ := hs
      omega
    | spread hrec hlt _ => exact absurd (hw hrec) (Nat.not_le.mpr hlt)
    | capped _ hle _ _ _ => exact absurd hm (Nat.not_lt.mpr hle)
  | cap hr' hrec hm hlt hc hl =>
    cases hr.symm.trans hr'
    obtain ⟨s, hs⟩ := ruled fun h => by
      have := h.2 hrec
      omega
    cases hs with
    | offset hlt' _ _ => omega
    | spread _ hlt' _ => omega
    | capped _ _ _ _ hs =>
      simp only [Split.offsetAtCap, Checked.bind_eq_ok, Amount.mulDiv_eq_ok] at hs
      obtain ⟨_, ⟨hlt, -⟩, -⟩ := hs
      omega

/-- A trove is split, or spared, unless a product overflows; and a split is
fair. -/
theorem split?_fair (ht : total < Amount.limit) :
    ((∃ split, split? mode debt collateral price total deposits i = .ok split) ↔
      ¬ Overflows mode debt collateral price total deposits i) ∧
    ∀ split, split? mode debt collateral price total deposits i = .ok split →
      ∃ ratio, Ratio.collateral collateral debt price = .ok ratio ∧
        (split = none ↔
          Ratio.minimum ≤ ratio ∧ (mode = .recovery → total ≤ ratio ∨ deposits < debt)) ∧
        ∀ s, split = some s → s.Fair debt collateral price deposits ratio := by
  refine ⟨⟨fun ⟨_, hs⟩ ho => ho.fails ht hs, fun ho => ?_⟩, fun split hs => ?_⟩
  · have h : (split? mode debt collateral price total deposits i).Meets _ _ := meets_split? ht
    cases hs : split? mode debt collateral price total deposits i with
    | ok split => exact ⟨split, rfl⟩
    | error e =>
      rw [hs] at h
      exact absurd h.2 ho
  · exact (meets_split? ht).of_eq_ok hs

/-- In recovery a trove at 120% is offset at the cap: the pool gets eleven
units of its collateral less the compensation, and one unit is left over. -/
theorem split?_fair_at_cap :
    13 * Amount.one / 10 < Amount.limit ∧
      ∃ s, split? .recovery (1000 * Amount.one) (12 * Amount.one) (100 * Amount.one)
          (13 * Amount.one / 10) (1000 * Amount.one) {} = .ok (some s) ∧
        s.Fair (1000 * Amount.one) (12 * Amount.one) (100 * Amount.one) (1000 * Amount.one)
          (12 * Amount.one / 10) ∧
        s.collateralToPool + s.collateralCompensation = 11 * Amount.one ∧
        s.surplus = Amount.one := by
  have ht : 13 * Amount.one / 10 < Amount.limit := by decide
  obtain ⟨-, h⟩ := @split?_fair .recovery (1000 * Amount.one) (12 * Amount.one)
    (100 * Amount.one) (13 * Amount.one / 10) (1000 * Amount.one) {} ht
  obtain ⟨ratio, hr, -, hfair⟩ := h (some _) rfl
  cases hr
  exact ⟨ht, _, rfl, hfair _ rfl, by decide +kernel, by decide +kernel⟩

end Liquidation

end Troves
