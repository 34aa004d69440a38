/-
# When an offset goes through

An offset that the deposits cover goes through unless a sum or a product does
not fit.  Which ones those are is listed here, with what is added and what is
multiplied; nothing else in an offset can fail.  The product in particular
never grows beyond one unit, so neither shrinking it nor rescaling it can
overflow.
-/
import Troves.Proofs.Outcomes
import Troves.Proofs.Run
import Troves.Proofs.Worth

namespace Troves

open Liquidation (Split Totals)

namespace Stability

namespace ProductSum

variable {s t : ProductSum} {loss : Nat}

/-! ## The product -/

/-- What a loss per unit makes of the product: a new one if nothing is left,
and otherwise what is kept, enlarged before it is rounded if it would be small. -/
theorem shrink_product_eq (h : s.shrink loss = .ok t) :
    t.product =
      if loss = Amount.one then Amount.one
      else if s.product * (Amount.one - loss) / Amount.one < scaleStep then
        s.product * (Amount.one - loss) * scaleStep / Amount.one
      else s.product * (Amount.one - loss) / Amount.one := by
  simp only [shrink, Checked.bind_eq_ok, Amount.sub_eq_ok] at h
  obtain ⟨kept, ⟨hle, rfl⟩, h⟩ := h
  by_cases hk : Amount.one - loss = 0
  · rw [if_pos hk] at h
    simp only [Checked.bind_eq_ok, Checked.pure_eq_ok] at h
    obtain ⟨_, -, rfl⟩ := h
    rw [if_pos (by omega)]
  · rw [if_neg hk] at h
    simp only [Checked.bind_eq_ok, Amount.mul_eq_ok] at h
    obtain ⟨_, ⟨-, rfl⟩, h⟩ := h
    rw [if_neg (by omega)]
    by_cases hstep : s.product * (Amount.one - loss) / Amount.one < scaleStep
    · rw [if_pos hstep] at h
      simp only [Checked.bind_eq_ok, Checked.pure_eq_ok, Amount.mul_eq_ok] at h
      obtain ⟨_, ⟨-, rfl⟩, _, -, rfl⟩ := h
      rw [if_pos hstep]
    · rw [if_neg hstep] at h
      cases h
      rw [if_neg hstep]

theorem shrink_product (hs : s.product ≤ Amount.one) (h : s.shrink loss = .ok t) :
    t.product ≤ Amount.one := by
  rw [shrink_product_eq h]
  split
  · exact le_rfl
  · split
    · next hstep =>
      have hlt := (Nat.div_lt_iff_lt_mul (by decide)).1 hstep
      refine Nat.div_le_of_le_mul ?_
      calc s.product * (Amount.one - loss) * scaleStep
          ≤ scaleStep * Amount.one * scaleStep := Nat.mul_le_mul_right _ hlt.le
        _ = Amount.one * Amount.one := by decide
    · refine Nat.div_le_of_le_mul ?_
      exact Nat.mul_le_mul hs (Nat.sub_le _ _)

/-- An offset reckons its rates and shrinks the product by the loss. -/
theorem offset_ok {coll debt total : Nat} {r : Rates} (h : s.offset coll debt total = .ok (t, r)) :
    ∃ c : ProductSum, c.product = s.product ∧
      lossRate s.lossRemainder debt total = .ok (r.loss, c.lossRemainder) ∧
      c.shrink r.loss = .ok t := by
  simp only [offset, Checked.bind_eq_ok, Checked.pure_eq_ok] at h
  obtain ⟨⟨c, r'⟩, hr, t', hs, he⟩ := h
  cases he
  obtain ⟨⟨hprod, -, -⟩, -, hrate⟩ := rates_ok hr
  exact ⟨c, hprod, hrate, hs⟩

theorem offset_product {coll debt total : Nat} {r : Rates} (hs : s.product ≤ Amount.one)
    (h : s.offset coll debt total = .ok (t, r)) : t.product ≤ Amount.one := by
  obtain ⟨c, hprod, -, hshrink⟩ := offset_ok h
  exact shrink_product (hprod ▸ hs) hshrink

/-! ## What can overflow -/

variable {remainder debt total coll : Nat}

/-- The loss per unit is never more than a unit, and only its two products can
overflow. -/
theorem lossRate_meets {E : Fault → Prop} {Q : Nat × Nat → Prop} (hd : debt ≤ total)
    (hQ : ∀ p, lossRate remainder debt total = .ok p → p.1 ≤ Amount.one → Q p)
    (due : debt < total → Amount.limit ≤ debt * Amount.one → E .overflow)
    (charged : debt < total →
      Amount.limit ≤ ((debt * Amount.one - remainder) / total + 1) * total → E .overflow) :
    (lossRate remainder debt total).Meets Q E := by
  by_cases he : debt = total
  · have hok : lossRate remainder debt total = .ok (Amount.one, 0) := by
      rw [lossRate, if_pos he]
      rfl
    exact Checked.meets_of_ok hok (hQ _ hok le_rfl)
  · have hlt : debt < total := by omega
    refine Checked.Meets.mono (P := fun p => p.1 ≤ Amount.one) ?_ (fun p hp h => hQ p hp h)
      (fun e (he : E e) => he)
    rw [lossRate, if_neg he]
    have hrate : (debt * Amount.one - remainder) / total < Amount.one := by
      refine Nat.div_lt_of_lt_mul ?_
      calc debt * Amount.one - remainder ≤ debt * Amount.one := Nat.sub_le _ _
        _ < total * Amount.one := Nat.mul_lt_mul_of_pos_right hlt (by decide)
    have hone : (debt * Amount.one - remainder) / total + 1 < Amount.limit :=
      lt_of_le_of_lt hrate (by decide)
    have hround : debt * Amount.one - remainder ≤
        ((debt * Amount.one - remainder) / total + 1) * total := by
      rw [Nat.add_mul, Nat.one_mul]
      exact (Nat.lt_div_mul_add (by omega)).le
    rw [Checked.meets_bind]
    refine Amount.meets_mul_of (fun _ => ?_) (due hlt)
    rw [Checked.meets_bind, Amount.meets_div, if_neg (by omega), Checked.meets_bind,
      Amount.meets_add, if_pos hone, Checked.meets_bind]
    refine Amount.meets_mul_of (fun _ => ?_) (charged hlt)
    rw [Checked.meets_bind, Amount.meets_sub, if_pos hround, Checked.meets_pure]
    exact Nat.min_le_right _ _

/-- Shrinking fails only where the next epoch or the next scale has no
number. -/
theorem shrink_meets {E : Fault → Prop} {Q : ProductSum → Prop} (hs : s.product ≤ Amount.one)
    (hl : loss ≤ Amount.one) (hQ : ∀ t, s.shrink loss = .ok t → Q t)
    (epoch : loss = Amount.one → Counter.limit ≤ s.epoch + 1 → E .counterOverflow)
    (scale : s.product * (Amount.one - loss) / Amount.one < scaleStep →
      Counter.limit ≤ s.scale + 1 → E .counterOverflow) :
    (s.shrink loss).Meets Q E := by
  refine Checked.Meets.mono (P := fun _ => True) ?_ (fun t ht _ => hQ t ht)
    (fun e (he : E e) => he)
  have hshrunk : s.product * (Amount.one - loss) ≤ Amount.one * Amount.one :=
    Nat.mul_le_mul hs (Nat.sub_le _ _)
  have henlarged : s.product * (Amount.one - loss) * scaleStep < Amount.limit :=
    lt_of_le_of_lt (Nat.mul_le_mul_right _ hshrunk) (by decide)
  rw [shrink, Checked.meets_bind, Amount.meets_sub, if_pos hl]
  by_cases hk : Amount.one - loss = 0
  · rw [if_pos hk, Checked.meets_bind]
    exact Counter.meets_next_of trivial (epoch (by omega))
  · rw [if_neg hk, Checked.meets_bind, Amount.meets_mul,
      if_pos (lt_of_le_of_lt hshrunk (by decide))]
    by_cases hstep : s.product * (Amount.one - loss) / Amount.one < scaleStep
    · rw [if_pos hstep, Checked.meets_bind, Amount.meets_mul, if_pos henlarged,
        Checked.meets_bind]
      exact Counter.meets_next_of trivial (scale hstep)
    · rw [if_neg hstep]
      trivial

end ProductSum

namespace Pool

/-- The sums and products of an offset that may not fit: those of its rates,
the sum that grows, the total absorbed, the number of the next epoch and that
of the next scale. -/
inductive Overflows (p : Pool) (debt coll : Nat) : Prop where
  | earned (h : Amount.limit ≤ coll * Amount.one + p.state.gainRemainder)
  | due (part : debt < p.total) (h : Amount.limit ≤ debt * Amount.one)
  | charged (part : debt < p.total) (h : Amount.limit ≤
      ((debt * Amount.one - p.state.lossRemainder) / p.total + 1) * p.total)
  | sum (h : Amount.limit ≤ p.currentSum +
      (coll * Amount.one + p.state.gainRemainder) / p.total * p.state.product)
  | absorbed (h : Amount.limit ≤ p.absorbed + debt)
  | epoch {left : Nat}
      (all : ProductSum.lossRate p.state.lossRemainder debt p.total = .ok (Amount.one, left))
      (h : Counter.limit ≤ p.state.epoch + 1)
  | scale {loss left : Nat}
      (some : ProductSum.lossRate p.state.lossRemainder debt p.total = .ok (loss, left))
      (low : p.state.product * (Amount.one - loss) / Amount.one < scaleStep)
      (h : Counter.limit ≤ p.state.scale + 1)

variable {p q : Pool} {debt coll : Nat}

/-- An offset within the deposits fails only if something overflows. -/
theorem absorb_meets (hp : p.state.product ≤ Amount.one) (hn : p.total ≠ 0)
    (hd : debt ≤ p.total) (hc : p.collateral + coll < Amount.limit) :
    (p.absorb debt coll).Meets (fun _ => True) fun e => p.Overflows debt coll ∧ e.isOverflow := by
  rw [absorb, ProductSum.offset, ProductSum.rates]
  simp only [Checked.meets_bind, Checked.meets_pure]
  refine Amount.meets_mul_of (fun _ => ?_) fun h => ⟨.earned (by omega), trivial⟩
  refine Amount.meets_add_of (fun _ => ?_) fun h => ⟨.earned h, trivial⟩
  rw [Amount.meets_div, if_neg hn]
  refine ProductSum.lossRate_meets hd (fun rate hrate hloss => ?_)
    (fun hlt h => ⟨.due hlt h, trivial⟩) (fun hlt h => ⟨.charged hlt h, trivial⟩)
  obtain ⟨loss, left⟩ := rate
  dsimp only at hloss
  refine ProductSum.shrink_meets hp hloss (fun t _ => ?_)
    (fun (hall : loss = Amount.one) h => ⟨.epoch (hall ▸ hrate) h, trivial⟩)
    (fun hlow h => ⟨.scale hrate hlow h, trivial⟩)
  refine Amount.meets_mul_of (fun _ => ?_) fun h => ⟨.sum (h.trans (Nat.le_add_left _ _)), trivial⟩
  refine Amount.meets_add_of (fun _ => ?_) fun h => ⟨.sum h, trivial⟩
  rw [Amount.meets_sub, if_pos hd, Amount.meets_add, if_pos hc]
  exact Amount.meets_add_of (fun _ => trivial) fun h => ⟨.absorbed h, trivial⟩

/-- What is done to the product by what is taken in. -/
theorem takeOffset_state (h : p.takeOffset debt coll = .ok q) :
    q.state = p.state ∨
      (debt ≠ 0 ∧ debt ≤ p.total ∧ ∃ r, p.state.offset coll debt p.total = .ok (q.state, r)) := by
  rw [takeOffset] at h
  split at h
  · cases h
    exact .inl rfl
  · next hz =>
    simp only [absorb, Checked.bind_eq_ok, Checked.pure_eq_ok, require_eq_ok] at h
    obtain ⟨-, hle, ⟨t, r⟩, ho, _, -, _, -, _, -, _, -, _, -, rfl⟩ := h
    exact .inr ⟨(not_or.1 hz).2, of_decide_eq_true hle, r, ho⟩

theorem takeOffset_product (hp : p.state.product ≤ Amount.one)
    (h : p.takeOffset debt coll = .ok q) : q.state.product ≤ Amount.one := by
  rcases takeOffset_state h with h | ⟨-, -, r, h⟩
  · rw [h]
    exact hp
  · exact ProductSum.offset_product hp h

end Pool

end Stability

/-! ## Runs -/

open Protocol (Sweep)

theorem Protocol.Sweep.product {w w' : World} {price : Nat} {liquidator : Address}
    {t t' : Totals} (h : Sweep price liquidator w t w' t')
    (hp : w.pool.state.product ≤ Amount.one) : w'.pool.state.product ≤ Amount.one := by
  induction h with
  | done => exact hp
  | next _ out _ _ ih => exact ih (Stability.Pool.takeOffset_product hp out.pool)

/-- Only liquidations move the product. -/
theorem Step.pool_state {w w' : World} {t : Turn} {k : Nat} (h : Step w t k w') :
    w'.pool.state = w.pool.state ∨
      ∃ price liquidator feed totals, Sweep price liquidator { w with feed } {} w' totals := by
  cases h with
  | provide h =>
    obtain ⟨gain, left, hv⟩ := Stability.Pool.provide_ok h.pool
    exact .inl hv.state
  | withdraw h =>
    obtain ⟨gain, left, hv⟩ := Stability.Pool.withdraw_ok h.pool
    exact .inl hv.state
  | claim h => exact .inl (by rw [h.rest])
  | borrow h =>
    obtain ⟨d, -, -, hr⟩ := h.rest
    exact .inl (by rw [hr])
  | settle h => exact .inl (by rw [h.rest])
  | liquidate _ h =>
    obtain ⟨d, -, hs⟩ := h.sweep
    exact .inr ⟨_, _, _, _, hs⟩
  | _ => exact .inl rfl

/-- The product never exceeds a unit. -/
theorem Step.product {w w' : World} {t : Turn} {k : Nat} (h : Step w t k w')
    (hp : w.pool.state.product ≤ Amount.one) : w'.pool.state.product ≤ Amount.one := by
  rcases h.pool_state with h | ⟨_, _, _, _, hs⟩
  · rw [h]
    exact hp
  · exact hs.product (by exact hp)

end Troves
