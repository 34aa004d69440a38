/-
# What deposits are worth

A deposit's worth is what is left of it before anything is rounded, and its
gain is the collateral it has earned before that is rounded.  An offset
shrinks every worth by the same factor and adds to every gain in proportion
to its worth, whatever scales and epochs lie in between; the roundings only
ever take away.

`Absorbed` and `Visited` say what an offset and a visit leave behind.
-/
import Troves.Proofs.Run
import Mathlib.Algebra.Order.BigOperators.Group.Finset
import Mathlib.Algebra.Order.Field.Basic
import Mathlib.Algebra.Order.Field.Rat
import Mathlib.Data.Nat.Cast.Order.Field
import Mathlib.Data.Rat.Cast.Order
import Mathlib.Tactic.FieldSimp
import Mathlib.Tactic.GCongr
import Mathlib.Tactic.Linarith
import Mathlib.Tactic.Positivity
import Mathlib.Tactic.Ring

namespace Troves

theorem Amount.one_pos : (0 : ℚ) < Amount.one := by
  exact_mod_cast (show 0 < Amount.one by decide)

namespace Stability

theorem scaleStep_pos : (0 : ℚ) < scaleStep := by
  exact_mod_cast (show 0 < scaleStep by decide)

namespace Deposit

/-- What is left of a deposit, before rounding. -/
def worth (d : Deposit) (s : ProductSum) : ℚ :=
  if d.amount = 0 ∨ d.product = 0 ∨ d.epoch < s.epoch then 0
  else
    match s.scale - d.scale with
    | 0 => d.amount * s.product / d.product
    | 1 => d.amount * s.product / d.product / scaleStep
    | _ => 0

/-- What a deposit has earned, before rounding. -/
def gain (d : Deposit) (sumHere sumNext : Nat) : ℚ :=
  if d.amount = 0 ∨ d.product = 0 then 0
  else d.amount * ((sumHere - d.sum : ℚ) + sumNext / scaleStep) / d.product / Amount.one

theorem worth_nonneg (d : Deposit) (s : ProductSum) : 0 ≤ d.worth s := by
  rw [worth]
  split
  · exact le_rfl
  · split <;> positivity

/-- What is left of a deposit is its worth rounded down, or nothing. -/
theorem remaining_le_worth {d : Deposit} {s : ProductSum} {left : Nat}
    (h : d.remaining s = .ok left) : (left : ℚ) ≤ d.worth s := by
  rw [remaining] at h
  by_cases hz : d.amount = 0 ∨ d.product = 0 ∨ d.epoch < s.epoch
  · rw [if_pos hz] at h
    cases h
    rw [Nat.cast_zero]
    exact worth_nonneg d s
  · rw [if_neg hz] at h
    simp only [Checked.bind_eq_ok, Checked.pure_eq_ok] at h
    obtain ⟨n, hn, rfl⟩ := h
    have hle : (n : ℚ) ≤ d.worth s := by
      rw [shrunk] at hn
      rw [worth]
      rw [if_neg hz]
      generalize s.scale - d.scale = g at hn ⊢
      rcases g with _ | _ | g
      · obtain ⟨-, -, rfl⟩ := Amount.mulDiv_eq_ok.1 hn
        exact_mod_cast Nat.cast_div_le (α := ℚ)
      · obtain ⟨_, hm, rfl⟩ := Checked.map_eq_ok.1 hn
        obtain ⟨-, -, rfl⟩ := Amount.mulDiv_eq_ok.1 hm
        show (_ : ℚ) ≤ d.amount * s.product / d.product / scaleStep
        refine Nat.cast_div_le.trans ?_
        gcongr
        exact_mod_cast Nat.cast_div_le (α := ℚ)
      · cases hn
        exact (Nat.cast_zero (R := ℚ)).le
    split
    · exact (Nat.cast_zero (R := ℚ)).le.trans (worth_nonneg d s)
    · exact hle

/-- A deposit is worth at most its amount when it is made. -/
theorem worth_self_le {d : Deposit} {s : ProductSum} (hp : d.product = s.product)
    (hs : d.scale = s.scale) : d.worth s ≤ d.amount := by
  rw [worth]
  split
  · positivity
  · next hz =>
    rw [not_or, not_or] at hz
    have hne : (d.product : ℚ) ≠ 0 := by exact_mod_cast hz.2.1
    rw [hs, Nat.sub_self, ← hp]
    show (d.amount * d.product / d.product : ℚ) ≤ d.amount
    rw [mul_div_assoc, div_self hne, mul_one]

theorem gain_nonneg {d : Deposit} {sumHere sumNext : Nat}
    (h : d.amount ≠ 0 → d.sum ≤ sumHere) : 0 ≤ d.gain sumHere sumNext := by
  rw [gain]
  split
  · exact le_rfl
  · next hz =>
    have hd : (0 : ℚ) ≤ sumHere - d.sum :=
      sub_nonneg.2 (by exact_mod_cast h (not_or.1 hz).1)
    positivity

/-- What a deposit is paid is its gain rounded down. -/
theorem earned_le_gain {d : Deposit} {sumHere sumNext n : Nat}
    (h : d.earned sumHere sumNext = .ok n) : (n : ℚ) ≤ d.gain sumHere sumNext := by
  rw [earned] at h
  rw [gain]
  by_cases hz : d.amount = 0 ∨ d.product = 0
  · rw [if_pos hz] at h
    cases h
    rw [if_pos hz, Nat.cast_zero]
  · rw [if_neg hz] at h
    simp only [Checked.bind_eq_ok, Checked.pure_eq_ok, Amount.sub_eq_ok, Amount.add_eq_ok,
      Amount.mulDiv_eq_ok] at h
    obtain ⟨_, ⟨hle, rfl⟩, _, ⟨-, rfl⟩, _, ⟨-, -, rfl⟩, rfl⟩ := h
    rw [if_neg hz]
    refine Nat.cast_div_le.trans ?_
    gcongr
    refine Nat.cast_div_le.trans ?_
    push_cast [Nat.cast_sub hle]
    gcongr
    exact Nat.cast_div_le

end Deposit

/-! ## How the product shrinks -/

/-- The three ways in which a loss per unit can move the product. -/
inductive Shrunk (s : ProductSum) (loss : Nat) (t : ProductSum) : Prop where
  /-- Nothing is left: a new epoch begins. -/
  | emptied (all : loss = Amount.one) (epoch : t.epoch = s.epoch + 1) (scale : t.scale = 0)
  /-- The product would lose precision: a new scale begins. -/
  | rescaled (some : loss < Amount.one) (epoch : t.epoch = s.epoch)
      (scale : t.scale = s.scale + 1)
      (product : t.product = s.product * (Amount.one - loss) * scaleStep / Amount.one)
  | kept (some : loss < Amount.one) (epoch : t.epoch = s.epoch) (scale : t.scale = s.scale)
      (product : t.product = s.product * (Amount.one - loss) / Amount.one)

theorem ProductSum.shrink_ok {s t : ProductSum} {loss : Nat} (h : s.shrink loss = .ok t) :
    Shrunk s loss t ∧ loss ≤ Amount.one ∧ t.gainRemainder = s.gainRemainder ∧
      t.lossRemainder = s.lossRemainder := by
  simp only [shrink, Checked.bind_eq_ok, Amount.sub_eq_ok] at h
  obtain ⟨kept, ⟨hle, rfl⟩, h⟩ := h
  by_cases hk : Amount.one - loss = 0
  · rw [if_pos hk] at h
    simp only [Checked.bind_eq_ok, Checked.pure_eq_ok, Counter.next_eq_ok] at h
    obtain ⟨_, ⟨-, rfl⟩, rfl⟩ := h
    exact ⟨.emptied (by omega) rfl rfl, hle, rfl, rfl⟩
  · rw [if_neg hk] at h
    simp only [Checked.bind_eq_ok, Amount.mul_eq_ok] at h
    obtain ⟨_, ⟨-, rfl⟩, h⟩ := h
    by_cases hs : s.product * (Amount.one - loss) / Amount.one < scaleStep
    · rw [if_pos hs] at h
      simp only [Checked.bind_eq_ok, Checked.pure_eq_ok, Amount.mul_eq_ok,
        Counter.next_eq_ok] at h
      obtain ⟨_, ⟨-, rfl⟩, _, ⟨-, rfl⟩, rfl⟩ := h
      exact ⟨.rescaled (by omega) rfl rfl rfl, hle, rfl, rfl⟩
    · rw [if_neg hs] at h
      cases h
      exact ⟨.kept (by omega) rfl rfl rfl, hle, rfl, rfl⟩

/-- Where a deposit can stand: in no later epoch and scale than the pool. -/
def Deposit.Placed (d : Deposit) (s : ProductSum) : Prop :=
  d.amount ≠ 0 → d.epoch ≤ s.epoch ∧ (d.epoch = s.epoch → d.scale ≤ s.scale)

theorem Deposit.Placed.shrunk {d : Deposit} {s t : ProductSum} {loss : Nat}
    (hd : d.Placed s) (h : Shrunk s loss t) : d.Placed t := by
  intro ha
  obtain ⟨he, hs⟩ := hd ha
  cases h with
  | emptied _ epoch _ => omega
  | rescaled _ epoch scale _ => omega
  | kept _ epoch scale _ => omega

/-- What one unit keeps of itself in a loss, and what rounding makes of it. -/
theorem kept_le {a loss : Nat} (b : Nat) (h : loss ≤ Amount.one) :
    ((a * (Amount.one - loss) * b / Amount.one : ℕ) : ℚ) ≤
      a * (1 - loss / Amount.one) * b := by
  have hne : (Amount.one : ℚ) ≠ 0 := Amount.one_pos.ne'
  refine Nat.cast_div_le.trans (le_of_eq ?_)
  push_cast [Nat.cast_sub h]
  field_simp

/-- A loss shrinks what a deposit is worth by at least its share. -/
theorem Deposit.worth_shrunk {d : Deposit} {s t : ProductSum} {loss : Nat} (hd : d.Placed s)
    (h : Shrunk s loss t) : d.worth t ≤ (1 - loss / Amount.one) * d.worth s := by
  have hne : (Amount.one : ℚ) ≠ 0 := Amount.one_pos.ne'
  have hc := scaleStep_pos
  by_cases hz : d.amount = 0 ∨ d.product = 0 ∨ d.epoch < s.epoch
  · have hz' : d.amount = 0 ∨ d.product = 0 ∨ d.epoch < t.epoch := by
      cases h <;> omega
    rw [worth, worth, if_pos hz, if_pos hz', mul_zero]
  · obtain ⟨ha, hp, he⟩ : d.amount ≠ 0 ∧ d.product ≠ 0 ∧ d.epoch = s.epoch := by
      have := fun ha => (hd ha).1
      omega
    have hs : d.scale ≤ s.scale := (hd ha).2 he
    cases h with
    | emptied all epoch _ =>
      rw [all, div_self hne, sub_self, zero_mul, worth, if_pos (by omega)]
    | rescaled some epoch scale product =>
      have hP : (t.product : ℚ) ≤ s.product * (1 - loss / Amount.one) * scaleStep := by
        rw [product]
        exact kept_le scaleStep some.le
      rw [worth, worth, if_neg (by omega), if_neg hz, scale, Nat.sub_add_comm hs]
      -- a scale more: what was at its own scale is now one scale away
      match s.scale - d.scale with
      | 0 =>
        show (d.amount * t.product / d.product / scaleStep : ℚ) ≤
          _ * (d.amount * s.product / d.product)
        rw [div_le_iff₀ hc]
        calc (d.amount * t.product / d.product : ℚ)
            ≤ d.amount * (s.product * (1 - loss / Amount.one) * scaleStep) / d.product := by gcongr
          _ = _ := by ring
      | 1 =>
        have hl : (0 : ℚ) ≤ 1 - loss / Amount.one :=
          sub_nonneg.2 ((div_le_one Amount.one_pos).2 (by exact_mod_cast some.le))
        show (0 : ℚ) ≤ _ * (d.amount * s.product / d.product / scaleStep)
        positivity
      | n + 2 =>
        show (0 : ℚ) ≤ _ * 0
        rw [mul_zero]
    | kept some epoch scale product =>
      have hP : (t.product : ℚ) ≤ s.product * (1 - loss / Amount.one) := by
        rw [product]
        simpa using kept_le (a := s.product) 1 some.le
      rw [worth, worth, if_neg (by omega), if_neg hz, scale]
      match s.scale - d.scale with
      | 0 =>
        show (d.amount * t.product / d.product : ℚ) ≤ _ * (d.amount * s.product / d.product)
        calc (d.amount * t.product / d.product : ℚ)
            ≤ d.amount * (s.product * (1 - loss / Amount.one)) / d.product := by gcongr
          _ = _ := by ring
      | 1 =>
        show (d.amount * t.product / d.product / scaleStep : ℚ) ≤
          _ * (d.amount * s.product / d.product / scaleStep)
        calc (d.amount * t.product / d.product / scaleStep : ℚ)
            ≤ d.amount * (s.product * (1 - loss / Amount.one)) / d.product / scaleStep := by gcongr
          _ = _ := by ring
      | n + 2 =>
        show (0 : ℚ) ≤ _ * 0
        rw [mul_zero]

/-- When the sum of the present epoch and scale grows, every gain grows in
proportion to what the deposit is worth. -/
theorem Deposit.gain_grown {d : Deposit} {s : ProductSum} {before after : Nat → Nat → Nat}
    {g : Nat} (hd : d.Placed s)
    (h : ∀ e k, after e k =
      if (s.epoch, s.scale) = (e, k) then before s.epoch s.scale + g * s.product
      else before e k) :
    d.gain (after d.epoch d.scale) (after d.epoch (d.scale + 1)) =
      d.gain (before d.epoch d.scale) (before d.epoch (d.scale + 1)) +
        g * d.worth s / Amount.one := by
  have hne : (Amount.one : ℚ) ≠ 0 := Amount.one_pos.ne'
  have hc : (scaleStep : ℚ) ≠ 0 := scaleStep_pos.ne'
  unfold gain
  by_cases hz : d.amount = 0 ∨ d.product = 0
  · rw [if_pos hz, if_pos hz, worth, if_pos (by omega), mul_zero, zero_div, add_zero]
  · rw [if_neg hz, if_neg hz, h, h]
    rw [not_or] at hz
    have hp : (d.product : ℚ) ≠ 0 := by exact_mod_cast hz.2
    obtain ⟨he, hs⟩ := hd hz.1
    rw [worth]
    by_cases hlt : d.epoch < s.epoch
    · rw [if_neg (by simp; omega), if_neg (by simp; omega), if_pos (by omega), mul_zero,
        zero_div, add_zero]
    · have heq : d.epoch = s.epoch := by omega
      have hs := hs heq
      rw [if_neg (by omega : ¬ (d.amount = 0 ∨ d.product = 0 ∨ d.epoch < s.epoch)), heq]
      match hk : s.scale - d.scale with
      | 0 =>
        have hk : s.scale = d.scale := by omega
        rw [if_pos (by rw [hk]), if_neg (by simp [hk]), hk]
        push_cast
        field_simp
        ring
      | 1 =>
        have hk : s.scale = d.scale + 1 := by omega
        rw [if_neg (by simp [hk]), if_pos (by rw [hk]), hk]
        push_cast
        field_simp
        ring
      | n + 2 =>
        rw [if_neg (by simp; omega), if_neg (by simp; omega)]
        show _ = _ + (g : ℚ) * 0 / _
        rw [mul_zero, zero_div, add_zero]

/-! ## Offsets -/

theorem ProductSum.lossRate_ok {carried debt total loss left : Nat} (hle : debt ≤ total)
    (h : lossRate carried debt total = .ok (loss, left)) :
    (debt = total ∧ loss = Amount.one ∧ left = 0) ∨
      (debt < total ∧ loss * total = debt * Amount.one - carried + left ∧ left ≤ total) := by
  rw [lossRate] at h
  by_cases hd : debt = total
  · rw [if_pos hd] at h
    cases h
    exact .inl ⟨hd, rfl, rfl⟩
  · rw [if_neg hd] at h
    simp only [Checked.bind_eq_ok, Checked.pure_eq_ok, Amount.mul_eq_ok, Amount.div_eq_ok,
      Amount.add_eq_ok, Amount.sub_eq_ok, Prod.mk.injEq] at h
    obtain ⟨_, ⟨-, rfl⟩, _, ⟨hz, rfl⟩, _, ⟨-, rfl⟩, _, ⟨-, rfl⟩, _, ⟨hdue, rfl⟩, hmin, rfl⟩ := h
    have hlt : debt < total := by omega
    refine .inr ⟨hlt, ?_, ?_⟩
    · -- less than everything is lost, so the rate needs no clamp
      have hone : (debt * Amount.one - carried) / total + 1 ≤ Amount.one := by
        refine Nat.div_lt_of_lt_mul ?_
        calc debt * Amount.one - carried ≤ debt * Amount.one := Nat.sub_le _ _
          _ < total * Amount.one := Nat.mul_lt_mul_of_pos_right hlt (by decide)
      rw [← hmin, Nat.min_eq_left hone]
      omega
    · have hm := Nat.div_add_mod (debt * Amount.one - carried) total
      rw [Nat.add_mul, Nat.mul_comm _ total]
      omega

theorem ProductSum.rates_ok {s t : ProductSum} {coll debt total : Nat} {r : Rates}
    (h : s.rates coll debt total = .ok (t, r)) :
    (t.product = s.product ∧ t.epoch = s.epoch ∧ t.scale = s.scale) ∧
      coll * Amount.one + s.gainRemainder = r.gain * total + t.gainRemainder ∧
      lossRate s.lossRemainder debt total = .ok (r.loss, t.lossRemainder) := by
  simp only [rates, Checked.bind_eq_ok, Checked.pure_eq_ok, Amount.add_eq_ok,
    Amount.mul_eq_ok, Amount.div_eq_ok, Prod.mk.injEq] at h
  obtain ⟨_, ⟨-, rfl⟩, _, ⟨-, rfl⟩, _, ⟨-, rfl⟩, ⟨loss, left⟩, hrate, rfl, rfl⟩ := h
  refine ⟨⟨rfl, rfl, rfl⟩, ?_, hrate⟩
  dsimp only
  rw [Nat.mul_comm _ total, Nat.div_add_mod]

theorem Shrunk.congr {s s' t : ProductSum} {loss : Nat} (h : Shrunk s loss t)
    (hs : s.product = s'.product ∧ s.epoch = s'.epoch ∧ s.scale = s'.scale) :
    Shrunk s' loss t := by
  obtain ⟨hp, he, hk⟩ := hs
  cases h with
  | emptied all epoch scale => exact .emptied all (he ▸ epoch) scale
  | rescaled some epoch scale product =>
    exact .rescaled some (he ▸ epoch) (hk ▸ scale) (hp ▸ product)
  | kept some epoch scale product =>
    exact .kept some (he ▸ epoch) (hk ▸ scale) (hp ▸ product)

namespace Pool

/-- An offset taken in: the books, the rates, and how the product shrank. -/
structure Absorbed (p : Pool) (debt coll : Nat) (r : Rates) (q : Pool) : Prop where
  total : p.total = q.total + debt
  collateral : q.collateral = p.collateral + coll
  gain : coll * Amount.one + p.state.gainRemainder =
    r.gain * p.total + q.state.gainRemainder
  loss : (debt = p.total ∧ r.loss = Amount.one ∧ q.state.lossRemainder = 0) ∨
    (debt < p.total ∧
      r.loss * p.total = debt * Amount.one - p.state.lossRemainder + q.state.lossRemainder ∧
      q.state.lossRemainder ≤ p.total)
  loss_le : r.loss ≤ Amount.one
  shrunk : Shrunk p.state r.loss q.state
  sums : q.sums = p.sums.set (p.state.epoch, p.state.scale)
    (p.currentSum + r.gain * p.state.product)
  deposits : q.deposits = p.deposits

theorem absorb_ok {p q : Pool} {debt coll : Nat} (h : p.absorb debt coll = .ok q) :
    ∃ carried r, p.state.rates coll debt p.total = .ok (carried, r) ∧
      Absorbed p debt coll r q := by
  simp only [absorb, ProductSum.offset, Checked.bind_eq_ok, Checked.pure_eq_ok,
    Amount.sub_eq_ok, Amount.add_eq_ok, Amount.mul_eq_ok] at h
  obtain ⟨⟨_, _⟩, ⟨⟨carried, r⟩, hr, state, hs, hpair⟩, h⟩ := h
  obtain ⟨rfl, rfl⟩ := Prod.mk.inj hpair
  obtain ⟨_, ⟨-, rfl⟩, _, ⟨-, rfl⟩, _, ⟨hle, rfl⟩, _, ⟨-, rfl⟩, _, ⟨-, rfl⟩, rfl⟩ := h
  obtain ⟨hshrunk, hloss, hg, hl⟩ := ProductSum.shrink_ok hs
  obtain ⟨hsame, hgain, hrate⟩ := ProductSum.rates_ok hr
  refine ⟨carried, r, hr, (Nat.sub_add_cancel hle).symm, rfl, ?_, ?_, hloss,
    hshrunk.congr hsame, rfl, rfl⟩
  · rw [hg]
    exact hgain
  · rw [hl]
    exact ProductSum.lossRate_ok hle hrate

theorem takeOffset_ok {p q : Pool} {debt coll : Nat} (h : p.takeOffset debt coll = .ok q) :
    q = p ∨ p.absorb debt coll = .ok q := by
  rw [takeOffset] at h
  split at h
  · cases h
    exact .inl rfl
  · simp only [Checked.bind_eq_ok] at h
    obtain ⟨_, -, h⟩ := h
    exact .inr h

/-! ## Visits -/

/-- The deposit made of an amount now. -/
def fresh (p : Pool) (amount : Nat) : Deposit :=
  if amount = 0 then {}
  else
    { amount, product := p.state.product, sum := p.currentSum,
      epoch := p.state.epoch, scale := p.state.scale }

/-- A depositor's visit: the gain is paid, and what was left is exchanged for
a new deposit. -/
structure Visited (p : Pool) (a : Address) (gain left amount : Nat) (q : Pool) : Prop where
  paid : p.earned a = .ok gain
  found : p.remaining a = .ok left
  total : q.total + left = p.total + amount
  collateral : p.collateral = q.collateral + gain
  state : q.state = p.state
  sums : q.sums = p.sums
  deposits : q.deposits = p.deposits.set a (p.fresh amount)

theorem payGain_ok {p q : Pool} {gain : Nat} (h : p.payGain gain = .ok q) :
    p.collateral = q.collateral + gain ∧ q = { p with collateral := q.collateral } := by
  rw [payGain] at h
  split at h
  · next hz =>
    cases h
    exact ⟨hz ▸ rfl, rfl⟩
  · simp only [Checked.bind_eq_ok, Checked.pure_eq_ok, Amount.sub_eq_ok] at h
    obtain ⟨_, ⟨hle, rfl⟩, rfl⟩ := h
    exact ⟨(Nat.sub_add_cancel hle).symm, rfl⟩

theorem provide_ok {p q : Pool} {a : Address} {amount : Nat}
    (h : p.provide a amount = .ok q) : ∃ gain left, Visited p a gain left (left + amount) q := by
  simp only [provide, Checked.bind_eq_ok, Amount.add_eq_ok] at h
  obtain ⟨_, -, gain, hg, left, hl, _, ⟨-, rfl⟩, _, -, _, ⟨-, rfl⟩, h⟩ := h
  obtain ⟨hc, hq⟩ := payGain_ok h
  refine ⟨gain, left, hg, hl, ?_, hc, ?_, ?_, ?_⟩
  · rw [hq]
    show p.total + amount + left = _
    omega
  all_goals
    rw [hq]
    rfl

theorem withdraw_ok {p q : Pool} {a : Address} {amount : Nat}
    (h : p.withdraw a amount = .ok q) :
    ∃ gain left, Visited p a gain left (left - min amount left) q := by
  simp only [withdraw, Checked.bind_eq_ok, Amount.sub_eq_ok] at h
  obtain ⟨_, -, gain, hg, left, hl, _, ⟨hle, rfl⟩, h⟩ := h
  obtain ⟨hc, hq⟩ := payGain_ok h
  refine ⟨gain, left, hg, hl, ?_, hc, ?_, ?_, ?_⟩
  · rw [hq]
    show p.total - min amount left + left = _
    omega
  all_goals
    rw [hq]
    rfl

end Pool

end Stability

end Troves
