/-
# What the divisions of offsets leave over

An offset is reckoned per unit deposited.  Collateral is rounded down, and what
is left over is handed out with the next offset.  Debt is rounded up, and what
was charged too much is taken off the next offset.

| the offset | charges per unit | leaves over |
| :-- | :-- | :-- |
| cancels as much as is deposited | one unit | nothing |
| owes more than was charged too much | the next amount above its share | the difference |
| owes no more than that | the least amount there is | all that it charges |

The deposits differ from one offset to the next, but what is left over is not
per unit: it is carried whole.  So the gains add up to what was handed over,
exactly.  The losses add up to what was cancelled or more, since the first and
the last kind of offset drop what was charged too much before.
-/
import Troves.Proofs.Product

namespace Troves

namespace Stability

namespace ProductSum

/-- Reckons the rates of some offsets, one after the other. -/
def ratesAll (s : ProductSum) : List Offset → Checked (ProductSum × List Rates)
  | [] => return (s, [])
  | o :: os => do
    let (t, r) ← s.rates o.collateral o.debt o.total
    let (u, rs) ← t.ratesAll os
    return (u, r :: rs)

/-- The sums and products of an offset's rates that may not fit. -/
inductive RatesOverflow (s : ProductSum) (o : Offset) : Prop where
  | earned (h : Amount.limit ≤ o.collateral * Amount.one + s.gainRemainder)
  | due (part : o.debt < o.total) (h : Amount.limit ≤ o.debt * Amount.one)
  | charged (part : o.debt < o.total) (h : Amount.limit ≤
      ((o.debt * Amount.one - s.lossRemainder) / o.total + 1) * o.total)

variable {s t u : ProductSum} {o : Offset} {os us : List Offset} {r : Rates} {rs : List Rates}

/-! ## One offset -/

/-- The deposits are gone before a unit has lost more than itself, and no
offset is for free. -/
theorem lossRate_bounds {remainder debt total loss left : Nat} (hd : debt ≤ total)
    (h : lossRate remainder debt total = .ok (loss, left)) : 1 ≤ loss ∧ loss ≤ Amount.one := by
  constructor
  · rw [lossRate] at h
    split at h
    · cases h
      decide
    · simp only [Checked.bind_eq_ok, Checked.pure_eq_ok, Amount.add_eq_ok, Prod.mk.injEq] at h
      obtain ⟨_, -, _, -, _, ⟨-, rfl⟩, _, -, _, -, rfl, -⟩ := h
      exact Nat.le_min.2 ⟨Nat.le_add_left _ _, by decide⟩
  · have hmeets : (lossRate remainder debt total).Meets (fun p => p.1 ≤ Amount.one)
        fun _ => True :=
      lossRate_meets hd (fun _ _ hp => hp) (fun _ _ => trivial) (fun _ _ => trivial)
    exact hmeets.of_eq_ok h

/-- What is left over of the debt is carried against the next offset, dropped
where all is lost, and otherwise never more than the deposits. -/
theorem lossRate_charged {carried debt total loss left : Nat} (hd : debt ≤ total)
    (h : lossRate carried debt total = .ok (loss, left)) :
    Amount.one * debt + left ≤ loss * total + carried ∧ left ≤ total := by
  rcases lossRate_ok hd h with ⟨rfl, rfl, rfl⟩ | ⟨-, hloss, hleft⟩
  · -- all is lost, and what was carried is forgotten
    exact ⟨Nat.le_add_right _ _, Nat.zero_le _⟩
  · -- the numerator stops at zero if more was carried than is due
    rw [Nat.mul_comm Amount.one]
    omega

theorem rates_gainRemainder (h : s.rates o.collateral o.debt o.total = .ok (t, r)) :
    t.gainRemainder < o.total := by
  simp only [rates, Checked.bind_eq_ok, Checked.pure_eq_ok, Prod.mk.injEq] at h
  obtain ⟨_, -, _, -, _, -, _, -, rfl, -⟩ := h
  exact Nat.mod_lt _ (o.pos.trans_le o.covered)

/-- The rates of an offset that the deposits cover are reckoned unless a sum or
a product does not fit. -/
theorem rates_goes_through_iff :
    (∃ p, s.rates o.collateral o.debt o.total = .ok p) ↔ ¬ s.RatesOverflow o := by
  constructor
  · rintro ⟨⟨t, r⟩, h⟩ hover
    simp only [rates, Checked.bind_eq_ok, Amount.mul_eq_ok, Amount.add_eq_ok] at h
    obtain ⟨_, ⟨-, rfl⟩, _, ⟨hearned, -⟩, _, -, _, hrate, -⟩ := h
    have hpart (part : o.debt < o.total) : o.debt * Amount.one < Amount.limit ∧
        ((o.debt * Amount.one - s.lossRemainder) / o.total + 1) * o.total < Amount.limit := by
      rw [lossRate, if_neg part.ne] at hrate
      simp only [Checked.bind_eq_ok, Amount.mul_eq_ok, Amount.div_eq_ok, Amount.add_eq_ok] at hrate
      obtain ⟨_, ⟨hdue, rfl⟩, _, ⟨-, rfl⟩, _, ⟨-, rfl⟩, _, ⟨hcharged, -⟩, -⟩ := hrate
      exact ⟨hdue, hcharged⟩
    cases hover with
    | earned h => omega
    | due part h => exact absurd h (Nat.not_le.2 (hpart part).1)
    | charged part h => exact absurd h (Nat.not_le.2 (hpart part).2)
  · intro hfits
    have hpos : o.total ≠ 0 := (o.pos.trans_le o.covered).ne'
    have hmeets : (s.rates o.collateral o.debt o.total).Meets (fun _ => True)
        fun _ => s.RatesOverflow o := by
      rw [rates]
      simp only [Checked.meets_bind, Checked.meets_pure]
      refine Amount.meets_mul_of (fun _ => ?_) fun h => .earned (by omega)
      refine Amount.meets_add_of (fun _ => ?_) fun h => .earned h
      rw [Amount.meets_div, if_neg hpos]
      exact lossRate_meets o.covered (fun _ _ _ => trivial) .due .charged
    obtain ⟨p, hp, -⟩ := (hmeets.mono (fun _ _ h => h) (fun _ h => hfits h)).goes_through
    exact ⟨p, hp⟩

/-! ## Some offsets -/

theorem ratesAll_cons {p : ProductSum × List Rates} :
    s.ratesAll (o :: os) = .ok p ↔
      ∃ t r u rs, s.rates o.collateral o.debt o.total = .ok (t, r) ∧
        t.ratesAll os = .ok (u, rs) ∧ (u, r :: rs) = p := by
  simp only [ratesAll, Checked.bind_eq_ok, Checked.pure_eq_ok, Prod.exists]
  grind

/-- The rates of some offsets are reckoned exactly if none of the offsets
overflows in the state that those before it lead to. -/
theorem ratesAll_goes_through_iff :
    (∃ p, s.ratesAll os = .ok p) ↔
      ∀ us o m rs, us ++ [o] <+: os → s.ratesAll us = .ok (m, rs) → ¬ m.RatesOverflow o := by
  induction os generalizing s with
  | nil => simp [ratesAll]
  | cons o os ih =>
    constructor
    · rintro ⟨p, hp⟩ us o' m rs hpre hm
      obtain ⟨t, r, u, rs', hr, hrest, -⟩ := ratesAll_cons.1 hp
      cases us with
      | nil =>
        cases hm
        obtain ⟨rfl, -⟩ := List.cons_prefix_cons.1 hpre
        exact rates_goes_through_iff.1 ⟨_, hr⟩
      | cons v us =>
        obtain ⟨rfl, hpre'⟩ := List.cons_prefix_cons.1 hpre
        obtain ⟨t', r', m', rs'', hr', hm', he⟩ := ratesAll_cons.1 hm
        -- both runs take the first offset alike
        cases hr.symm.trans hr'
        cases he
        exact ih.1 ⟨_, hrest⟩ us o' _ _ hpre' hm'
    · intro hfits
      obtain ⟨⟨t, r⟩, hr⟩ :=
        rates_goes_through_iff.2 (hfits [] o s [] (List.prefix_append [o] os) rfl)
      obtain ⟨⟨u, rs⟩, hrest⟩ := (ih (s := t)).2 fun us o' m rs hpre hm =>
        hfits (o :: us) o' m (r :: rs) (List.cons_prefix_cons.2 ⟨rfl, hpre⟩)
          (ratesAll_cons.2 ⟨t, r, m, rs, hr, hm, rfl⟩)
      exact ⟨_, ratesAll_cons.2 ⟨t, r, u, rs, hr, hrest, rfl⟩⟩

theorem ratesAll_length (h : s.ratesAll os = .ok (t, rs)) : rs.length = os.length := by
  induction os generalizing s rs with
  | nil =>
    cases h
    rfl
  | cons o os ih =>
    obtain ⟨m, r, _, rs', -, hrest, he⟩ := ratesAll_cons.1 h
    cases he
    exact congrArg Nat.succ (ih hrest)

/-- The gains of some offsets, with what is left over in the end, are what was
handed over for them and what was left over before. -/
theorem ratesAll_gained (h : s.ratesAll os = .ok (t, rs)) :
    (List.zipWith (fun o r => r.gain * o.total) os rs).sum + t.gainRemainder =
      Amount.one * (os.map Offset.collateral).sum + s.gainRemainder := by
  induction os generalizing s rs with
  | nil =>
    cases h
    rfl
  | cons o os ih =>
    obtain ⟨m, r, _, rs', hr, hrest, he⟩ := ratesAll_cons.1 h
    cases he
    obtain ⟨-, hgain, -⟩ := rates_ok hr
    have hih := ih hrest
    rw [List.zipWith_cons_cons, List.sum_cons, List.map_cons, List.sum_cons, Nat.mul_add,
      Nat.mul_comm Amount.one o.collateral]
    omega

/-- The losses of some offsets, with what was charged too much before, are at
least what they cancelled and what is charged too much in the end. -/
theorem ratesAll_lost (h : s.ratesAll os = .ok (t, rs)) :
    Amount.one * (os.map Offset.debt).sum + t.lossRemainder ≤
      (List.zipWith (fun o r => r.loss * o.total) os rs).sum + s.lossRemainder := by
  induction os generalizing s rs with
  | nil =>
    cases h
    exact le_rfl
  | cons o os ih =>
    obtain ⟨m, r, _, rs', hr, hrest, he⟩ := ratesAll_cons.1 h
    cases he
    obtain ⟨-, -, hrate⟩ := rates_ok hr
    obtain ⟨hcharged, -⟩ := lossRate_charged o.covered hrate
    have hih := ih hrest
    rw [List.zipWith_cons_cons, List.sum_cons, List.map_cons, List.sum_cons, Nat.mul_add]
    omega

/-- What is left over is the last offset's affair. -/
theorem ratesAll_remainders (h : s.ratesAll os = .ok (t, rs)) {o : Offset}
    (ho : os.getLast? = some o) : t.gainRemainder < o.total ∧ t.lossRemainder ≤ o.total := by
  induction os generalizing s rs with
  | nil => cases ho
  | cons v os ih =>
    obtain ⟨m, r, _, rs', hr, hrest, he⟩ := ratesAll_cons.1 h
    cases he
    cases os with
    | nil =>
      cases ho
      cases hrest
      obtain ⟨-, -, hrate⟩ := rates_ok hr
      exact ⟨rates_gainRemainder hr, (lossRate_charged v.covered hrate).2⟩
    | cons v' os => exact ih hrest (by rwa [List.getLast?_cons_cons] at ho)

theorem ratesAll_bounds (h : s.ratesAll os = .ok (t, rs)) (hr : r ∈ rs) :
    1 ≤ r.loss ∧ r.loss ≤ Amount.one := by
  induction os generalizing s rs with
  | nil =>
    cases h
    cases hr
  | cons o os ih =>
    obtain ⟨m, r', _, rs', hr', hrest, he⟩ := ratesAll_cons.1 h
    cases he
    rcases List.mem_cons.1 hr with rfl | hr
    · obtain ⟨-, -, hrate⟩ := rates_ok hr'
      exact lossRate_bounds o.covered hrate
    · exact ih hrest hr

/-- The rates depend on what is carried only, not on the product. -/
theorem rates_congr (hg : s.gainRemainder = u.gainRemainder)
    (hl : s.lossRemainder = u.lossRemainder)
    (h : s.rates o.collateral o.debt o.total = .ok (t, r)) :
    u.rates o.collateral o.debt o.total =
      .ok ({ u with gainRemainder := t.gainRemainder, lossRemainder := t.lossRemainder }, r) := by
  rw [rates, ← hg, ← hl]
  simp only [rates, Checked.bind_eq_ok, Checked.pure_eq_ok, Prod.mk.injEq] at h ⊢
  obtain ⟨a, ha, b, hb, c, hc, d, hd, rfl, rfl⟩ := h
  exact ⟨a, ha, b, hb, c, hc, d, hd, rfl, rfl⟩

/-- A loss leaves what is carried alone. -/
theorem shrink_remainders {loss : Nat} (h : s.shrink loss = .ok t) :
    t.gainRemainder = s.gainRemainder ∧ t.lossRemainder = s.lossRemainder := by
  simp only [shrink, Checked.bind_eq_ok] at h
  obtain ⟨kept, -, h⟩ := h
  split at h
  · simp only [Checked.bind_eq_ok, Checked.pure_eq_ok] at h
    obtain ⟨_, -, rfl⟩ := h
    exact ⟨rfl, rfl⟩
  · simp only [Checked.bind_eq_ok] at h
    obtain ⟨_, -, h⟩ := h
    split at h
    · simp only [Checked.bind_eq_ok, Checked.pure_eq_ok] at h
      obtain ⟨_, -, _, -, rfl⟩ := h
      exact ⟨rfl, rfl⟩
    · cases h
      exact ⟨rfl, rfl⟩

/-- What is carried after some offsets is the same whether or not the product is
shrunk in between. -/
theorem takeAll_remainders (hg : s.gainRemainder = u.gainRemainder)
    (hl : s.lossRemainder = u.lossRemainder) (h : s.takeAll os = .ok t) :
    ∃ v rs, u.ratesAll os = .ok (v, rs) ∧
      t.gainRemainder = v.gainRemainder ∧ t.lossRemainder = v.lossRemainder := by
  induction os generalizing s u with
  | nil =>
    cases h
    exact ⟨u, [], rfl, hg, hl⟩
  | cons o os ih =>
    obtain ⟨m, r, ho, hrest⟩ := takeAll_cons.1 h
    simp only [offset, Checked.bind_eq_ok, Checked.pure_eq_ok] at ho
    obtain ⟨⟨c, r'⟩, hr, m', hshrink, he⟩ := ho
    cases he
    obtain ⟨hg', hl'⟩ := shrink_remainders hshrink
    have hu := rates_congr hg hl hr
    obtain ⟨v, rs, hv, hcarried⟩ :=
      ih (u := { u with gainRemainder := c.gainRemainder, lossRemainder := c.lossRemainder })
        hg' hl' hrest
    exact ⟨v, r' :: rs, ratesAll_cons.2 ⟨_, _, _, _, hu, hv, rfl⟩, hcarried⟩

/-- What offsets leave over is accounted for.

The rates of some offsets are reckoned from the start exactly if no sum or
product of theirs overflows.  Then what the deposits gain, with what is left
over of the collateral, is all that was handed over; and what they lose is at
least all the debt that was cancelled and what is left over of it.  Of either
there is left over at most what the last offset found deposited.  Each loss is
something and at most all of a unit, so shrinking a product by it fails only
where the next epoch or scale has no number.  All of this is said of what the
pool carries as well, though it shrinks its product after each offset. -/
theorem remainders_accounted (os : List Offset) :
    ((∃ p, ratesAll {} os = .ok p) ↔
      ∀ us o m rs, us ++ [o] <+: os → ratesAll {} us = .ok (m, rs) → ¬ m.RatesOverflow o) ∧
    (∀ s rs, ratesAll {} os = .ok (s, rs) →
      rs.length = os.length ∧
      (List.zipWith (fun o r => r.gain * o.total) os rs).sum + s.gainRemainder =
        Amount.one * (os.map Offset.collateral).sum ∧
      Amount.one * (os.map Offset.debt).sum + s.lossRemainder ≤
        (List.zipWith (fun o r => r.loss * o.total) os rs).sum ∧
      (∀ o, os.getLast? = some o → s.gainRemainder < o.total ∧ s.lossRemainder ≤ o.total) ∧
      ∀ r ∈ rs, 1 ≤ r.loss ∧ r.loss ≤ Amount.one ∧ ∀ m : ProductSum, m.product ≤ Amount.one →
        (m.shrink r.loss).Meets (fun t => t.product ≤ Amount.one) (· = .counterOverflow)) ∧
    ∀ t, takeAll {} os = .ok t → ∃ s rs, ratesAll {} os = .ok (s, rs) ∧
      t.gainRemainder = s.gainRemainder ∧ t.lossRemainder = s.lossRemainder := by
  refine ⟨ratesAll_goes_through_iff, ?_, fun t => takeAll_remainders rfl rfl⟩
  intro s rs h
  refine ⟨ratesAll_length h, ratesAll_gained h, ratesAll_lost h,
    fun o => ratesAll_remainders h, ?_⟩
  intro r hr
  obtain ⟨hpos, hle⟩ := ratesAll_bounds h hr
  refine ⟨hpos, hle, ?_⟩
  intro m hm
  exact shrink_meets hm hle (fun t => shrink_product hm) (fun _ _ => rfl) (fun _ _ => rfl)

/-- Four offsets: one of almost nothing, one that owes less than was charged too
much, one of everything, and one of a third. -/
def fourOffsets : List Offset :=
  [⟨1, 1, 10 ^ 30, by decide, by decide⟩, ⟨2, 1, 10, by decide, by decide⟩,
    ⟨5, 7, 7, by decide, by decide⟩, ⟨2, 1, 3, by decide, by decide⟩]

/-- The second offset is charged the least amount, the third drops what was left
over of the debt, and what is left over of the collateral passes through them all. -/
theorem remainders_accounted_four_offsets :
    ∃ s rs, ratesAll {} fourOffsets = .ok (s, rs) ∧
      rs.map Rates.loss = [1, 1, Amount.one, 333333333333333334] ∧
      rs.map Rates.gain =
        [0, 300000000000000000, 714285714285714285, 666666666666666668] ∧
      (s.gainRemainder, s.lossRemainder) = (1, 2) ∧
      (List.zipWith (fun o r => r.gain * o.total) fourOffsets rs).sum + s.gainRemainder =
        Amount.one * 10 ∧
      Amount.one * 10 + s.lossRemainder ≤
        (List.zipWith (fun o r => r.loss * o.total) fourOffsets rs).sum := by
  obtain ⟨⟨s, rs⟩, h, hloss, hgain, hleft⟩ : ∃ p, ratesAll {} fourOffsets = .ok p ∧
      p.2.map Rates.loss = [1, 1, Amount.one, 333333333333333334] ∧
      p.2.map Rates.gain =
        [0, 300000000000000000, 714285714285714285, 666666666666666668] ∧
      (p.1.gainRemainder, p.1.lossRemainder) = (1, 2) := Checked.exists_ok (by decide +kernel)
  obtain ⟨-, hcount, -⟩ := remainders_accounted fourOffsets
  obtain ⟨-, hgained, hlost, -⟩ := hcount s rs h
  exact ⟨s, rs, h, hloss, hgain, hleft, hgained, hlost⟩

end ProductSum

end Stability

end Troves
