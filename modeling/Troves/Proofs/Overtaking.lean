/-
# When a redistribution keeps the order

A redistribution reaches all listed troves at once and moves none of them on the
list.  Take two troves, the one before the other, with collateral `A` and `B`,
debt `P` and `Q` and stakes `s` and `t`, all amounts before they are rounded.  If
each unit of stake is given collateral `g` and debt `h`, their ratios become

    (A + s g) / (P + s h)    and    (B + t g) / (Q + t h) .

Multiplied out, what has `g h` in it cancels, and what is left to compare is

    A Q + h t A + g s Q      and    B P + h s B + g t P .

So the first can come up to the second in two ways only: it has more collateral
for its stake than the second (`t A` over `s B`), so that the debt weighs less on
it, or less debt (`s Q` over `t P`), so that the collateral does more for it.  The
first trove keeps behind if the lead of the second, `B P` over `A Q`, is more than
that excess when all there is in the system is given to the two, and more than the
rounding to whole units.

Not every redistribution is like that.  Stakes are sized by a baseline that counts
what is parked unassigned, though it belongs to no trove, so a trove opened after
such a baseline gets a smaller stake for its collateral than an earlier one, and
what is spread later falls on them unevenly.
-/
import Troves.Proofs.Bystanders

namespace Troves

open TroveList (InOrder)
open Protocol (Sweep)

/-! ## Comparing ratios -/

/-- Ratios are in order if their products crosswise are. -/
theorem Ratio.collateral_mono {c d c' d' price x y : Nat} (cross : c * d' ≤ c' * d)
    (bounded : d = 0 → d' = 0) (hx : collateral c d price = .ok x)
    (hy : collateral c' d' price = .ok y) : x ≤ y := by
  obtain ⟨-, rfl⟩ | ⟨hd', -, rfl⟩ := collateral_eq_ok.1 hy
  · exact Nat.le_sub_one_of_lt (collateral_lt hx)
  · obtain ⟨hd, -⟩ | ⟨hd, -, rfl⟩ := collateral_eq_ok.1 hx
    · exact absurd (bounded hd) hd'
    · rw [Nat.le_div_iff_mul_le (Nat.pos_of_ne_zero hd')]
      refine Nat.le_of_mul_le_mul_right ?_ (Nat.pos_of_ne_zero hd)
      calc c * price / d * d' * d = c * price / d * d * d' := Nat.mul_right_comm _ _ _
        _ ≤ c * price * d' := Nat.mul_le_mul_right d' (Nat.div_mul_le_self _ _)
        _ = c * d' * price := Nat.mul_right_comm _ _ _
        _ ≤ c' * d * price := Nat.mul_le_mul_right price cross
        _ = c' * price * d := Nat.mul_right_comm _ _ _

/-- A lead of more than both amounts survives the rounding to whole units. -/
theorem Amount.cross_of_lead {c d c' d' : Nat} (lead : c * d' + one * (c' + d) < c' * d) :
    c / one * (d' / one) ≤ c' / one * (d / one) ∧ d / one ≠ 0 := by
  have hone : 0 < one := by decide
  -- a product is above that of its rounded factors by at most the two amounts
  have rounded : c' * d ≤ one * one * (c' / one * (d / one)) + one * (c' + d) := by
    have hc := Nat.div_add_mod c' one
    have hd := Nat.div_add_mod d one
    have hc' := Nat.mod_lt c' hone
    have hd' := Nat.mod_lt d hone
    generalize c' / one = m at hc ⊢
    generalize d / one = n at hd ⊢
    generalize c' % one = r at hc hc'
    generalize d % one = q at hd hd'
    have hr : r * d ≤ one * d := Nat.mul_le_mul_right d hc'.le
    have hq : c' * q ≤ c' * one := Nat.mul_le_mul_left c' hd'.le
    have hm : one * m * q ≤ c' * q := Nat.mul_le_mul_right q (by omega)
    calc c' * d = one * m * (one * n) + one * m * q + r * d := by rw [← hc, ← hd]; ring
      _ ≤ one * m * (one * n) + c' * one + one * d := by omega
      _ = one * one * (m * n) + one * (c' + d) := by ring
  refine ⟨?_, fun hz => ?_⟩
  · have hfloor : one * one * (c / one * (d' / one)) ≤ c * d' :=
      calc one * one * (c / one * (d' / one)) = one * (c / one) * (one * (d' / one)) := by ring
        _ ≤ c * d' := Nat.mul_le_mul (Nat.mul_div_le c one) (Nat.mul_div_le d' one)
    refine Nat.le_of_mul_le_mul_left ?_ (Nat.mul_pos hone hone)
    omega
  · rw [hz, Nat.mul_zero, Nat.mul_zero] at rounded
    omega

/-- Two positions after the indices have grown.  The lead before covers what the
growth takes from it: the excess of the first position, given all there is. -/
theorem Accrual.lead_grown {a b p q s t g h coll debt : Nat}
    (hg : (s + t) * g ≤ Amount.one * coll) (hh : (s + t) * h ≤ Amount.one * debt)
    (hb : b + t * g ≤ Amount.one * coll) (hp : p + s * h ≤ Amount.one * debt)
    (lead : (s + t) * (a * q + Amount.one * Amount.one * (coll + debt)) +
      Amount.one * (debt * (t * a - s * b) + coll * (s * q - t * p)) < (s + t) * (b * p)) :
    (a + s * g) * (q + t * h) + Amount.one * (b + t * g + (p + s * h)) <
      (b + t * g) * (p + s * h) := by
  have hdebt : t * a ≤ s * b + (t * a - s * b) := by omega
  have hcoll : s * q ≤ t * p + (s * q - t * p) := by omega
  generalize t * a - s * b = x at lead hdebt
  generalize s * q - t * p = y at lead hcoll
  generalize Amount.one = one at *
  have hround : one * (b + t * g + (p + s * h)) ≤ one * one * (coll + debt) := by
    calc one * (b + t * g + (p + s * h)) ≤ one * (one * coll + one * debt) :=
          Nat.mul_le_mul_left one (Nat.add_le_add hb hp)
      _ = one * one * (coll + debt) := by ring
  have hspread : (s + t) * (h * x + g * y) ≤ one * (debt * x + coll * y) := by
    calc (s + t) * (h * x + g * y) = (s + t) * h * x + (s + t) * g * y := by ring
      _ ≤ one * debt * x + one * coll * y :=
          Nat.add_le_add (Nat.mul_le_mul_right x hh) (Nat.mul_le_mul_right y hg)
      _ = one * (debt * x + coll * y) := by ring
  have hlead : a * q + one * one * (coll + debt) + (h * x + g * y) < b * p := by
    refine Nat.lt_of_mul_lt_mul_left (a := s + t) ?_
    rw [Nat.mul_add]
    omega
  have hx : h * (t * a) ≤ h * (s * b) + h * x := by
    rw [← Nat.mul_add]
    exact Nat.mul_le_mul_left h hdebt
  have hy : g * (s * q) ≤ g * (t * p) + g * y := by
    rw [← Nat.mul_add]
    exact Nat.mul_le_mul_left g hcoll
  calc (a + s * g) * (q + t * h) + one * (b + t * g + (p + s * h))
      = a * q + h * (t * a) + g * (s * q) + s * g * (t * h) +
          one * (b + t * g + (p + s * h)) := by ring
    _ < b * p + h * (s * b) + g * (t * p) + s * g * (t * h) := by omega
    _ = (b + t * g) * (p + s * h) := by ring

namespace Ledger

variable {l l' : Ledger} {a b : Address} {x : Part} {m n : Nat}

/-! ## Positions to the fraction -/

/-- An owner's position before it is rounded: what the trove records and what is
due to it, in parts of which `10 ^ 18` make a unit. -/
def fine (l : Ledger) (a : Address) (x : Part) : Nat :=
  Amount.one * (l.trove a).toHolding.part x + l.due a x

/-- All that the ledger keeps for troves, open or parked. -/
def whole (l : Ledger) (x : Part) : Nat := l.activePool.part x + l.defaultPool.part x

theorem nominalRatio_fine {r : Nat} (ha : l.isActive a = true) (hr : l.nominalRatio a = .ok r) :
    Ratio.nominal (l.fine a .collateral / Amount.one) (l.fine a .debt / Amount.one) = .ok r := by
  have hone : 0 < Amount.one := by decide
  rw [fine, fine, Nat.mul_add_div hone, Nat.mul_add_div hone]
  exact nominalRatio_ok ha hr

/-- Beside kept records a position grows by its stake's part of the growth. -/
theorem Retains.fine_eq (h : l.Retains l' a) (mark : (l.mark a).part x ≤ l.index.part x)
    (grown : l.index.part x ≤ l'.index.part x) :
    l'.fine a x = l.fine a x + (l.trove a).stake * (l'.index.part x - l.index.part x) := by
  obtain ⟨slot, hs⟩ := h.trove
  have hgrowth : l'.growth a x = l.growth a x + (l'.index.part x - l.index.part x) := by
    rw [growth, growth, h.mark]
    omega
  rw [fine, fine, due, due, hgrowth, hs, Nat.mul_add, ← Nat.add_assoc]

/-- What is due to two troves is in the default pool. -/
theorem Balanced.due_add_le (h : l.Balanced n) (ha : l.isActive a = true)
    (hb : l.isActive b = true) (hab : a ≠ b) :
    l.due a x + l.due b x ≤ Amount.one * l.defaultPool.part x := by
  obtain ⟨stranded, -, hpool⟩ := h.pool x
  have hsub : {a, b} ⊆ l.openTroves := by
    intro c hc
    rcases Finset.mem_insert.1 hc with rfl | hc
    · exact mem_openTroves.2 ha
    · rw [Finset.mem_singleton.1 hc]
      exact mem_openTroves.2 hb
  have hle := Finset.sum_le_sum_of_subset (f := fun c => l.due c x) hsub
  rw [Finset.sum_pair hab] at hle
  omega

/-- A position is part of the whole. -/
theorem Balanced.fine_le (h : l.Balanced n) (tallied : l.Tallied) (ha : l.isActive a = true) :
    l.fine a x ≤ Amount.one * l.whole x := by
  obtain ⟨stranded, -, hpool⟩ := h.pool x
  have hdue := Finset.single_le_sum (f := fun c => l.due c x) (fun _ _ => Nat.zero_le _)
    (mem_openTroves.2 ha)
  have hrecord := Nat.mul_le_mul_left Amount.one (tallied.trove_le ha x)
  rw [fine, whole, Nat.mul_add]
  omega

/-! ## Two troves -/

/-- What the first of two positions has more for its stake than the second. -/
def excess (l : Ledger) (a b : Address) (x : Part) : Nat :=
  (l.trove b).stake * l.fine a x - (l.trove a).stake * l.fine b x

/-- The second of two positions is ahead of the first by more than the roundings
and by more than the excess of the first could come to, were all there is given to
the two.  All terms are taken times both stakes. -/
def Ahead (l : Ledger) (a b : Address) : Prop :=
  let stakes := (l.trove a).stake + (l.trove b).stake
  stakes * (l.fine a .collateral * l.fine b .debt +
      Amount.one * Amount.one * (l.whole .collateral + l.whole .debt)) +
    Amount.one * (l.whole .debt * l.excess a b .collateral +
      l.whole .collateral * l.excess b a .debt) <
    stakes * (l.fine b .collateral * l.fine a .debt)

instance (l : Ledger) (a b : Address) : Decidable (l.Ahead a b) := Nat.decLt _ _

/-- Two troves that no redistribution puts out of order: with equal stakes the
first has no more collateral and no less debt, or the second is ahead by more than
can be made up for. -/
inductive Keeps (l : Ledger) (a b : Address) : Prop where
  | level (stakes : (l.trove a).stake = (l.trove b).stake)
      (collateral : l.fine a .collateral ≤ l.fine b .collateral)
      (debt : l.fine b .debt ≤ l.fine a .debt)
  | ahead (lead : l.Ahead a b)

theorem keeps_iff : l.Keeps a b ↔
    ((l.trove a).stake = (l.trove b).stake ∧ l.fine a .collateral ≤ l.fine b .collateral ∧
      l.fine b .debt ≤ l.fine a .debt) ∨ l.Ahead a b := by
  constructor
  · rintro (⟨hs, hc, hd⟩ | lead)
    · exact .inl ⟨hs, hc, hd⟩
    · exact .inr lead
  · rintro (⟨hs, hc, hd⟩ | lead)
    · exact .level hs hc hd
    · exact .ahead lead

instance (l : Ledger) (a b : Address) : Decidable (l.Keeps a b) := decidable_of_iff' _ keeps_iff

/-- With stakes in proportion to collateral the lead has to cover the roundings
alone. -/
theorem Ahead.of_proportional (positive : 0 < (l.trove a).stake + (l.trove b).stake)
    (proportional : (l.trove b).stake * l.fine a .collateral =
      (l.trove a).stake * l.fine b .collateral)
    (lead : l.fine a .collateral * l.fine b .debt +
      Amount.one * Amount.one * (l.whole .collateral + l.whole .debt) <
        l.fine b .collateral * l.fine a .debt) : l.Ahead a b := by
  have hcoll : l.excess a b .collateral = 0 := by
    rw [excess, proportional, Nat.sub_self]
  have hdebt : l.excess b a .debt = 0 := by
    refine Nat.sub_eq_zero_of_le (Nat.le_of_mul_le_mul_right ?_
      (Nat.pos_of_ne_zero (n := l.fine b .collateral) fun hz => ?_))
    · calc (l.trove a).stake * l.fine b .debt * l.fine b .collateral
          = (l.trove b).stake * (l.fine a .collateral * l.fine b .debt) := by
            rw [Nat.mul_right_comm, ← proportional, Nat.mul_assoc]
        _ ≤ (l.trove b).stake * (l.fine b .collateral * l.fine a .debt) :=
            Nat.mul_le_mul_left _ (by omega)
        _ = (l.trove b).stake * l.fine a .debt * l.fine b .collateral := by
            rw [Nat.mul_comm (l.fine b .collateral), Nat.mul_assoc]
    · rw [hz, Nat.zero_mul] at lead
      exact absurd lead (Nat.not_lt_zero _)
  rw [Ahead, hcoll, hdebt, Nat.mul_zero, Nat.mul_zero, Nat.add_zero, Nat.mul_zero, Nat.add_zero]
  exact Nat.mul_lt_mul_of_pos_left lead positive

/-! ## What liquidations do to two troves -/

/-- How some liquidations leave the ledger: whoever is still open keeps the
records, the index has not fallen, and the whole has not grown. -/
structure Thinned (l l' : Ledger) : Prop where
  retains : ∀ a, l'.isActive a = true → l.isActive a = true ∧ l.Retains l' a
  grown : ∀ x, l.index.part x ≤ l'.index.part x
  whole : ∀ x, l'.whole x ≤ l.whole x

theorem Thinned.fine_eq (h : l.Thinned l') (before : l.Balanced m) (ha : l'.isActive a = true)
    (x : Part) :
    l'.fine a x = l.fine a x + (l.trove a).stake * (l'.index.part x - l.index.part x) := by
  obtain ⟨hopen, hr⟩ := h.retains a ha
  exact hr.fine_eq (before.marks a x hopen) (h.grown x)

/-- What both stakes are given is in the system. -/
theorem Thinned.given_le (h : l.Thinned l') (before : l.Balanced m) (after : l'.Balanced n)
    (ha : l'.isActive a = true) (hb : l'.isActive b = true) (hab : a ≠ b) (x : Part) :
    ((l.trove a).stake + (l.trove b).stake) * (l'.index.part x - l.index.part x) ≤
      Amount.one * l.whole x := by
  have given {c : Address} (hc : l'.isActive c = true) :
      (l.trove c).stake * (l'.index.part x - l.index.part x) ≤ l'.due c x := by
    obtain ⟨hopen, hr⟩ := h.retains c hc
    obtain ⟨slot, hs⟩ := hr.trove
    have hmark := before.marks c x hopen
    rw [due, growth, hs, hr.mark]
    exact Nat.mul_le_mul_left _ (by omega)
  have hdue := after.due_add_le (x := x) ha hb hab
  have hwhole := Nat.mul_le_mul_left Amount.one (h.whole x)
  have hpool : Amount.one * l'.defaultPool.part x ≤ Amount.one * l'.whole x :=
    Nat.mul_le_mul_left _ (Nat.le_add_left _ _)
  rw [Nat.add_mul]
  have ha := given ha
  have hb := given hb
  omega

/-- Two troves that keep their order by their stakes and positions before some
liquidations are in order after them, whatever is spread. -/
theorem Thinned.inOrder (h : l.Thinned l') (before : l.Balanced m) (after : l'.Balanced n)
    (tallied : l'.Tallied) (ha : l'.isActive a = true) (hb : l'.isActive b = true)
    (hab : a ≠ b) (keeps : l.Keeps a b) : InOrder l'.nominalRatio a b := by
  intro r r' hr hr'
  have grows := fun x => h.fine_eq before ha x
  have grows' := fun x => h.fine_eq before hb x
  have hr := nominalRatio_fine ha hr
  have hr' := nominalRatio_fine hb hr'
  cases keeps with
  | level stakes collateral debt =>
    have hcoll : l'.fine a .collateral ≤ l'.fine b .collateral := by
      rw [grows, grows', stakes]
      exact Nat.add_le_add_right collateral _
    have hdebt : l'.fine b .debt ≤ l'.fine a .debt := by
      rw [grows, grows', stakes]
      exact Nat.add_le_add_right debt _
    have hcoll := Nat.div_le_div_right (c := Amount.one) hcoll
    have hdebt := Nat.div_le_div_right (c := Amount.one) hdebt
    refine Ratio.collateral_mono (Nat.mul_le_mul hcoll hdebt) (fun hz => ?_) hr hr'
    exact Nat.le_zero.1 (hz ▸ hdebt)
  | ahead lead =>
    have bound {c : Address} (hc : l'.isActive c = true) (x : Part) :
        l'.fine c x ≤ Amount.one * l.whole x :=
      (after.fine_le tallied hc).trans (Nat.mul_le_mul_left _ (h.whole x))
    have hcoll := bound hb .collateral
    have hdebt := bound ha .debt
    rw [grows'] at hcoll
    rw [grows] at hdebt
    have lead := Accrual.lead_grown (h.given_le before after ha hb hab .collateral)
      (h.given_le before after ha hb hab .debt) hcoll hdebt lead
    rw [← grows, ← grows, ← grows', ← grows'] at lead
    obtain ⟨cross, hne⟩ := Amount.cross_of_lead lead
    exact Ratio.collateral_mono cross (fun hz => absurd hz hne) hr hr'

/-! ## Stakes before the first liquidation -/

/-- As long as there is no baseline, the stake of an open trove is its collateral,
and nothing is due to it. -/
def Unscaled (l : Ledger) : Prop :=
  l.baseline = {} → ∀ a, l.isActive a = true →
    (l.trove a).stake = (l.trove a).collateral ∧ ∀ x, l.due a x = 0

theorem Unscaled.enroll {holding : Holding} (h : l.Unscaled) (he : Enrolled l a holding l') :
    l'.Unscaled := by
  intro hbase b hb
  have hi : l'.index = l.index := by rw [he.kept]
  have hbase : l.baseline = {} := by
    rw [← hbase, he.kept]
  by_cases hab : b = a
  · subst hab
    refine ⟨?_, due_of_mark (he.mark.trans hi.symm)⟩
    have hstake := he.stakeFor
    rw [hbase] at hstake
    have hcoll : (l'.trove b).collateral = holding.collateral := by rw [he.opened]
    exact (Except.ok.inj hstake).symm.trans hcoll.symm
  · rw [he.isActive, if_neg hab] at hb
    obtain ⟨hstake, hdue⟩ := h hbase b hb
    rw [he.others b hab]
    refine ⟨hstake, fun x => ?_⟩
    rw [due, growth, he.others b hab, he.marks b hab, hi]
    exact hdue x

theorem Unscaled.settle {s : Accrual.Settlement} (h : l.Unscaled) (hb : l.isActive b = true)
    (hs : l.settlement b = .ok s) (ht : SettledIn l b s l') : l'.Unscaled := by
  intro hbase a ha
  have hi : l'.index = l.index := by rw [ht.kept]
  have hbase : l.baseline = {} := by
    rw [← hbase, ht.kept]
  rw [ht.isActive hb hs] at ha
  obtain ⟨hstake, hdue⟩ := h hbase a ha
  by_cases hab : a = b
  · subst hab
    refine ⟨?_, due_of_mark (ht.mark.trans hi.symm)⟩
    obtain ⟨hpend, -, hadd, htrove⟩ := settlement_ok hb hs
    have hcoll : s.trove.collateral = (l.trove a).collateral + s.applied.collateral :=
      Holding.part_add hadd .collateral
    have hnone : s.applied.collateral = 0 := by
      have hpart := pending_ok hb hpend .collateral
      rwa [hdue, Nat.zero_div] at hpart
    rw [ht.trove, hcoll, hnone, htrove]
    exact hstake
  · rw [ht.others a hab]
    refine ⟨hstake, fun x => ?_⟩
    rw [due, growth, ht.others a hab, ht.marks a hab, hi]
    exact hdue x

/-- A liquidation takes a baseline; it is empty only if nothing is left. -/
theorem Balanced.unscaled (h : l.Balanced n) (tallied : l.Tallied)
    (hbase : l.baseline = { stakes := l.totalStakes, collateral := l.held }) : l.Unscaled := by
  intro hempty a ha
  rw [hempty] at hbase
  obtain ⟨hstakes, hheld⟩ := Accrual.Baseline.mk.inj hbase
  have hstake : (l.trove a).stake = 0 := by
    have hle := h.stake_le ha
    omega
  have hcoll : (l.trove a).collateral = 0 := by
    have hle : (l.trove a).collateral ≤ l.activePool.collateral := tallied.trove_le ha .collateral
    rw [held] at hheld
    omega
  refine ⟨hstake.trans hcoll.symm, fun x => ?_⟩
  rw [due, hstake, Nat.zero_mul]

/-- Two troves whose ratios are apart by the roundings keep their order when stakes
are still collateral. -/
theorem Unscaled.keeps (h : l.Unscaled) (hbase : l.baseline = {}) (ha : l.isActive a = true)
    (hb : l.isActive b = true)
    (apart : (l.trove a).collateral * (l.trove b).debt + (l.whole .collateral + l.whole .debt) <
      (l.trove b).collateral * (l.trove a).debt) : l.Keeps a b := by
  have hfine {c : Address} (hc : l.isActive c = true) (x : Part) :
      l.fine c x = Amount.one * (l.trove c).toHolding.part x := by
    rw [fine, (h hbase c hc).2 x, Nat.add_zero]
  have hone : 0 < Amount.one := by decide
  have hpos : 0 < (l.trove b).collateral := by
    refine Nat.pos_of_ne_zero fun hz => ?_
    rw [hz, Nat.zero_mul] at apart
    exact absurd apart (Nat.not_lt_zero _)
  refine .ahead (.of_proportional ?_ ?_ ?_)
  · rw [(h hbase b hb).1]
    omega
  · rw [hfine ha, hfine hb, (h hbase a ha).1, (h hbase b hb).1]
    show _ * (_ * (l.trove a).collateral) = _ * (_ * (l.trove b).collateral)
    ring
  · rw [hfine ha, hfine hb, hfine ha, hfine hb]
    have hlead := Nat.mul_lt_mul_of_pos_left apart (Nat.mul_pos hone hone)
    calc _ = Amount.one * Amount.one * ((l.trove a).collateral * (l.trove b).debt +
          (l.whole .collateral + l.whole .debt)) := by simp only [Holding.part]; ring
      _ < _ := hlead
      _ = _ := by simp only [Holding.part]; ring

end Ledger

/-! ## Calls and turns -/

theorem Protocol.Sweep.thinned {w w' : World} {price : Nat} {liquidator : Address}
    {t t' : Liquidation.Totals} (h : Sweep price liquidator w t w' t') :
    w.ledger.Thinned w'.ledger := by
  refine ⟨fun _ => h.retains, h.index_le, fun x => ?_⟩
  induction h with
  | done => exact le_rfl
  | next _ out _ _ ih =>
    obtain ⟨hactive, hdefault⟩ := Ledger.liquidate_pools out.ledger x
    refine ih.trans ?_
    rw [Ledger.whole, Ledger.whole]
    omega

/-- Only liquidations move the index. -/
theorem Step.thinned {w w' : World} {t : Turn} {k : Nat} (h : Step w t k w')
    (moved : w.ledger.index ≠ w'.ledger.index) : w.ledger.Thinned w'.ledger := by
  cases h.onLedger with
  | kept hk => exact absurd (by rw [hk]) moved
  | opened ho =>
    obtain ⟨l, he, pool, -, hl, -⟩ := ho.enrolled
    rw [hl] at moved
    refine absurd ?_ moved
    show _ = l.index
    rw [(Ledger.enroll_ok he).kept]
  | settled hd => exact absurd (by rw [hd.booked.kept]) moved
  | cleared hc =>
    obtain ⟨d, -, hs⟩ := hc.sweep
    exact hs.thinned

theorem Step.unscaled {w w' : World} {t : Turn} {k : Nat} (h : Step w t k w')
    (sound : w'.Sound) (hu : w.ledger.Unscaled) : w'.ledger.Unscaled := by
  cases h.onLedger with
  | kept hk =>
    rw [hk]
    exact hu
  | opened ho =>
    obtain ⟨l, he, pool, -, hl, -⟩ := ho.enrolled
    rw [hl]
    have hu := hu.enroll (Ledger.enroll_ok he)
    exact hu
  | settled hd => exact hu.settle hd.active hd.settlement hd.booked
  | cleared hc =>
    obtain ⟨d, -, hs⟩ := hc.sweep
    obtain ⟨n, balanced⟩ := sound.balanced
    rcases hs.baseline with ⟨-, hnone⟩ | hbase
    · exact absurd (congrArg Liquidation.Totals.troves hnone) hc.some
    · exact balanced.unscaled sound.tallied hbase

namespace World

variable {w w' : World} {t : Turn} {k : Nat}

/-- A turn that moves the index leaves two troves in order that keep theirs. -/
theorem Sound.inOrder (sound : w.Sound) (sound' : w'.Sound) (h : Step w t k w')
    (moved : w.ledger.index ≠ w'.ledger.index) {a b : Address} (hab : a ≠ b)
    (ha : w'.ledger.isActive a = true) (hb : w'.ledger.isActive b = true)
    (keeps : w.ledger.Keeps a b) : InOrder w'.ledger.nominalRatio a b := by
  obtain ⟨m, before⟩ := sound.balanced
  obtain ⟨n, after⟩ := sound'.balanced
  exact (h.thinned moved).inOrder before after sound'.tallied ha hb hab keeps

/-- A turn leaves the list in order if it was, and if all troves left on it keep
their order when the index moves. -/
theorem Sound.ascending (sound : w.Sound) (sound' : w'.Sound) (h : Step w t k w')
    (ordered : w.list.Ascending w.ledger.nominalRatio)
    (keeps : w.ledger.index ≠ w'.ledger.index →
      (w'.list.forward w'.list.size).Pairwise w.ledger.Keeps) :
    w'.list.Ascending w'.ledger.nominalRatio := by
  obtain ⟨xs, hx⟩ := sound.threaded
  obtain ⟨xs', hx'⟩ := sound'.threaded
  by_cases moved : w.ledger.index = w'.ledger.index
  · exact (h.relisted hx).ascending moved.symm ordered
  · have keeps := keeps moved
    rw [hx'.holds.forward, hx'.holds.size, List.take_length] at keeps
    refine hx'.ascending_iff.2 ((keeps.and hx'.holds.nodup).imp_of_mem ?_)
    rintro a b ha hb ⟨hk, hab⟩
    exact sound.inOrder sound' h moved hab ((hx'.listed a).1 ha) ((hx'.listed b).1 hb) hk

end World

/-! ## Runs -/

/-- Whether the list of troves stays in order.

In every state a walk from the head meets the open troves and nobody else.  A call
that moves the index leaves any two troves in order that keep theirs by their
stakes and positions before the call, however much is spread; as long as nothing
was liquidated these are all whose ratios are apart by the roundings.  So the walk
meets the troves in ascending order of their ratios, pending rewards included, in
all states of a run in which each call that moves the index finds the troves that
it leaves on the list to keep their order: no opening, whatever its hint, no
settlement and no liquidation that spreads nothing can break it. -/
theorem Deployment.list_ascending_of_keeps {d : Deployment}
    {incentive? : Option Liquidation.Incentive} {o : Outcome Unit}
    (start : d.start (some { incentive? }) = .ok o) {ts : List Turn}
    (outside : ∀ t ∈ ts, t.outside) :
    (∀ us, us <+: ts → let w := o.world.after us
      (∀ a, a ∈ w.list.forward w.list.size ↔ w.ledger.isActive a = true) ∧
      (w.ledger.baseline = {} → ∀ a b,
        w.ledger.isActive a = true → w.ledger.isActive b = true →
          (w.ledger.trove a).collateral * (w.ledger.trove b).debt +
            (w.ledger.whole .collateral + w.ledger.whole .debt) <
              (w.ledger.trove b).collateral * (w.ledger.trove a).debt →
          w.ledger.Keeps a b)) ∧
    (∀ us t, us ++ [t] <+: ts →
      let w := o.world.after us
      let w' := o.world.after (us ++ [t])
      w.ledger.index ≠ w'.ledger.index → ∀ a b, a ≠ b →
        w'.ledger.isActive a = true → w'.ledger.isActive b = true →
          w.ledger.Keeps a b → InOrder w'.ledger.nominalRatio a b) ∧
    ((∀ us t, us ++ [t] <+: ts →
        let w := o.world.after us
        let w' := o.world.after (us ++ [t])
        w.ledger.index ≠ w'.ledger.index →
          (w'.list.forward w'.list.size).Pairwise w.ledger.Keeps) →
      ∀ us, us <+: ts → let w := o.world.after us
        w.list.Ascending w.ledger.nominalRatio) := by
  have hr := Deployment.start_ready start
  have sound {us : List Turn} (hu : us <+: ts) : (o.world.after us).Sound :=
    hr.sound_after fun t ht => outside t (hu.subset ht)
  have head {us : List Turn} {t : Turn} (hu : us ++ [t] <+: ts) : us <+: ts :=
    (List.prefix_append us [t]).trans hu
  -- what the last of some turns does
  have last {us : List Turn} {t : Turn} (hu : us ++ [t] <+: ts) :
      ∃ k, Step (o.world.after us) t k (o.world.after (us ++ [t])) := by
    rw [World.after_append]
    exact ⟨_, Turn.step (sound (head hu)).wired (outside t (hu.subset (by simp)))⟩
  have unscaled {us : List Turn} (hu : us <+: ts) : (o.world.after us).ledger.Unscaled := by
    induction us using List.reverseRecOn with
    | nil =>
      obtain ⟨i, hi⟩ := hr.ledger
      show o.world.ledger.Unscaled
      rw [hi]
      intro _ a ha
      exact absurd ha Bool.false_ne_true
    | append_singleton us t ih =>
      obtain ⟨k, hstep⟩ := last hu
      exact hstep.unscaled (sound hu) (ih (head hu))
  refine ⟨fun us hu => ⟨?_, ?_⟩, ?_, fun keeps us => ?_⟩
  · obtain ⟨xs, hx⟩ := (sound hu).threaded
    exact hx.mem_forward
  · intro hbase a b ha hb apart
    exact (unscaled hu).keeps hbase ha hb apart
  · intro us t hu w w' moved a b hab ha hb keeps
    obtain ⟨k, hstep⟩ := last hu
    exact (sound (head hu)).inOrder (sound hu) hstep moved hab ha hb keeps
  · induction us using List.reverseRecOn with
    | nil => exact fun _ => hr.threaded.ascending_iff.2 .nil
    | append_singleton us t ih =>
      intro hu
      obtain ⟨k, hstep⟩ := last hu
      exact (sound (head hu)).ascending (sound hu) hstep (ih (head hu)) (keeps us t hu)

/-- Two of five troves are liquidated while the pool is empty.  The first is spread
over two others that were opened before it, the second over these and over one that
was opened in between, at the baseline that the first one left. -/
def Deployment.spreadTwice : List Turn :=
  Turn.opening (.account 1) (30 * Amount.one) (2800 * Amount.one) ++
  Turn.opening (.account 2) (20 * Amount.one) (1300 * Amount.one) ++
  Turn.opening (.account 3) (10 * Amount.one) (1000 * Amount.one) ++
  [.pricing 13000000000, .call (.account 9) (.liquidateOne (.account 3)),
   .pricing 20000000000] ++
  Turn.opening (.account 4) (10 * Amount.one) (800 * Amount.one) ++
  Turn.opening (.account 5) (6 * Amount.one) (500 * Amount.one) ++
  [.pricing 12600000000, .call (.account 9) (.liquidateOne (.account 5)),
   .call (.account 4) (.settleRewards (.account 4))]

/-- Each of the two liquidations gives something to the troves that are left, and
each finds them to keep their order. -/
theorem Deployment.list_ascending_spreadTwice :
    ∃ o, plain.start (some { incentive? := none }) = .ok o ∧ (∀ t ∈ spreadTwice, t.outside) ∧
      (∀ us t, us ++ [t] <+: spreadTwice →
        let w := o.world.after us
        let w' := o.world.after (us ++ [t])
        w.ledger.index ≠ w'.ledger.index →
          (w'.list.forward w'.list.size).Pairwise w.ledger.Keeps) ∧
      (∀ us, us <+: spreadTwice → let w := o.world.after us
        w.list.Ascending w.ledger.nominalRatio) ∧
      let w := o.world.after spreadTwice
      w.ledger.index = ⟨301330664760543245, 35998570407433881343⟩ ∧
        w.list.forward 3 = [.account 1, .account 4, .account 2] := by
  obtain ⟨o, ho, hk, hi, hf⟩ : ∃ o, plain.start (some { incentive? := none }) = .ok o ∧
      (∀ n ∈ List.range spreadTwice.length,
        let w := o.world.after (spreadTwice.take n)
        let w' := o.world.after (spreadTwice.take (n + 1))
        w.ledger.index ≠ w'.ledger.index →
          (w'.list.forward w'.list.size).Pairwise w.ledger.Keeps) ∧
      let w := o.world.after spreadTwice
      w.ledger.index = ⟨301330664760543245, 35998570407433881343⟩ ∧
        w.list.forward 3 = [.account 1, .account 4, .account 2] :=
    Checked.exists_ok (by decide +kernel)
  have hout : ∀ t ∈ spreadTwice, t.outside := by decide +kernel
  have keeps : ∀ us t, us ++ [t] <+: spreadTwice →
      let w := o.world.after us
      let w' := o.world.after (us ++ [t])
      w.ledger.index ≠ w'.ledger.index →
        (w'.list.forward w'.list.size).Pairwise w.ledger.Keeps := by
    intro us t hu
    have hlt : us.length < spreadTwice.length := by
      have hle := hu.length_le
      rw [List.length_append, List.length_singleton] at hle
      omega
    have hk := hk us.length (List.mem_range.2 hlt)
    have hsnoc := List.prefix_iff_eq_take.1 hu
    rw [List.length_append, List.length_singleton] at hsnoc
    rw [← hsnoc, ← List.prefix_iff_eq_take.1 ((List.prefix_append us [t]).trans hu)] at hk
    exact hk
  exact ⟨o, ho, hout, keeps, (list_ascending_of_keeps ho hout).2.2 keeps, hi, hf⟩

/-- A trove is liquidated while no other is open, so that it is parked, and an
offset takes the baseline.  Of two troves with the same collateral, one opened
before and one after, the later has the smaller stake; it owes more and comes
first in the list.  Then a last liquidation is spread over both. -/
def Deployment.overtaken : List Turn :=
  Turn.opening (.account 1) (10 * Amount.one) (1000 * Amount.one) ++
  [.pricing 10000000000, .call (.account 9) (.liquidateOne (.account 1)),
   .pricing 20000000000] ++
  Turn.opening (.account 2) (100 * Amount.one) (5000 * Amount.one) ++
  Turn.opening (.account 3) Amount.one (100 * Amount.one) ++
  [.call (.account 2) (.provide (100 * Amount.one)), .pricing 10500000000,
   .call (.account 9) (.liquidateOne (.account 3)), .pricing 20000000000] ++
  Turn.opening (.account 4) (100 * Amount.one) (5001 * Amount.one) ++
  Turn.opening (.account 5) Amount.one (100 * Amount.one) ++
  [.pricing 10500000000, .call (.account 9) (.liquidateOne (.account 5))]

/-- The last liquidation is spread unevenly, and the first trove of the list
overtakes the second. -/
theorem Deployment.list_unordered_overtaken :
    ∃ o, plain.start (some { incentive? := some { debtCompensation := 0 } }) = .ok o ∧
      (∀ t ∈ overtaken, t.outside) ∧
      let w := o.world.after overtaken
      w.list.forward 2 = [.account 4, .account 2] ∧
        w.ledger.nominalRatio (.account 4) = .ok 1904332990117460520 ∧
        w.ledger.nominalRatio (.account 2) = .ok 1896173021154100769 ∧
        ¬ w.list.Ascending w.ledger.nominalRatio := by
  obtain ⟨o, ho, hf, h₁, h₂⟩ : ∃ o,
      plain.start (some { incentive? := some { debtCompensation := 0 } }) = .ok o ∧
      let w := o.world.after overtaken
      w.list.forward 2 = [.account 4, .account 2] ∧
        w.ledger.nominalRatio (.account 4) = .ok 1904332990117460520 ∧
        w.ledger.nominalRatio (.account 2) = .ok 1896173021154100769 :=
    Checked.exists_ok (by decide +kernel)
  refine ⟨o, ho, by decide +kernel, hf, h₁, h₂, ?_⟩
  intro ha
  have hp := ha 2
  rw [hf, List.pairwise_pair] at hp
  exact absurd (hp _ _ h₁ h₂) (by decide)

end Troves
