/-
# When an epoch begins

An epoch ends when an offset empties the pool, and the deposits made in it are
gone with what they were made of.  What ends it is not that the pool is empty,
though, but that the loss comes to a whole unit for each unit deposited, and
the loss is rounded up.  An offset that leaves very little of a large pool ends
the epoch as well, and everybody's deposit is gone while the pool still holds
what was left.

| what an offset leaves of the pool | the epoch | earlier deposits |
| :-- | :-- | :-- |
| nothing | ends | gone |
| no more than rounding the loss up takes | ends | gone |
| more than that | goes on | shrunk |

`ProductSum.Strands` is the second line.  It takes a pool of a whole unit at
least, of which no more than `10 ^ -18` is left; what earlier offsets carry makes
it only harder.
-/
import Troves.Proofs.Positions
import Troves.Proofs.Product

namespace Troves

namespace Stability

namespace Offset

/-- How many of some offsets leave nothing of the pool. -/
def emptyings (os : List Offset) : Nat := os.countP fun o => o.debt = o.total

theorem emptyings_append (us os : List Offset) :
    emptyings (us ++ os) = emptyings us + emptyings os := List.countP_append

theorem emptyings_singleton (o : Offset) :
    emptyings [o] = if o.debt = o.total then 1 else 0 := by
  simp [emptyings, List.countP_singleton]

end Offset

namespace ProductSum

/-- Whether an offset leaves something of the pool, but no more than rounding
the loss up takes. -/
def Strands (s : ProductSum) (o : Offset) : Prop :=
  o.debt < o.total ∧ Amount.one * (o.total - o.debt) + s.lossRemainder ≤ o.total

instance (s : ProductSum) (o : Offset) : Decidable (s.Strands o) := by
  unfold Strands
  infer_instance

/-- One state is the first of the epoch after another's. -/
structure Renews (s t : ProductSum) : Prop where
  epoch : t.epoch = s.epoch + 1
  scale : t.scale = 0
  product : t.product = Amount.one

variable {s t : ProductSum} {o : Offset} {os : List Offset} {r : Rates}

/-! ## One offset -/

/-- Only of a pool of a whole unit can so little be left that it is stranded. -/
theorem Strands.one_le (h : s.Strands o) : Amount.one ≤ o.total := by
  obtain ⟨hlt, hle⟩ := h
  calc Amount.one = Amount.one * 1 := (Nat.mul_one _).symm
    _ ≤ Amount.one * (o.total - o.debt) := Nat.mul_le_mul_left _ (by omega)
    _ ≤ o.total := by omega

/-- The loss that leaves something of the pool comes to a whole unit exactly if
what is left, with what is carried, is no more than a unit's worth of rounding. -/
theorem lossRate_eq_one_iff {remainder debt total loss left : Nat} (hd : debt < total)
    (h : lossRate remainder debt total = .ok (loss, left)) :
    loss = Amount.one ↔ Amount.one * (total - debt) + remainder ≤ total := by
  rw [lossRate, if_neg hd.ne] at h
  simp only [Checked.bind_eq_ok, Checked.pure_eq_ok, Amount.mul_eq_ok, Amount.div_eq_ok,
    Amount.add_eq_ok, Prod.mk.injEq] at h
  obtain ⟨_, ⟨-, rfl⟩, _, ⟨-, rfl⟩, _, ⟨-, rfl⟩, _, -, _, -, rfl, -⟩ := h
  have hfull : min ((debt * Amount.one - remainder) / total + 1) Amount.one = Amount.one ↔
      Amount.one - 1 ≤ (debt * Amount.one - remainder) / total := by
    have hpos : 0 < Amount.one := by decide
    omega
  have hone : (Amount.one - 1) * total + total = Amount.one * total := by
    rw [← Nat.succ_mul]
    rfl
  have hdebt : Amount.one * debt ≤ Amount.one * total := Nat.mul_le_mul_left _ hd.le
  rw [hfull, Nat.le_div_iff_mul_le (by omega), Nat.mul_sub, Nat.mul_comm debt]
  have hpos : 0 < (Amount.one - 1) * total := Nat.mul_pos (by decide) (by omega)
  constructor
  · intro hle
    omega
  · intro hle
    omega

/-- What becomes of the epoch at an offset. -/
theorem offset_epoch (h : s.offset o.collateral o.debt o.total = .ok (t, r)) :
    if o.debt = o.total ∨ s.Strands o then s.Renews t else t.epoch = s.epoch := by
  simp only [offset, Checked.bind_eq_ok, Checked.pure_eq_ok, Prod.mk.injEq] at h
  obtain ⟨⟨c, r'⟩, hr, t', hs, rfl, rfl⟩ := h
  obtain ⟨hsame, -, hrate⟩ := rates_ok hr
  have hshrunk : Shrunk s r'.loss t' := (shrink_ok hs).1.congr hsame
  have hunit : r'.loss = Amount.one ↔ o.debt = o.total ∨ s.Strands o := by
    by_cases hall : o.debt = o.total
    · rw [lossRate, if_pos hall] at hrate
      have hloss : r'.loss = Amount.one := (Prod.mk.inj (Except.ok.inj hrate)).1.symm
      simp [hall, hloss]
    · have hlt : o.debt < o.total := lt_of_le_of_ne o.covered hall
      rw [lossRate_eq_one_iff hlt hrate, Strands]
      simp [hall, hlt]
  simp only [← hunit]
  split
  · next hloss =>
    have hproduct : t'.product = Amount.one := by rw [shrink_product_eq hs, if_pos hloss]
    cases hshrunk with
    | emptied _ epoch scale => exact ⟨epoch, scale, hproduct⟩
    | rescaled some _ _ _ => omega
    | kept some _ _ _ => omega
  · next hloss =>
    cases hshrunk with
    | emptied all _ _ => exact absurd all hloss
    | rescaled _ epoch _ _ => exact epoch
    | kept _ epoch _ _ => exact epoch

/-! ## Some offsets -/

/-- Of some offsets taken in one after the other, each that leaves nothing of
the pool begins an epoch, and the epochs are no more than these exactly if none
of the offsets strands what it leaves. -/
theorem takeAll_epoch (h : s.takeAll os = .ok t) :
    s.epoch + Offset.emptyings os ≤ t.epoch ∧
      (t.epoch = s.epoch + Offset.emptyings os ↔
        ∀ us o m, us ++ [o] <+: os → s.takeAll us = .ok m → ¬ m.Strands o) := by
  induction os using List.reverseRecOn generalizing t with
  | nil =>
    cases h
    simp [Offset.emptyings]
  | append_singleton os u ih =>
    obtain ⟨m, hm, hu⟩ := takeAll_append.1 h
    obtain ⟨_, r, hu, hnil⟩ := takeAll_cons.1 hu
    cases hnil
    obtain ⟨hle, hiff⟩ := ih hm
    -- the last offset is judged by the state the others lead to
    have hlast : (∀ us o m, us ++ [o] <+: os ++ [u] → s.takeAll us = .ok m → ¬ m.Strands o) ↔
        (∀ us o m, us ++ [o] <+: os → s.takeAll us = .ok m → ¬ m.Strands o) ∧
          ¬ m.Strands u := by
      constructor
      · intro hall
        exact ⟨fun us o m' hpre => hall us o m' (hpre.trans (List.prefix_append _ _)),
          hall os u m List.prefix_rfl hm⟩
      · rintro ⟨hall, hu⟩ us o m' hpre hm'
        rcases List.prefix_concat_iff.1 hpre with heq | hpre
        · obtain ⟨rfl, hlast⟩ := List.append_inj' heq rfl
          obtain rfl := List.singleton_inj.1 hlast
          obtain rfl := Except.ok.inj (hm.symm.trans hm')
          exact hu
        · exact hall us o m' hpre hm'
    have hstep := offset_epoch hu
    rw [hlast, ← hiff, Offset.emptyings_append, Offset.emptyings_singleton]
    by_cases hall : u.debt = u.total
    · rw [if_pos (.inl hall)] at hstep
      have hnot : ¬ m.Strands u := fun hs => absurd hs.1 (by omega)
      have := hstep.epoch
      simp only [if_pos hall, hnot, not_false_eq_true, and_true]
      omega
    · by_cases hs : m.Strands u
      · rw [if_pos (.inr hs)] at hstep
        have := hstep.epoch
        simp only [if_neg hall, hs, not_true_eq_false, and_false, iff_false]
        omega
      · rw [if_neg (not_or.2 ⟨hall, hs⟩)] at hstep
        simp only [if_neg hall, hs, not_false_eq_true, and_true, hstep, Nat.add_zero]
        exact hle

end ProductSum

namespace Pool

variable {p q : Pool} {a : Address} {debt coll : Nat}

/-- Whether a depositor's deposit is of an epoch that has ended. -/
def Ended (p : Pool) (a : Address) : Prop :=
  (p.deposit a).amount ≠ 0 ∧ (p.deposit a).epoch < p.state.epoch

/-- Nothing is left of a deposit whose epoch has ended. -/
theorem Ended.remaining (h : p.Ended a) : p.remaining a = .ok 0 := by
  rw [Pool.remaining, Deposit.remaining, if_pos (.inr (.inr h.2))]
  rfl

/-- At the beginning of an epoch nothing is left of any deposit. -/
theorem Absorbed.remaining_eq_zero {x : Rates} (h : Absorbed p debt coll x q) (hp : p.Sane)
    (renewed : p.state.Renews q.state) (a : Address) : q.remaining a = .ok 0 := by
  by_cases hz : (p.deposit a).amount = 0
  · rw [Pool.remaining, h.deposit_eq, Deposit.remaining, if_pos (.inl hz)]
    rfl
  · have hbefore : (p.deposit a).epoch ≤ p.state.epoch := (hp.placed a hz).1
    have hended : q.Ended a := by
      rw [Ended, h.deposit_eq, renewed.epoch]
      exact ⟨hz, by omega⟩
    exact hended.remaining

/-- What an offset does to the epoch, and to the deposits by it. -/
theorem absorb_epoch (hp : p.Sane) (pos : 0 < debt) (covered : debt ≤ p.total)
    (h : p.absorb debt coll = .ok q) :
    p.total = q.total + debt ∧
      if debt = p.total ∨ p.state.Strands ⟨coll, debt, p.total, pos, covered⟩ then
        p.state.Renews q.state ∧ ∀ a, q.remaining a = .ok 0
      else q.state.epoch = p.state.epoch ∧ ∀ a, q.Ended a ↔ p.Ended a := by
  obtain ⟨_, x, -, habsorbed⟩ := absorb_ok h
  refine ⟨habsorbed.total, ?_⟩
  obtain ⟨r, ho⟩ : ∃ r, p.state.offset coll debt p.total = .ok (q.state, r) := by
    simp only [absorb, Checked.bind_eq_ok, Checked.pure_eq_ok] at h
    obtain ⟨⟨t, r⟩, ho, _, -, _, -, _, -, _, -, _, -, rfl⟩ := h
    exact ⟨r, ho⟩
  have hstep := ProductSum.offset_epoch (o := ⟨coll, debt, p.total, pos, covered⟩) ho
  split
  · next hends =>
    rw [if_pos hends] at hstep
    exact ⟨hstep, habsorbed.remaining_eq_zero hp hstep⟩
  · next hgoes =>
    rw [if_neg hgoes] at hstep
    refine ⟨hstep, fun a => ?_⟩
    rw [Ended, Ended, habsorbed.deposit_eq, hstep]

end Pool

end Stability

/-! ## Runs -/

open Protocol (Sweep)
open Stability (ProductSum Offset Pool)

/-- When an epoch begins, in every state of a run and in the midst of a call.

An offset within the deposits goes through unless something does not fit.  One
that leaves nothing begins the next epoch, at scale zero and with the product at
`10 ^ 18`.  One that leaves something leaves the epoch as it is, and ends
nobody's deposit, exactly if what it leaves times `10 ^ 18`, with what is carried,
is more than the pool held, so always in a pool of less than a whole unit;
otherwise it begins the next epoch as well, and nothing is left of any deposit.
Hence the epochs of the states that offsets lead to are as many as those that
emptied the pool exactly if none of them stranded what it left. -/
theorem Deployment.epoch_begins_iff {d : Deployment} {incentive? : Option Liquidation.Incentive}
    {o : Outcome Unit} (start : d.start (some { incentive? }) = .ok o) {ts : List Turn}
    (outside : ∀ t ∈ ts, t.outside) {v w : World} (same : v.pool = (o.world.after ts).pool)
    {price : Nat} {liquidator : Address} {t : Liquidation.Totals}
    (swept : Sweep price liquidator v {} w t) :
    (∀ debt coll, 0 < debt → debt ≤ w.pool.total →
      (w.pool.collateral + coll < Amount.limit →
        (w.pool.absorb debt coll).Meets (fun _ => True) fun e =>
          w.pool.Overflows debt coll ∧ e.isOverflow) ∧
      ∀ q, w.pool.absorb debt coll = .ok q →
        (debt = w.pool.total → q.total = 0 ∧ w.pool.state.Renews q.state) ∧
        (debt < w.pool.total → 0 < q.total ∧
          (w.pool.total < Amount.one → q.state.epoch = w.pool.state.epoch) ∧
          (w.pool.total < Amount.one * q.total + w.pool.state.lossRemainder →
            q.state.epoch = w.pool.state.epoch ∧ ∀ a, q.Ended a ↔ w.pool.Ended a) ∧
          (Amount.one * q.total + w.pool.state.lossRemainder ≤ w.pool.total →
            w.pool.state.Renews q.state ∧ ∀ a, q.remaining a = .ok 0))) ∧
    (∃ os, ProductSum.takeAll {} os = .ok w.pool.state) ∧
    ∀ os s, ProductSum.takeAll {} os = .ok s →
      Offset.emptyings os ≤ s.epoch ∧
        (s.epoch = Offset.emptyings os ↔
          ∀ us u m, us ++ [u] <+: os → ProductSum.takeAll {} us = .ok m → ¬ m.Strands u) := by
  have hready := Deployment.start_ready start
  obtain ⟨-, hp⟩ := hready.orderly_after outside
  rw [← same] at hp
  have hsane : w.pool.Sane := (swept.ages hp).1.toSane
  obtain ⟨os, hos⟩ : ∃ os, ProductSum.takeAll {} os = .ok w.pool.state := by
    obtain ⟨-, us, hus⟩ := hready.takeAll outside
    obtain ⟨os, hos⟩ := swept.takeAll
    rw [← same] at hus
    exact ⟨us ++ os, ProductSum.takeAll_append.2 ⟨_, hus, hos⟩⟩
  have hproduct : w.pool.state.product ≤ Amount.one := ProductSum.takeAll_product le_rfl hos
  refine ⟨?_, ⟨os, hos⟩, fun os s hs => by simpa using ProductSum.takeAll_epoch hs⟩
  intro debt coll pos covered
  refine ⟨Pool.absorb_meets hproduct (by omega) covered, fun q hq => ?_⟩
  obtain ⟨htotal, hepoch⟩ := Pool.absorb_epoch hsane pos covered hq
  constructor
  · intro hall
    rw [if_pos (.inl hall)] at hepoch
    exact ⟨by omega, hepoch.1⟩
  · intro hpart
    have hstrands : w.pool.state.Strands ⟨coll, debt, w.pool.total, pos, covered⟩ ↔
        Amount.one * q.total + w.pool.state.lossRemainder ≤ w.pool.total := by
      rw [ProductSum.Strands, show w.pool.total - debt = q.total by omega]
      exact and_iff_right hpart
    refine ⟨by omega, fun hsmall => ?_, fun hmore => ?_, fun hless => ?_⟩
    · have hnot : ¬ w.pool.state.Strands ⟨coll, debt, w.pool.total, pos, covered⟩ :=
        fun hs => absurd hs.one_le (by simpa using hsmall)
      rw [if_neg (not_or.2 ⟨hpart.ne, hnot⟩)] at hepoch
      exact hepoch.1
    · rwa [if_neg (not_or.2 ⟨hpart.ne, fun hs => absurd (hstrands.1 hs) (by omega)⟩)] at hepoch
    · rwa [if_pos (.inr (hstrands.2 hless))] at hepoch

/-- A deposit of one unit is there to absorb the debt of another trove. -/
def Deployment.oneDeposited (debt : Nat) : List Turn :=
  Turn.opening (.account 1) (1000 * Amount.one) (4 * Amount.one) ++
  Turn.opening (.account 2) 7500000000000000 debt ++
  [.call (.account 1) (.provide Amount.one)]

/-- Where two parts of one unit are left the epoch goes on, and where nothing is
left the next one begins. -/
theorem Deployment.epoch_begins_oneDeposited :
    ∃ o, plain.start (some { incentive? := some { debtCompensation := 0 } }) = .ok o ∧
      let p := (o.world.after (oneDeposited 999999999999999998)).pool
      (∃ q, p.absorb 999999999999999998 7462500000000000 = .ok q ∧ 0 < q.total ∧
        q.state.epoch = p.state.epoch ∧ ∀ a, q.Ended a ↔ p.Ended a) ∧
      ∃ q, p.absorb Amount.one 7462500000000000 = .ok q ∧ q.total = 0 ∧
        p.state.Renews q.state := by
  obtain ⟨o, ho, htotal, hleft, hpart, hall⟩ : ∃ o,
      plain.start (some { incentive? := some { debtCompensation := 0 } }) = .ok o ∧
      let p := (o.world.after (oneDeposited 999999999999999998)).pool
      p.total = Amount.one ∧ p.state.lossRemainder = 0 ∧
        (do return (← p.absorb 999999999999999998 7462500000000000).total) = .ok 2 ∧
        (do return (← p.absorb Amount.one 7462500000000000).total) = .ok 0 :=
    Checked.exists_ok (by decide +kernel)
  have hout : ∀ t ∈ oneDeposited 999999999999999998, t.outside := by decide +kernel
  have unswept (w : World) : Sweep 0 (.account 9) w {} w {} := .done
  obtain ⟨hoffset, -⟩ := epoch_begins_iff ho hout rfl (unswept _)
  simp only [Checked.bind_eq_ok, Checked.pure_eq_ok] at hpart hall
  obtain ⟨q, hq, htwo⟩ := hpart
  obtain ⟨q', hq', -⟩ := hall
  refine ⟨o, ho, ⟨q, hq, ?_⟩, q', hq', ?_⟩
  · have hlt : 999999999999999998 < (o.world.after (oneDeposited 999999999999999998)).pool.total := by
      rw [htotal]
      decide
    obtain ⟨-, hsome⟩ := hoffset 999999999999999998 7462500000000000 (by decide) hlt.le
    obtain ⟨hpos, -, hmore, -⟩ := (hsome q hq).2 hlt
    exact ⟨hpos, hmore (by rw [htotal, htwo, hleft]; decide)⟩
  · obtain ⟨-, hsome⟩ := hoffset Amount.one 7462500000000000 (by decide) htotal.ge
    exact (hsome q' hq').1 htotal.symm

/-- The debt of the other trove comes to all but one part of the unit.  That part
stays in the pool, and the depositor has lost it. -/
theorem Deployment.epoch_begun_onePartLeft :
    ∃ o, plain.start (some { incentive? := some { debtCompensation := 0 } }) = .ok o ∧
      let ts := oneDeposited 999999999999999999 ++ [.pricing 10000000000]
      let us := ts ++ [.call (.account 9) (.liquidateOne (.account 2))]
      (∀ t ∈ us, t.outside) ∧
      let p := (o.world.after ts).pool
      let q := (o.world.after us).pool
      p.total = Amount.one ∧ p.state.epoch = 0 ∧ p.remaining (.account 1) = .ok Amount.one ∧
        q.total = 1 ∧ q.state.epoch = 1 ∧ q.remaining (.account 1) = .ok 0 := by
  obtain ⟨o, ho, h⟩ : ∃ o,
      plain.start (some { incentive? := some { debtCompensation := 0 } }) = .ok o ∧
      let ts := oneDeposited 999999999999999999 ++ [.pricing 10000000000]
      let p := (o.world.after ts).pool
      let q := (o.world.after
        (ts ++ [.call (.account 9) (.liquidateOne (.account 2))])).pool
      p.total = Amount.one ∧ p.state.epoch = 0 ∧ p.remaining (.account 1) = .ok Amount.one ∧
        q.total = 1 ∧ q.state.epoch = 1 ∧ q.remaining (.account 1) = .ok 0 :=
    Checked.exists_ok (by decide +kernel)
  exact ⟨o, ho, by decide +kernel, h⟩

end Troves
