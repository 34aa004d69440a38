/-
# When the ledger lets a trove go

The ledger can take a trove out, pay for it and spread the rest unless a sum
or a product of the redistribution does not fit.  Every subtraction on the way
is covered: the default pool has what is pending, the active pool what the
trove records, the total stake what the trove's is.
-/
import Troves.Proofs.ActivePool
import Troves.Proofs.DefaultPool
import Troves.Proofs.Outcomes

namespace Troves

open Liquidation (Split)

namespace Holding

variable {a b : Holding}

theorem add_of_part_lt (h : ∀ x, a.part x + b.part x < Amount.limit) : ∃ c, a.add b = .ok c :=
  ⟨_, add_eq_ok.2 ⟨⟨h .collateral, h .debt⟩, rfl⟩⟩

/-- A sum fits, or one of its parts overflows. -/
theorem meets_add_of {Q : Holding → Prop} {E : Fault → Prop} (hQ : ∀ c, a.add b = .ok c → Q c)
    (hE : ∀ x, Amount.limit ≤ a.part x + b.part x → E .overflow) : (a.add b).Meets Q E := by
  refine Checked.Meets.mono (P := fun _ => True) ?_ (fun c hc _ => hQ c hc) fun _ he => he
  rw [add, Checked.meets_bind]
  refine Amount.meets_add_of (fun _ => ?_) (hE .collateral)
  rw [Checked.meets_bind]
  exact Amount.meets_add_of (fun _ => trivial) (hE .debt)

theorem meets_sub_of {Q : Holding → Prop} {E : Fault → Prop} (hQ : ∀ c, a.sub b = .ok c → Q c)
    (hE : E .overflow) : (a.sub b).Meets Q E := by
  refine Checked.Meets.mono (P := fun _ => True) ?_ (fun c hc _ => hQ c hc) fun _ he => he
  simp [sub, hE]

end Holding

/-- What is spread fits, or one of the sums to be divided overflows. -/
theorem Accrual.spread?_meets {amount carried : Holding} {stakes : Nat}
    {Q : Option Spread → Prop} {E : Fault → Prop} (none : Q none)
    (some : ∀ s : Spread, stakes ≠ 0 →
      (∀ x, s.perUnit.part x = (amount.part x * Amount.one + carried.part x) / stakes) →
      Q (some s))
    (hE : ∀ x, stakes ≠ 0 → Amount.limit ≤ amount.part x * Amount.one + carried.part x →
      E .overflow) :
    (spread? amount stakes carried).Meets Q E := by
  rw [spread?]
  by_cases h : amount.debt = 0 ∨ stakes = 0
  · rw [if_pos h]
    exact none
  · have hs : stakes ≠ 0 := fun hs => h (.inr hs)
    rw [if_neg h, Checked.meets_bind]
    refine Amount.meets_mul_of (fun _ => ?_) fun hc =>
      hE .collateral hs (hc.trans (Nat.le_add_right _ _))
    rw [Checked.meets_bind]
    refine Amount.meets_add_of (fun _ => ?_) (hE .collateral hs)
    rw [Checked.meets_bind]
    refine Amount.meets_mul_of (fun _ => ?_) fun hd =>
      hE .debt hs (hd.trans (Nat.le_add_right _ _))
    rw [Checked.meets_bind]
    refine Amount.meets_add_of (fun _ => ?_) (hE .debt hs)
    exact some _ hs fun x => by cases x <;> rfl

namespace Ledger

variable {l l' : Ledger} {b : Address} {n : Nat}

/-- The sums of a redistribution over so many stakes that may not fit: what is
divided, and an index that grows. -/
inductive Overflows (l : Ledger) (amount : Holding) (stakes : Nat) : Prop where
  | divided (x : Part) (shared : stakes ≠ 0) (h : Amount.limit ≤
      (amount.part x + l.unassigned.part x) * Amount.one + l.remainders.part x)
  | index (x : Part) (shared : stakes ≠ 0) (h : Amount.limit ≤ l.index.part x +
      ((amount.part x + l.unassigned.part x) * Amount.one + l.remainders.part x) / stakes)

/-- A redistribution of what the active pool has fails only if something
overflows. -/
theorem spreadOver_meets {amount : Holding}
    (covered : ∀ x, amount.part x ≤ l.activePool.part x)
    (fits : ∀ x, l.activePool.part x + l.defaultPool.part x < Amount.limit)
    (parked : ∀ x, l.unassigned.part x ≤ l.defaultPool.part x) :
    (l.spreadOver amount).Meets (fun _ => True) fun e =>
      amount ≠ {} ∧ l.Overflows amount l.totalStakes ∧ e.isOverflow := by
  rw [spreadOver]
  by_cases hz : amount.isZero = true
  · rw [if_pos hz]
    trivial
  · have hne : amount ≠ {} := fun h => hz (Holding.isZero_iff.2 h)
    have hwhole (x : Part) : amount.part x + l.unassigned.part x < Amount.limit := by
      have := covered x
      have := fits x
      have := parked x
      omega
    obtain ⟨whole, hw⟩ := Holding.add_of_part_lt hwhole
    -- what is spread or parked changes pools, whatever becomes of the index
    have hmoves (m : Ledger) (ha : m.activePool = l.activePool)
        (hd : m.defaultPool = l.defaultPool) {E : Fault → Prop} :
        (do
          let activePool ← m.activePool.sub amount
          let defaultPool ← m.defaultPool.add amount
          return { m with activePool, defaultPool } : Checked Ledger).Meets (fun _ => True) E := by
      obtain ⟨a, hsub⟩ := Holding.sub_of_part_le covered
      obtain ⟨d, hadd⟩ := Holding.add_of_part_lt (a := l.defaultPool) (b := amount) fun x => by
        have := covered x
        have := fits x
        omega
      rw [ha, hd, Checked.meets_bind]
      refine Checked.meets_of_ok hsub ?_
      rw [Checked.meets_bind]
      exact Checked.meets_of_ok hadd trivial
    rw [if_neg hz, Ledger.spread?, Checked.meets_bind, Checked.meets_bind]
    refine Checked.meets_of_ok hw (Accrual.spread?_meets ?_ ?_ ?_)
    · obtain ⟨u, hu⟩ := Holding.add_of_part_lt (a := l.unassigned) (b := amount) fun x => by
        rw [Nat.add_comm]
        exact hwhole x
      rw [bookSpread, Checked.meets_bind]
      exact Checked.meets_of_ok hu (hmoves { l with unassigned := u } rfl rfl)
    · intro s hs hper
      rw [bookSpread, Checked.meets_bind]
      refine Holding.meets_add_of (fun index _ =>
        hmoves { l with index, remainders := s.remainders, unassigned := {} } rfl rfl)
        fun x hx => ?_
      rw [hper x, Holding.part_add hw] at hx
      exact ⟨hne, .index x hs hx, trivial⟩
    · intro x hs hx
      rw [Holding.part_add hw] at hx
      exact ⟨hne, .divided x hs hx, trivial⟩

/-! ## The steps that always go through -/

theorem release_succeeds {amount : Holding} (h : ∀ x, amount.part x ≤ l.activePool.part x) :
    ∃ l', l.release amount = .ok l' := by
  obtain ⟨a, ha⟩ := Holding.sub_of_part_le h
  exact ⟨_, Checked.bind_eq_ok.2 ⟨a, ha, rfl⟩⟩

theorem release_collateral_succeeds {amount : Nat} (h : amount ≤ l.activePool.collateral) :
    ∃ l', l.release { collateral := amount } = .ok l' :=
  release_succeeds fun x => by
    cases x with
    | collateral => exact h
    | debt => exact Nat.zero_le _

theorem releaseOffset_succeeds {s : Split}
    (h : ∀ x, Holding.part ⟨s.handedOver, s.debtToOffset⟩ x ≤ l.activePool.part x) :
    ∃ l', l.releaseOffset s = .ok l' := by
  rw [releaseOffset]
  rw [Split.handedOver] at h
  split
  · exact ⟨l, rfl⟩
  · next hz =>
    rw [if_neg hz] at h
    exact release_succeeds h

theorem releaseSurplus_succeeds {amount : Nat} (h : amount ≤ l.activePool.collateral) :
    ∃ l', l.releaseSurplus amount = .ok l' := by
  rw [releaseSurplus]
  split
  · exact ⟨l, rfl⟩
  · exact release_collateral_succeeds h

theorem rebase_succeeds {outgoing : Nat} (h : outgoing ≤ l.activePool.collateral)
    (fits : l.activePool.collateral + l.defaultPool.collateral < Amount.limit) :
    ∃ l', l.rebase outgoing = .ok l' := by
  refine ⟨_, Checked.bind_eq_ok.2 ⟨_, Amount.sub_eq_ok.2 ⟨h, rfl⟩, Checked.bind_eq_ok.2
    ⟨_, Amount.add_eq_ok.2 ⟨?_, rfl⟩, rfl⟩⟩⟩
  omega

/-- The pending rewards of an open trove are in the default pool. -/
theorem Balanced.pending_le {p : Holding} (h : l.Balanced n) (hb : l.isActive b = true)
    (hp : l.pending b = .ok p) (x : Part) : p.part x ≤ l.defaultPool.part x := by
  obtain ⟨rest, hr⟩ := (h.no_underflow hb).2 p hp
  exact (Holding.part_sub hr x).1

theorem Balanced.stake_le (h : l.Balanced n) (hb : l.isActive b = true) :
    (l.trove b).stake ≤ l.totalStakes := by
  rw [h.stakes]
  exact Finset.single_le_sum (f := fun a => (l.trove a).stake) (fun _ _ => Nat.zero_le _)
    (mem_openTroves.2 hb)

theorem Tallied.trove_le (h : l.Tallied) (hb : l.isActive b = true) (x : Part) :
    (l.trove b).toHolding.part x ≤ l.activePool.part x := by
  rw [h x]
  exact Finset.single_le_sum (f := fun a => (l.trove a).toHolding.part x)
    (fun _ _ => Nat.zero_le _) (mem_openTroves.2 hb)

/-- An open trove can always be taken out of the books. -/
theorem Balanced.takeOut_succeeds {p : Holding} (h : l.Balanced n) (hb : l.isActive b = true)
    (hp : l.pending b = .ok p)
    (fits : ∀ x, l.activePool.part x + l.defaultPool.part x < Amount.limit) :
    ∃ l', l.takeOut b p = .ok l' := by
  have hle (x : Part) := h.pending_le hb hp x
  obtain ⟨l₁, h₁⟩ : ∃ l₁, l.activate p = .ok l₁ := by
    rw [activate]
    split
    · exact ⟨l, rfl⟩
    · obtain ⟨d, hd⟩ := Holding.sub_of_part_le hle
      obtain ⟨a, ha⟩ := Holding.add_of_part_lt (a := l.activePool) (b := p) fun x => by
        have := hle x
        have := fits x
        omega
      exact ⟨_, Checked.bind_eq_ok.2 ⟨d, hd, Checked.bind_eq_ok.2 ⟨a, ha, rfl⟩⟩⟩
  obtain ⟨d, a, -, rfl, -⟩ := activate_ok h₁
  exact ⟨_, Checked.bind_eq_ok.2 ⟨_, h₁, Checked.bind_eq_ok.2 ⟨_, Checked.bind_eq_ok.2
    ⟨_, Amount.sub_eq_ok.2 ⟨h.stake_le hb, rfl⟩, rfl⟩, rfl⟩⟩⟩

/-- What follows the redistribution: the surplus and the payment leave the active
pool, and the baseline is taken in between. -/
theorem payOff_succeeds {s : Split}
    (covered : s.surplus + s.collateralCompensation ≤ l.activePool.collateral)
    (fits : l.activePool.collateral + l.defaultPool.collateral < Amount.limit) :
    ∃ l', (do
      let l ← l.releaseSurplus s.surplus
      let l ← l.rebase s.collateralCompensation
      l.release { collateral := s.collateralCompensation }) = .ok l' := by
  obtain ⟨l₁, h₁⟩ : ∃ l₁, l.releaseSurplus s.surplus = .ok l₁ :=
    releaseSurplus_succeeds (by omega)
  obtain ⟨hr, hd⟩ := releaseSurplus_part h₁ .collateral
  simp only [Holding.part] at hr
  obtain ⟨l₂, h₂⟩ : ∃ l₂, l₁.rebase s.collateralCompensation = .ok l₂ :=
    rebase_succeeds (by omega) (by rw [hd]; omega)
  obtain ⟨hle, hl₂⟩ := rebase_ok h₂
  obtain ⟨l₃, h₃⟩ : ∃ l₃, l₂.release { collateral := s.collateralCompensation } = .ok l₃ :=
    release_collateral_succeeds (by rw [hl₂]; exact hle)
  exact ⟨l₃, Checked.bind_eq_ok.2 ⟨l₁, h₁, Checked.bind_eq_ok.2 ⟨l₂, h₂, h₃⟩⟩⟩

/-- Whether something overflows rests on what is carried and on the index. -/
theorem Overflows.of_eq {amount : Holding} {stakes : Nat} (hu : l'.unassigned = l.unassigned)
    (hr : l'.remainders = l.remainders) (hi : l'.index = l.index)
    (h : l'.Overflows amount stakes) : l.Overflows amount stakes := by
  cases h with
  | divided x hs h => exact .divided x hs (by rwa [← hu, ← hr])
  | index x hs h => exact .index x hs (by rwa [← hu, ← hr, ← hi])

/-! ## The whole liquidation -/

theorem outgoing_part {s : Split} (x : Part) : s.outgoing.part x =
    Holding.part ⟨s.handedOver, s.debtToOffset⟩ x + Holding.part { collateral := s.surplus } x +
      Holding.part { collateral := s.collateralCompensation } x := by
  cases x <;> rfl

/-- A ledger whose amounts add up can liquidate any open trove by an exact
split, unless the redistribution overflows. -/
theorem liquidate_meets {e : Entire} {s : Split} {deposits : Nat} (hb : l.Balanced n)
    (ht : l.Tallied) (ha : l.isActive b = true) (he : l.entire b = .ok e)
    (hx : s.Exact e.debt e.collateral deposits)
    (fits : ∀ x, l.activePool.part x + l.defaultPool.part x < Amount.limit) :
    (l.liquidate b e.pending s).Meets (fun _ => True) fun f =>
      s.spread ≠ {} ∧ l.Overflows s.spread (l.totalStakes - (l.trove b).stake) ∧
        f.isOverflow := by
  obtain ⟨hp, hpos⟩ := entire_ok he
  obtain ⟨l₁, h₁⟩ := hb.takeOut_succeeds ha hp fits
  have out := takeOut_ok h₁
  -- the pool now has the whole trove, and the two pools together what they had
  have hwhole (x : Part) : s.outgoing.part x + s.spread.part x ≤ l₁.activePool.part x := by
    have := ht.trove_le ha x
    rw [hx.shared x, hpos x, out.activePool x]
    omega
  have hfits (x : Part) : l₁.activePool.part x + l₁.defaultPool.part x < Amount.limit := by
    have := fits x
    obtain ⟨hle, hd⟩ := Holding.part_sub out.defaultPool x
    rw [out.activePool x, hd]
    omega
  have hparked (x : Part) : l₁.unassigned.part x ≤ l₁.defaultPool.part x :=
    (Nat.le_add_left _ _).trans ((hb.takeOut ha hp out).covers x)
  obtain ⟨l₂, h₂⟩ : ∃ l₂, l₁.releaseOffset s = .ok l₂ := releaseOffset_succeeds fun x => by
    have := hwhole x
    rw [outgoing_part] at this
    omega
  -- an offset leaves what the rest takes, and does not touch the default pool
  have hleft (x : Part) : Holding.part { collateral := s.surplus } x +
      Holding.part { collateral := s.collateralCompensation } x + s.spread.part x ≤
        l₂.activePool.part x := by
    have := hwhole x
    have := (releaseOffset_part h₂ x).1
    rw [outgoing_part] at *
    omega
  have hfits (x : Part) : l₂.activePool.part x + l₂.defaultPool.part x < Amount.limit := by
    have := hfits x
    obtain ⟨hr, hd⟩ := releaseOffset_part h₂ x
    rw [hd]
    omega
  obtain ⟨a₂, rfl⟩ := releaseOffset_ok h₂
  rw [liquidate, Checked.meets_bind]
  refine Checked.meets_of_ok h₁ ?_
  rw [Checked.meets_bind]
  refine Checked.meets_of_ok h₂ ?_
  rw [Checked.meets_bind]
  refine (spreadOver_meets (fun x => (Nat.le_add_left _ _).trans (hleft x)) hfits hparked).mono
    (fun l₃ h₃ _ => ?_) fun f hf => ⟨hf.1, ?_, hf.2.2⟩
  · obtain ⟨hactive, hdefault, -⟩ := spreadOver_ok h₃
    have hspent := (hactive .collateral).2
    have hmoved := hdefault .collateral
    have hleft := hleft .collateral
    have hfits := hfits .collateral
    simp only [Holding.part, Split.spread] at hspent hmoved hleft hfits
    obtain ⟨l₄, h₄⟩ := payOff_succeeds (l := l₃) (s := s) (by omega) (by omega)
    exact Checked.meets_of_ok h₄ trivial
  · have hstakes : l₁.totalStakes = l.totalStakes - (l.trove b).stake := by
      rw [out.stakes, Nat.add_sub_cancel]
    rw [← hstakes]
    refine hf.2.1.of_eq ?_ ?_ ?_
    · rw [out.kept]
    · rw [out.kept]
    · rw [out.kept]

end Ledger

end Troves
