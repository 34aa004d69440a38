/-
# The active pool

The active pool holds what the open troves record, to the unit and for
collateral and debt alike.  A liquidation takes from the two pools together
exactly what its split hands out: what is spread only changes pools.  So the
pool loses what the trove recorded, whichever way its amounts go, and the
total of the stakes loses its stake.
-/
import Troves.Proofs.DefaultPool
import Troves.Proofs.Splits

namespace Troves

namespace Liquidation.Split

/-- What leaves the ledger with a liquidated trove. -/
def outgoing (s : Split) : Holding where
  collateral := s.handedOver + s.surplus + s.collateralCompensation
  debt := s.debtToOffset

/-- What a liquidated trove leaves to the others. -/
def spread (s : Split) : Holding where
  collateral := s.collateralToSpread
  debt := s.debtToSpread

/-- What leaves and what is left to the others is the whole trove. -/
theorem Exact.shared {s : Split} {e : Holding} {deposits : Nat}
    (h : s.Exact e.debt e.collateral deposits) (x : Part) :
    s.outgoing.part x + s.spread.part x = e.part x := by
  cases x with
  | collateral =>
    have hc := h.collateral
    show s.handedOver + s.surplus + s.collateralCompensation + s.collateralToSpread = e.collateral
    rw [h.handedOver]
    omega
  | debt => exact h.debt

end Liquidation.Split

open Liquidation (Split Totals)

namespace Ledger

variable {l l' : Ledger}

/-! ## What a liquidation takes from the pools -/

theorem release_part {amount : Holding} (h : l.release amount = .ok l') (x : Part) :
    l'.activePool.part x + amount.part x = l.activePool.part x ∧
      l'.defaultPool = l.defaultPool := by
  obtain ⟨a, ha, rfl⟩ := release_ok h
  obtain ⟨hle, hsub⟩ := Holding.part_sub ha x
  exact ⟨by dsimp only; omega, rfl⟩

theorem releaseOffset_part {s : Split} (h : l.releaseOffset s = .ok l') (x : Part) :
    l'.activePool.part x + Holding.part ⟨s.handedOver, s.debtToOffset⟩ x = l.activePool.part x ∧
      l'.defaultPool = l.defaultPool := by
  rw [releaseOffset] at h
  rw [Split.handedOver]
  split at h
  · next hz =>
    cases h
    rw [if_pos hz, hz]
    exact ⟨by cases x <;> rfl, rfl⟩
  · next hz =>
    rw [if_neg hz]
    exact release_part h x

theorem releaseSurplus_part {amount : Nat} (h : l.releaseSurplus amount = .ok l') (x : Part) :
    l'.activePool.part x + Holding.part { collateral := amount } x = l.activePool.part x ∧
      l'.defaultPool = l.defaultPool := by
  rw [releaseSurplus] at h
  split at h
  · next hz =>
    cases h
    rw [hz]
    exact ⟨by cases x <;> rfl, rfl⟩
  · exact release_part h x

/-- The pending rewards move to the active pool; what is spread moves to the
default pool, and what goes out leaves. -/
theorem liquidate_pools {b : Address} {pending : Holding} {s : Split}
    (h : l.liquidate b pending s = .ok l') (x : Part) :
    l'.activePool.part x + s.outgoing.part x + s.spread.part x =
        l.activePool.part x + pending.part x ∧
      l'.defaultPool.part x + pending.part x = l.defaultPool.part x + s.spread.part x := by
  simp only [liquidate, Checked.bind_eq_ok] at h
  obtain ⟨l₁, h₁, l₂, h₂, l₃, h₃, l₄, h₄, _, hb, h₅⟩ := h
  obtain ⟨-, rfl⟩ := rebase_ok hb
  have ht := takeOut_ok h₁
  obtain ⟨hle, hsub⟩ := Holding.part_sub ht.defaultPool x
  have ha := ht.activePool x
  obtain ⟨ho, hod⟩ := releaseOffset_part h₂ x
  obtain ⟨hs, hsd, -⟩ := spreadOver_ok h₃
  obtain ⟨hsle, hs⟩ := hs x
  have hsd := hsd x
  obtain ⟨hr, hrd⟩ := releaseSurplus_part h₄ x
  obtain ⟨hc, hcd⟩ := release_part h₅ x
  dsimp only at hc hcd
  have hspread : s.spread.part x =
      Holding.part { collateral := s.collateralToSpread, debt := s.debtToSpread } x := rfl
  have hout : s.outgoing.part x = Holding.part ⟨s.handedOver, s.debtToOffset⟩ x +
      Holding.part { collateral := s.surplus } x +
      Holding.part { collateral := s.collateralCompensation } x := by
    cases x <;> rfl
  rw [hcd, hrd, hspread, hout]
  rw [hod] at hsd
  omega

/-! ## What the troves record -/

/-- What the open troves record. -/
def recorded (l : Ledger) (x : Part) : Nat :=
  ∑ a ∈ l.openTroves, (l.trove a).toHolding.part x

/-- The active pool holds what the open troves record. -/
def Tallied (l : Ledger) : Prop :=
  ∀ x, l.activePool.part x = l.recorded x

theorem recorded_congr (h : l'.troves = l.troves) (x : Part) : l'.recorded x = l.recorded x := by
  have ht (a : Address) : l'.trove a = l.trove a := by
    rw [trove, h]
    rfl
  have ho : l'.openTroves = l.openTroves := by
    ext a
    rw [mem_openTroves, mem_openTroves, isActive, ht]
    rfl
  rw [recorded, ho]
  exact Finset.sum_congr rfl fun a _ => by rw [ht a]

theorem Tallied.enroll {a : Address} {holding pool : Holding} (h : l.Tallied)
    (ha : l.isActive a = false) (he : Enrolled l a holding l')
    (hp : l'.activePool.add holding = .ok pool) : Tallied { l' with activePool := pool } := by
  intro x
  have hn : a ∉ l.openTroves := by simp [ha]
  have hrest : ∑ b ∈ l.openTroves, (l'.trove b).toHolding.part x = l.recorded x :=
    Finset.sum_congr rfl fun b hb => by rw [he.others b fun e => hn (e ▸ hb)]
  have hself : (l'.trove a).toHolding = holding := by rw [he.opened]
  have hpool : l'.activePool = l.activePool := by rw [he.kept]
  have hr : l'.recorded x = holding.part x + l.recorded x := by
    rw [recorded, he.openTroves, Finset.sum_insert hn, hself, hrest]
  show pool.part x = l'.recorded x
  rw [Holding.part_add hp, hpool, h x, hr, Nat.add_comm]

/-- Settled rewards come into the trove and into the pool. -/
theorem Tallied.settle {b : Address} {s : Accrual.Settlement} (h : l.Tallied)
    (hb : l.isActive b = true) (hs : l.settlement b = .ok s) (ht : SettledIn l b s l') :
    l'.Tallied := by
  intro x
  obtain ⟨-, -, hadd, -⟩ := settlement_ok hb hs
  have hopen := ht.openTroves hb hs
  have hmem := mem_openTroves.2 hb
  have hrest : ∑ a ∈ l.openTroves.erase b, (l'.trove a).toHolding.part x =
      ∑ a ∈ l.openTroves.erase b, (l.trove a).toHolding.part x :=
    Finset.sum_congr rfl fun a ha => by rw [ht.others a (Finset.ne_of_mem_erase ha)]
  have hl := Finset.add_sum_erase l.openTroves (fun a => (l.trove a).toHolding.part x) hmem
  have hl' := Finset.add_sum_erase l.openTroves (fun a => (l'.trove a).toHolding.part x) hmem
  have hpool := h x
  rw [recorded, hopen]
  rw [recorded] at hpool
  rw [ht.trove, Holding.part_add hadd x] at hl'
  rw [ht.activePool x]
  omega

/-- The pool's books without a trove that was taken out. -/
theorem TakenOut.recorded {b : Address} {pending : Holding} (ht : TakenOut l b pending l')
    (hb : l.isActive b = true) (x : Part) :
    l.recorded x = l'.recorded x + (l.trove b).toHolding.part x := by
  have hrest : l'.recorded x = ∑ a ∈ l.openTroves.erase b, (l.trove a).toHolding.part x := by
    rw [Ledger.recorded, ht.openTroves]
    refine Finset.sum_congr rfl fun a ha => ?_
    obtain ⟨slot, hslot⟩ := ht.others a (Finset.ne_of_mem_erase ha)
    rw [hslot]
  have hl := Finset.add_sum_erase l.openTroves (fun a => (l.trove a).toHolding.part x)
    (mem_openTroves.2 hb)
  rw [hrest, Ledger.recorded, Nat.add_comm]
  exact hl.symm

/-- Of the records a liquidation changes only what taking the trove out
changes. -/
theorem liquidate_records {b : Address} {pending : Holding} {s : Split}
    (h : l.liquidate b pending s = .ok l') : ∃ l₁, l.takeOut b pending = .ok l₁ ∧
      l'.troves = l₁.troves ∧ l'.owners = l₁.owners ∧ l'.marks = l₁.marks ∧
      l'.incentive = l₁.incentive := by
  simp only [liquidate, Checked.bind_eq_ok] at h
  obtain ⟨l₁, h₁, _, ho, l₂, hs, _, hp, _, hb, hr⟩ := h
  obtain ⟨a₁, rfl⟩ := releaseOffset_ok ho
  obtain ⟨a₂, rfl⟩ := releaseSurplus_ok hp
  obtain ⟨-, rfl⟩ := rebase_ok hb
  obtain ⟨a₃, -, rfl⟩ := release_ok hr
  refine ⟨l₁, h₁, ?_⟩
  obtain ⟨-, -, hp | hs⟩ := spreadOver_ok hs
  · rw [hp.kept]
    exact ⟨rfl, rfl, rfl, rfl⟩
  · rw [hs.kept]
    exact ⟨rfl, rfl, rfl, rfl⟩

/-- A trove leaves the pool with all it recorded, pending rewards included. -/
theorem Tallied.liquidate {b : Address} {e : Entire} {s : Split} {deposits : Nat}
    (h : l.Tallied) (hb : l.isActive b = true) (he : l.entire b = .ok e)
    (hx : s.Exact e.debt e.collateral deposits)
    (hl : l.liquidate b e.pending s = .ok l') : l'.Tallied := by
  intro x
  obtain ⟨l₁, ht, htroves, -⟩ := liquidate_records hl
  have ht := takeOut_ok ht
  have hsame : l'.recorded x = l₁.recorded x := recorded_congr htroves x
  have hall := ht.recorded hb x
  have hpos := (entire_ok he).2 x
  have hpools := (liquidate_pools hl x).1
  have hsh := hx.shared x
  have hpool := h x
  rw [hsame]
  omega

end Ledger

/-! ## Runs -/

open Protocol (Due Sweep)

theorem Protocol.Due.exact {w : World} {b : Address} {price : Nat} {e : Entire} {s : Split}
    (h : Due w b price e s) : s.Exact e.debt e.collateral w.pool.total := by
  obtain ⟨total, -, hs⟩ := h.split
  exact Liquidation.split?_exact hs

theorem Protocol.Sweep.tallied {w w' : World} {price : Nat} {liquidator : Address}
    {t t' : Totals} (h : Sweep price liquidator w t w' t') (ht : w.ledger.Tallied) :
    w'.ledger.Tallied := by
  induction h with
  | done => exact ht
  | next due out _ _ ih => exact ih (ht.liquidate due.active due.position due.exact out.ledger)

theorem Ledger.tallied_new (i : Liquidation.Incentive) :
    Tallied { links? := some .usual, incentive := i } := by
  have hopen : openTroves { links? := some .usual, incentive := i } = ∅ := rfl
  intro x
  rw [recorded, hopen, Finset.sum_empty, Holding.part_empty]

theorem Step.tallied {w w' : World} {t : Turn} {k : Nat} (h : Step w t k w')
    (ht : w.ledger.Tallied) : w'.ledger.Tallied := by
  cases h.onLedger with
  | kept hk =>
    rw [hk]
    exact ht
  | opened ho =>
    obtain ⟨l, he, pool, hp, hl, -⟩ := ho.enrolled
    rw [hl]
    exact ht.enroll ho.inactive (Ledger.enroll_ok he) hp
  | settled hd =>
    exact ht.settle hd.active hd.settlement hd.booked
  | cleared hc =>
    obtain ⟨d, -, hs⟩ := hc.sweep
    exact hs.tallied (by exact ht)

/-! ## Sums over the open troves -/

/-- The totals of the books are sums over the open troves: the active pool of
what they record, and the total stake of their stakes. -/
structure Ledger.AddsUp (l : Ledger) : Prop where
  pool : ∀ x, l.activePool.part x = ∑ a ∈ l.openTroves, (l.trove a).toHolding.part x
  stakes : l.totalStakes = ∑ a ∈ l.openTroves, (l.trove a).stake

theorem Ledger.Tallied.addsUp {l : Ledger} {n : Nat} (h : l.Tallied) (hb : l.Balanced n) :
    l.AddsUp :=
  ⟨h, hb.stakes⟩

/-- A liquidation takes the trove's stake out of the total and redistributes
none. -/
theorem Ledger.liquidate_stakes {l l' : Ledger} {b : Address} {pending : Holding} {s : Split}
    (h : l.liquidate b pending s = .ok l') :
    l.totalStakes = l'.totalStakes + (l.trove b).stake := by
  obtain ⟨l₁, a₁, l₂, a₂, base, ht, hs, rfl⟩ := liquidate_ok h
  show _ = l₂.totalStakes + _
  rw [spreadOver_stakes hs, ht.stakes]

/-- The pool loses what the trove recorded: its pending rewards come in before
the whole of it goes out. -/
theorem Protocol.Due.pool_loses {w w' : World} {b liquidator : Address} {price : Nat}
    {e : Entire} {s : Split} (due : Due w b price e s)
    (out : Protocol.Liquidated w b liquidator e.pending s w') (x : Part) :
    w.ledger.activePool.part x =
      w'.ledger.activePool.part x + (w.ledger.trove b).toHolding.part x := by
  have hpools := (Ledger.liquidate_pools out.ledger x).1
  have hshares := due.exact.shared x
  have hentire := (Ledger.entire_ok due.position).2 x
  omega

/-- The active pool and the total stake are the sums over the open troves, in
every state of every run and between the liquidations of one call, whatever
the price and the surroundings.  Each of these sends the whole of its trove's debt and
collateral out of the ledger or to the others, and takes from the pool what
the trove recorded and from the total its stake. -/
theorem Deployment.activePool_recorded {d : Deployment}
    {incentive? : Option Liquidation.Incentive} {o : Outcome Unit}
    (start : d.start (some { incentive? }) = .ok o) {ts : List Turn}
    (outside : ∀ t ∈ ts, t.outside) :
    let w := o.world.after ts
    w.ledger.AddsUp ∧
    ∀ {w₀ price liquidator w₁ t}, w₀.ledger = w.ledger → Sweep price liquidator w₀ {} w₁ t →
      w₁.ledger.AddsUp ∧
      ∀ {b e s w₂}, Due w₁ b price e s → Protocol.Liquidated w₁ b liquidator e.pending s w₂ →
        w₂.ledger.AddsUp ∧
        w₁.ledger.totalStakes = w₂.ledger.totalStakes + (w₁.ledger.trove b).stake ∧
        ∀ x, s.outgoing.part x + s.spread.part x = e.toHolding.part x ∧
          w₁.ledger.activePool.part x =
            w₂.ledger.activePool.part x + (w₁.ledger.trove b).toHolding.part x := by
  have hr := Deployment.start_ready start
  have h₀ : o.world.ledger.Tallied ∧ o.world.ledger.Balanced 0 := by
    obtain ⟨i, hi⟩ := hr.ledger
    rw [hi]
    exact ⟨Ledger.tallied_new i, Ledger.balanced_new i⟩
  obtain ⟨-, htallied, hbal⟩ := World.after_induction
    (P := fun w n => w.ledger.Tallied ∧ w.ledger.Balanced n) hr.wired outside
    (fun _ _ _ _ _ _ _ hs ⟨ht, hb⟩ => ⟨hs.tallied ht, hs.balanced hb⟩) h₀
  refine ⟨htallied.addsUp hbal, ?_⟩
  intro w₀ price liquidator w₁ t hl hs
  have htallied := hs.tallied (hl ▸ htallied)
  have hbal := hs.balanced (hl ▸ hbal)
  refine ⟨htallied.addsUp hbal, ?_⟩
  intro b e s w₂ due out
  have ht := htallied.liquidate due.active due.position due.exact out.ledger
  have hb := hbal.liquidate due.active (Ledger.entire_ok due.position).1 out.ledger
  refine ⟨ht.addsUp hb, Ledger.liquidate_stakes out.ledger, ?_⟩
  intro x
  exact ⟨due.exact.shared x, due.pool_loses out x⟩

/-- A trove is liquidated and spread over two others; one of these is due with
its rewards pending, and the pool can take a part of its debt. -/
def Deployment.dueWithRewards : List Turn :=
  Turn.opening (.account 1) (20 * Amount.one) (500 * Amount.one) ++
  Turn.opening (.account 2) (5 * Amount.one) (400 * Amount.one) ++
  Turn.opening (.account 3) (5 * Amount.one) (410 * Amount.one) ++
  [.pricing 12100000000, .call (.account 9) (.liquidateOne (.account 3)),
   .call (.account 1) (.provide (100 * Amount.one))]

theorem Deployment.activePool_recorded_dueWithRewards :
    ∃ o, plain.start (some { incentive? := none }) = .ok o ∧
      (∀ t ∈ dueWithRewards, t.outside) ∧
      let w := o.world.after dueWithRewards
      w.ledger.AddsUp ∧
        ∃ e s w', Due w (.account 2) w.feed.lastGood e s ∧
          Protocol.Liquidated w (.account 2) (.account 9) e.pending s w' ∧
          e.pending.debt ≠ 0 ∧ s.debtToOffset ≠ 0 ∧ s.debtToSpread ≠ 0 ∧ w'.ledger.AddsUp := by
  obtain ⟨o, ho, hrun⟩ : ∃ o, plain.start (some { incentive? := none }) = .ok o ∧
      let w := o.world.after dueWithRewards
      (do
        let e ← w.ledger.entire (.account 2)
        let out ← Protocol.liquidateIfDue .usual (.account 2) w.feed.lastGood (.account 9) w
        return (e.pending.debt == 0,
          out.value.map fun (s : Split) => (s.debtToOffset == 0, s.debtToSpread == 0))) =
        .ok (false, some (false, false)) :=
    Checked.exists_ok (by decide +kernel)
  have hout : ∀ t ∈ dueWithRewards, t.outside := by decide +kernel
  have hw := (start_ready ho).wired.after hout
  obtain ⟨hsum, hswept⟩ := activePool_recorded ho hout
  refine ⟨o, ho, hout, hsum, ?_⟩
  generalize o.world.after dueWithRewards = w at *
  simp only [Checked.bind_eq_ok, Checked.pure_eq_ok, Prod.mk.injEq,
    Option.map_eq_some_iff] at hrun
  obtain ⟨e, he, out, hl, hpend, s, hs, hoff, hspread⟩ := hrun
  have attempt := Protocol.ensures_liquidateIfDue hw out hl
  rw [hs] at attempt
  obtain ⟨e', due, gone⟩ := attempt
  obtain rfl : e = e' := Except.ok.inj (he.symm.trans due.position)
  exact ⟨e, s, out.world, due, gone, beq_eq_false_iff_ne.1 hpend,
    beq_eq_false_iff_ne.1 hoff, beq_eq_false_iff_ne.1 hspread, ((hswept rfl .done).2 due gone).1⟩

end Troves
