/-
# The default pool

Redistributed amounts sit in the default pool until the troves they fall to
settle.  `Ledger.Balanced` says what the pool holds: what waits unassigned,
what is due to the open troves, what the last division left over, and what
settlements have stranded by rounding.  Every operation of the ledger keeps
it, a settlement adds less than a unit to what is stranded, and so it holds
after every run.
-/
import Troves.Proofs.Run

namespace Troves

namespace Ledger

variable {l l' : Ledger}

/-- The invariant of the default pool.  Of what it holds, one part waits
unassigned, one part is due to the open troves, one part was left over by the
last division, and at most one unit less a fraction was stranded by each
settlement. -/
structure Balanced (l : Ledger) (settled : Nat) : Prop where
  stakes : l.totalStakes = ∑ a ∈ l.openTroves, (l.trove a).stake
  marks : ∀ a x, l.isActive a = true → (l.mark a).part x ≤ l.index.part x
  pool : ∀ x, ∃ stranded ≤ (Amount.one - 1) * settled,
    Amount.one * l.defaultPool.part x = Amount.one * l.unassigned.part x +
      ∑ a ∈ l.openTroves, l.due a x + l.remainders.part x + stranded

variable {n : Nat}

/-- A ledger that differs only in what the default pool does not depend on. -/
theorem Balanced.congr (h : l.Balanced n) (hk : l' = { l with
    incentive := l'.incentive, activePool := l'.activePool, baseline := l'.baseline }) :
    l'.Balanced n := by
  rw [hk]
  exact ⟨h.stakes, h.marks, h.pool⟩

/-- A new trove starts at the index, so nothing is due to it. -/
theorem Balanced.enroll {a : Address} {holding : Holding} (h : l.Balanced n)
    (ha : l.isActive a = false) (he : Enrolled l a holding l') : l'.Balanced n := by
  have hn : a ∉ l.openTroves := by simp [ha]
  have hi : l'.index = l.index := by rw [he.kept]
  have hne {b : Address} (hb : b ∈ l.openTroves) : b ≠ a := fun e => hn (e ▸ hb)
  refine ⟨?_, ?_, ?_⟩
  · rw [he.stakes, he.openTroves, Finset.sum_insert hn, h.stakes, Nat.add_comm]
    exact congrArg _ (Finset.sum_congr rfl fun b hb => by rw [he.others b (hne hb)])
  · intro b x hb
    rw [he.isActive] at hb
    rw [hi]
    by_cases hab : b = a
    · rw [hab, he.mark]
    · rw [he.marks b hab]
      exact h.marks b x (by simpa [hab] using hb)
  · intro x
    obtain ⟨stranded, hs, hp⟩ := h.pool x
    refine ⟨stranded, hs, ?_⟩
    have hzero : l'.due a x = 0 := due_of_mark (he.mark.trans hi.symm) x
    have hrest : ∑ b ∈ l.openTroves, l'.due b x = ∑ b ∈ l.openTroves, l.due b x :=
      Finset.sum_congr rfl fun b hb => by
        rw [due, growth, he.others b (hne hb), he.marks b (hne hb), hi]
        rfl
    rw [he.openTroves, Finset.sum_insert hn, hzero, hrest, Nat.zero_add, he.kept]
    exact hp

/-- What a settlement strands: the fraction its rounding drops. -/
theorem settlement_bound {m k r : Nat} (hr : r ≤ (Amount.one - 1) * m) :
    r + k % Amount.one ≤ (Amount.one - 1) * (m + 1) := by
  have hk : k % Amount.one ≤ Amount.one - 1 := Nat.le_pred_of_lt (Nat.mod_lt k (by decide))
  rw [Nat.mul_succ]
  exact Nat.add_le_add hr hk

/-- Settled rewards leave the default pool together with the claim on them. -/
theorem Balanced.settle {b : Address} {s : Accrual.Settlement} (h : l.Balanced n)
    (hb : l.isActive b = true) (hs : l.settlement b = .ok s) (ht : SettledIn l b s l') :
    l'.Balanced (n + 1) := by
  obtain ⟨hpend, hmark, -, htrove⟩ := settlement_ok hb hs
  have hact := ht.isActive hb hs
  have hopen := ht.openTroves hb hs
  have hi : l'.index = l.index := by rw [ht.kept]
  have hstake (a : Address) : (l'.trove a).stake = (l.trove a).stake := by
    by_cases ha : a = b
    · rw [ha, ht.trove, htrove]
    · rw [ht.others a ha]
  refine ⟨?_, ?_, ?_⟩
  · rw [hopen]
    simp only [hstake]
    rw [ht.kept]
    exact h.stakes
  · intro a x ha
    rw [hact] at ha
    rw [hi]
    by_cases hab : a = b
    · rw [hab, ht.mark]
    · rw [ht.marks a hab]
      exact h.marks a x ha
  · intro x
    obtain ⟨stranded, hd, hp⟩ := h.pool x
    obtain ⟨hle, hsub⟩ := Holding.part_sub ht.defaultPool x
    have happ : s.applied.part x = l.due b x / Amount.one := pending_ok hb hpend x
    refine ⟨stranded + l.due b x % Amount.one, settlement_bound hd, ?_⟩
    have hzero : l'.due b x = 0 := due_of_mark (ht.mark.trans hi.symm) x
    have hrest : ∑ a ∈ l.openTroves.erase b, l'.due a x = ∑ a ∈ l.openTroves.erase b, l.due a x :=
      Finset.sum_congr rfl fun a ha => by
        have hab := Finset.ne_of_mem_erase ha
        rw [due, growth, ht.others a hab, ht.marks a hab, hi]
        rfl
    have hmem : b ∈ l.openTroves := mem_openTroves.2 hb
    have hsum : ∑ a ∈ l'.openTroves, l'.due a x + l.due b x = ∑ a ∈ l.openTroves, l.due a x := by
      rw [hopen, ← Finset.add_sum_erase _ _ hmem, ← Finset.add_sum_erase l.openTroves _ hmem,
        hzero, hrest, Nat.zero_add, Nat.add_comm]
    have hu : l'.unassigned = l.unassigned := by rw [ht.kept]
    have hr : l'.remainders = l.remainders := by rw [ht.kept]
    have hdm := Nat.div_add_mod (l.due b x) Amount.one
    rw [hsub, happ, hu, hr, Nat.mul_sub, hp]
    omega

/-- A liquidated trove settles once more before it leaves. -/
theorem Balanced.takeOut {b : Address} {pending : Holding} (h : l.Balanced n)
    (hb : l.isActive b = true) (hp : l.pending b = .ok pending) (ht : TakenOut l b pending l') :
    l'.Balanced (n + 1) := by
  have hi : l'.index = l.index := by rw [ht.kept]
  have hmem : b ∈ l.openTroves := mem_openTroves.2 hb
  refine ⟨?_, fun a x ha => ?_, fun x => ?_⟩
  · have hs := ht.stakes
    rw [h.stakes, ← Finset.add_sum_erase l.openTroves _ hmem, ← ht.openTroves] at hs
    have hrest : ∑ a ∈ l'.openTroves, (l'.trove a).stake = ∑ a ∈ l'.openTroves, (l.trove a).stake :=
      Finset.sum_congr rfl fun a ha => by
        rw [ht.openTroves] at ha
        obtain ⟨slot, hslot⟩ := ht.others a (Finset.ne_of_mem_erase ha)
        rw [hslot]
    omega
  · rw [ht.isActive] at ha
    have hab : a ≠ b := fun hab => by simp [hab] at ha
    rw [hi, ht.marks a hab]
    exact h.marks a x (by simpa [hab] using ha)
  · obtain ⟨stranded, hd, hpool⟩ := h.pool x
    obtain ⟨hle, hsub⟩ := Holding.part_sub ht.defaultPool x
    have happ : pending.part x = l.due b x / Amount.one := pending_ok hb hp x
    refine ⟨stranded + l.due b x % Amount.one, settlement_bound hd, ?_⟩
    have hrest : ∑ a ∈ l'.openTroves, l'.due a x = ∑ a ∈ l.openTroves.erase b, l.due a x := by
      rw [ht.openTroves]
      refine Finset.sum_congr rfl ?_
      intro a ha
      have hab := Finset.ne_of_mem_erase ha
      obtain ⟨slot, hslot⟩ := ht.others a hab
      rw [due, growth, hslot, ht.marks a hab, hi]
      rfl
    have hsum := Finset.add_sum_erase l.openTroves (fun a => l.due a x) hmem
    have hu : l'.unassigned = l.unassigned := by rw [ht.kept]
    have hr : l'.remainders = l.remainders := by rw [ht.kept]
    have hdm := Nat.div_add_mod (l.due b x) Amount.one
    rw [hsub, happ, hu, hr, Nat.mul_sub, hpool, hrest]
    omega

/-- A redistribution brings in as much as it promises. -/
theorem Balanced.spreadOver {amount : Holding} (h : l.Balanced n)
    (hs : l.spreadOver amount = .ok l') : l'.Balanced n := by
  rcases spreadOver_ok hs with ⟨-, hd, hp | hs⟩
  · have hk := hp.kept
    refine ⟨by rw [hk]; exact h.stakes, by rw [hk]; exact h.marks, ?_⟩
    intro x
    obtain ⟨stranded, hb, hpool⟩ := h.pool x
    refine ⟨stranded, hb, ?_⟩
    have ho : ∑ a ∈ l'.openTroves, l'.due a x = ∑ a ∈ l.openTroves, l.due a x := by
      rw [hk]
      rfl
    have hr : l'.remainders = l.remainders := by rw [hk]
    rw [hd x, hp.unassigned x, Nat.mul_add, Nat.mul_add, hpool, ho, hr]
    omega
  · have hk := hs.kept
    have hopen : l'.openTroves = l.openTroves := by
      rw [hk]
      rfl
    refine ⟨by rw [hk]; exact h.stakes, ?_, ?_⟩
    · intro a x ha
      have ha : l.isActive a = true := by
        rw [hk] at ha
        exact ha
      have hm : l'.mark a = l.mark a := by
        rw [hk]
        rfl
      rw [hm]
      exact (h.marks a x ha).trans (hs.grown x)
    · intro x
      obtain ⟨stranded, hb, hpool⟩ := h.pool x
      refine ⟨stranded, hb, ?_⟩
      -- every share grows by stake times growth of the index, and the stakes add up
      have hdue : ∑ a ∈ l'.openTroves, l'.due a x =
          ∑ a ∈ l.openTroves, l.due a x +
            l.totalStakes * (l'.index.part x - l.index.part x) := by
        rw [hopen, h.stakes, Finset.sum_mul, ← Finset.sum_add_distrib]
        refine Finset.sum_congr rfl ?_
        intro a ha
        have hm := h.marks a x (mem_openTroves.1 ha)
        have hg := hs.grown x
        have ht : l'.trove a = l.trove a := by
          rw [hk]
          rfl
        have hm' : l'.mark a = l.mark a := by
          rw [hk]
          rfl
        rw [due, due, growth, growth, ht, hm', ← Nat.mul_add]
        congr 1
        omega
      have hdiv := hs.divided x
      rw [Nat.mul_add] at hdiv
      rw [hd x, Nat.mul_add, hpool, hdue, hs.unassigned, Holding.part_empty]
      omega

/-- A liquidation is one settlement. -/
theorem Balanced.liquidate {b : Address} {pending : Holding} {s : Liquidation.Split}
    (h : l.Balanced n) (hb : l.isActive b = true) (hp : l.pending b = .ok pending)
    (hl : l.liquidate b pending s = .ok l') : l'.Balanced (n + 1) := by
  obtain ⟨l₁, a₁, l₂, a₂, base, ht, hs, rfl⟩ := liquidate_ok hl
  have h₁ : Balanced { l₁ with activePool := a₁ } (n + 1) := (h.takeOut hb hp ht).congr rfl
  exact (h₁.spreadOver hs).congr rfl

/-! ## What the invariant promises -/

/-- What a trove's pending rewards come to; nothing where their product does
not fit. -/
def pendingPart (l : Ledger) (a : Address) (x : Part) : Nat :=
  match l.pending a with
  | .ok p => p.part x
  | .error _ => 0

theorem pendingPart_le {a : Address} (ha : l.isActive a = true) (x : Part) :
    Amount.one * l.pendingPart a x ≤ l.due a x := by
  rw [pendingPart]
  cases hp : l.pending a with
  | error e => simp
  | ok p =>
    simp only [pending_ok ha hp x]
    exact Nat.mul_div_le (l.due a x) Amount.one

/-- The pending rewards of all open troves and what waits unassigned are in
the default pool. -/
theorem Balanced.covers (h : l.Balanced n) (x : Part) :
    ∑ a ∈ l.openTroves, l.pendingPart a x + l.unassigned.part x ≤ l.defaultPool.part x := by
  obtain ⟨stranded, -, hp⟩ := h.pool x
  have hle : ∑ a ∈ l.openTroves, Amount.one * l.pendingPart a x ≤ ∑ a ∈ l.openTroves, l.due a x :=
    Finset.sum_le_sum fun a ha => pendingPart_le (mem_openTroves.1 ha) x
  rw [← Finset.mul_sum] at hle
  refine Nat.le_of_mul_le_mul_left ?_ (show 0 < Amount.one by decide)
  rw [Nat.mul_add]
  omega

/-- Neither subtraction of a settlement falls below zero. -/
theorem Balanced.no_underflow (h : l.Balanced n) {a : Address} (ha : l.isActive a = true) :
    (∃ growth, l.index.sub (l.mark a) = .ok growth) ∧
      ∀ p, l.pending a = .ok p → ∃ rest, l.defaultPool.sub p = .ok rest := by
  refine ⟨Holding.sub_of_part_le fun x => h.marks a x ha, ?_⟩
  intro p hp
  refine Holding.sub_of_part_le ?_
  intro x
  have hle := Finset.single_le_sum (f := fun a => l.pendingPart a x)
    (fun _ _ => Nat.zero_le _) (mem_openTroves.2 ha)
  have hpart : l.pendingPart a x = p.part x := by simp [pendingPart, hp]
  have hc := h.covers x
  simp only [hpart] at hle
  omega

end Ledger

/-! ## Runs -/

open Liquidation (Totals)

theorem Protocol.Sweep.balanced {w w' : World} {price : Nat} {liquidator : Address}
    {t t' : Totals} (h : Sweep price liquidator w t w' t') {n : Nat}
    (hb : w.ledger.Balanced (n + t.troves)) : w'.ledger.Balanced (n + t'.troves) := by
  induction h with
  | done => exact hb
  | @next _ _ _ _ t₁ _ _ _ _ due out tally _ ih =>
    refine ih ?_
    have hn : t₁.troves = _ + 1 := add_troves tally
    rw [hn, ← Nat.add_assoc]
    exact hb.liquidate due.active (Ledger.entire_ok due.position).1 out.ledger

/-- A ledger without troves is balanced. -/
theorem Ledger.balanced_new (i : Liquidation.Incentive) :
    Balanced { links? := some .usual, incentive := i } 0 := by
  have hopen : openTroves { links? := some .usual, incentive := i } = ∅ := rfl
  refine ⟨?_, ?_, fun x => ⟨0, le_rfl, ?_⟩⟩
  · rw [hopen, Finset.sum_empty]
  · intro a x ha
    rw [← mem_openTroves, hopen] at ha
    cases ha
  · rw [hopen, Finset.sum_empty]
    simp

theorem Step.balanced {w w' : World} {t : Turn} {k : Nat} (h : Step w t k w') {n : Nat}
    (hb : w.ledger.Balanced n) : w'.ledger.Balanced (n + k) := by
  cases h.onLedger with
  | kept hk =>
    rw [hk]
    exact hb.congr rfl
  | opened ho =>
    obtain ⟨l, he, pool, -, hl, -⟩ := ho.enrolled
    rw [hl]
    exact (hb.enroll ho.inactive (Ledger.enroll_ok he)).congr rfl
  | settled hd =>
    exact hb.settle hd.active hd.settlement hd.booked
  | cleared hc =>
    obtain ⟨d, -, hs⟩ := hc.sweep
    exact hs.balanced (by exact hb)

/-- The default pool's ledger, in every state of every run and for collateral
and debt alike.  What is neither unassigned nor due to an open trove nor left
over is stranded, less than one unit for each settlement; so the pending
rewards are always covered, and no settlement, not even in the middle of a
liquidation call, subtracts more than there is. -/
theorem Deployment.defaultPool_balanced {d : Deployment} {incentive? : Option Liquidation.Incentive}
    {o : Outcome Unit} (start : d.start (some { incentive? }) = .ok o) {ts : List Turn}
    (outside : ∀ t ∈ ts, t.outside) (x : Part) :
    let w := o.world.after ts
    let l := w.ledger
    let settled := o.world.settlements ts
    (l.unassigned.part x ≤ l.defaultPool.part x ∧
      ∃ stranded ≤ (Amount.one - 1) * settled,
        Amount.one * (l.defaultPool.part x - l.unassigned.part x) =
          ∑ a ∈ l.openTroves, (l.trove a).stake * (l.index.part x - (l.mark a).part x) +
            l.remainders.part x + stranded) ∧
    ∑ a ∈ l.openTroves, l.pendingPart a x + l.unassigned.part x ≤ l.defaultPool.part x ∧
    ∀ {price liquidator t w'}, Protocol.Sweep price liquidator w {} w' t →
      ∀ a, w'.ledger.isActive a = true →
        (∃ growth, w'.ledger.index.sub (w'.ledger.mark a) = .ok growth) ∧
          ∀ p, w'.ledger.pending a = .ok p → ∃ rest, w'.ledger.defaultPool.sub p = .ok rest := by
  have hr := Deployment.start_ready start
  have h₀ : o.world.ledger.Balanced 0 := by
    obtain ⟨i, hi⟩ := hr.ledger
    rw [hi]
    exact Ledger.balanced_new i
  obtain ⟨-, h⟩ := World.after_induction (P := fun w n => w.ledger.Balanced n) hr.wired outside
    (fun _ _ _ _ _ _ _ hs hb => hs.balanced hb) h₀
  rw [Nat.zero_add] at h
  have hc := h.covers x
  obtain ⟨stranded, hd, hp⟩ := h.pool x
  refine ⟨⟨by omega, stranded, hd, ?_⟩, hc, ?_⟩
  · show _ = ∑ a ∈ _, Ledger.due _ a x + _ + _
    rw [Nat.mul_sub, hp]
    omega
  · intro price liquidator t w' hs a ha
    exact (hs.balanced (n := o.world.settlements ts) (by exact h)).no_underflow ha

/-- Two troves are opened, one of them is liquidated and spread over the
other, and the other settles. -/
def Deployment.spreadAndSettle : List Turn :=
  Turn.opening (.account 1) (10 * Amount.one) (500 * Amount.one) ++
  Turn.opening (.account 2) (5 * Amount.one) (400 * Amount.one) ++
  [.pricing 12000000000, .call (.account 3) (.liquidateOne (.account 2)),
   .call (.account 1) (.settleRewards (.account 1))]

theorem Deployment.defaultPool_balanced_spreadAndSettle :
    ∃ o, plain.start (some { incentive? := none }) = .ok o ∧
      (∀ t ∈ spreadAndSettle, t.outside) ∧
      o.world.settlements spreadAndSettle = 2 ∧
      ∃ stranded ≤ (Amount.one - 1) * 2,
        let l := (o.world.after spreadAndSettle).ledger
        Amount.one * (l.defaultPool.part .debt - l.unassigned.part .debt) =
          ∑ a ∈ l.openTroves,
              (l.trove a).stake * (l.index.part .debt - (l.mark a).part .debt) +
            l.remainders.part .debt + stranded := by
  obtain ⟨o, ho, hn⟩ : ∃ o, plain.start (some { incentive? := none }) = .ok o ∧
      o.world.settlements spreadAndSettle = 2 := Checked.exists_ok (by decide +kernel)
  have hout : ∀ t ∈ spreadAndSettle, t.outside := by decide +kernel
  obtain ⟨⟨-, stranded, hs, hp⟩, -⟩ := defaultPool_balanced ho hout .debt
  rw [hn] at hs
  exact ⟨o, ho, hout, hn, stranded, hs, hp⟩

end Troves
