/-
# The ledger's books

What each operation leaves behind, said once: which fields change and what
an owner's trove and mark are afterwards.  Collateral and debt are treated
alike, so statements about amounts are made for either `Part`.
-/
import Troves.Proofs.Effects
import Mathlib.Algebra.BigOperators.Group.Finset.Basic
import Mathlib.Algebra.BigOperators.Ring.Finset
import Mathlib.Algebra.Order.BigOperators.Group.Finset
import Mathlib.Tactic.Linarith

namespace Troves

/-! ## The two parts of a holding -/

/-- Collateral or debt. -/
inductive Part where
  | collateral
  | debt
deriving DecidableEq, Repr

namespace Holding

/-- One part of a holding. -/
def part (h : Holding) : Part → Nat
  | .collateral => h.collateral
  | .debt => h.debt

@[simp] theorem part_empty (x : Part) : ({} : Holding).part x = 0 := by
  cases x <;> rfl

theorem part_add {a b c : Holding} (h : a.add b = .ok c) (x : Part) :
    c.part x = a.part x + b.part x := by
  obtain ⟨-, rfl⟩ := add_eq_ok.1 h
  cases x <;> rfl

theorem part_add_lt {a b c : Holding} (h : a.add b = .ok c) (x : Part) :
    a.part x + b.part x < Amount.limit := by
  obtain ⟨⟨hc, hd⟩, -⟩ := add_eq_ok.1 h
  cases x
  · exact hc
  · exact hd

theorem part_sub {a b c : Holding} (h : a.sub b = .ok c) (x : Part) :
    b.part x ≤ a.part x ∧ c.part x = a.part x - b.part x := by
  obtain ⟨⟨hc, hd⟩, rfl⟩ := sub_eq_ok.1 h
  cases x
  · exact ⟨hc, rfl⟩
  · exact ⟨hd, rfl⟩

theorem sub_of_part_le {a b : Holding} (h : ∀ x, b.part x ≤ a.part x) :
    ∃ c, a.sub b = .ok c :=
  ⟨_, sub_eq_ok.2 ⟨⟨h .collateral, h .debt⟩, rfl⟩⟩

end Holding

namespace Ledger

/-! ## Who holds a trove -/

theorem trove_set {l : Ledger} {a b : Address} {t : Trove} :
    (l.troves.set a t).getD b {} = if a = b then t else l.trove b :=
  Table.getD_set l.troves a b t {}

theorem mark_set {l : Ledger} {a b : Address} {m : Holding} :
    (l.marks.set a m).getD b {} = if a = b then m else l.mark b :=
  Table.getD_set l.marks a b m {}

/-- An owner without an entry has the default trove, and that is not open. -/
theorem trove_entry {l : Ledger} {a : Address} (ha : l.isActive a = true) :
    l.troves.get? a = some (l.trove a) := by
  rw [isActive, trove, Table.getD] at *
  cases h : l.troves.get? a with
  | none =>
    rw [h] at ha
    exact absurd ha (by decide)
  | some t => rfl

theorem mem_troves {l : Ledger} {a : Address} (ha : l.isActive a = true) : a ∈ l.troves.keys := by
  by_contra hk
  have he := trove_entry ha
  rw [Table.get?_eq_none.2 hk] at he
  cases he

/-- The owners of open troves. -/
def openTroves (l : Ledger) : Finset Address :=
  l.troves.keys.toFinset.filter fun a => l.isActive a

@[simp] theorem mem_openTroves {l : Ledger} {a : Address} :
    a ∈ l.openTroves ↔ l.isActive a = true := by
  simp only [openTroves, Finset.mem_filter, List.mem_toFinset, and_iff_right_iff_imp]
  exact mem_troves

/-! ## Settling -/

theorem activate_ok {l l' : Ledger} {pending : Holding} (h : l.activate pending = .ok l') :
    ∃ d a, l.defaultPool.sub pending = .ok d ∧ l' = { l with defaultPool := d, activePool := a } ∧
      ∀ x, a.part x = l.activePool.part x + pending.part x := by
  rw [activate] at h
  split at h
  · next hz =>
    cases h
    rw [Holding.isZero_iff] at hz
    subst hz
    refine ⟨l.defaultPool, l.activePool, by simp, rfl, by simp⟩
  · simp only [Checked.bind_eq_ok, Checked.pure_eq_ok] at h
    obtain ⟨d, hd, a, ha, rfl⟩ := h
    exact ⟨d, a, hd, rfl, Holding.part_add ha⟩

/-- How far an index has grown since an owner's last update. -/
def growth (l : Ledger) (a : Address) (x : Part) : Nat :=
  l.index.part x - (l.mark a).part x

/-- What a trove has earned since its last update, before it is rounded
down to whole units. -/
def due (l : Ledger) (a : Address) (x : Part) : Nat :=
  (l.trove a).stake * l.growth a x

/-- Nothing is due to a trove whose mark stands at the index. -/
theorem due_of_mark {l : Ledger} {a : Address} (h : l.mark a = l.index) (x : Part) :
    l.due a x = 0 := by
  rw [due, growth, h, Nat.sub_self, Nat.mul_zero]

theorem accrual_pending_ok {stake : Nat} {mark index p : Holding}
    (h : Accrual.pending stake mark index = .ok p) (x : Part) :
    p.part x = stake * (index.part x - mark.part x) / Amount.one := by
  rw [Accrual.pending] at h
  split at h
  · next hz =>
    cases h
    simp [hz]
  · simp only [Accrual.share, Checked.bind_eq_ok, Checked.pure_eq_ok, Holding.sub_eq_ok,
      Amount.mulDiv_eq_ok] at h
    obtain ⟨-, ⟨-, rfl⟩, -, ⟨-, -, rfl⟩, -, ⟨-, -, rfl⟩, rfl⟩ := h
    cases x <;> rfl

theorem pending_ok {l : Ledger} {a : Address} {p : Holding} (ha : l.isActive a = true)
    (h : l.pending a = .ok p) (x : Part) : p.part x = l.due a x / Amount.one := by
  rw [pending] at h
  rw [if_pos (by exact ha)] at h
  exact accrual_pending_ok h x

theorem entire_ok {l : Ledger} {a : Address} {e : Entire} (h : l.entire a = .ok e) :
    l.pending a = .ok e.pending ∧
      ∀ x, e.toHolding.part x = (l.trove a).toHolding.part x + e.pending.part x := by
  simp only [entire, Checked.bind_eq_ok, Checked.pure_eq_ok] at h
  obtain ⟨p, hp, t, ht, rfl⟩ := h
  exact ⟨hp, Holding.part_add ht⟩

/-- Settling an open trove adds what it has earned and moves its mark to the
index. -/
theorem accrual_settle_ok {t : Trove} {mark index : Holding} {s : Accrual.Settlement}
    (ht : t.isActive = true) (h : Accrual.settle t mark index = .ok s) :
    Accrual.pending t.stake mark index = .ok s.applied ∧ s.mark = index ∧
      t.toHolding.add s.applied = .ok s.trove.toHolding ∧
      s.trove = { t with toHolding := s.trove.toHolding } := by
  rw [Accrual.settle, if_pos ht] at h
  simp only [Checked.bind_eq_ok, Checked.pure_eq_ok] at h
  obtain ⟨p, hp, holding, hadd, rfl⟩ := h
  exact ⟨hp, rfl, hadd, rfl⟩

theorem settlement_ok {l : Ledger} {a : Address} {s : Accrual.Settlement}
    (ha : l.isActive a = true) (h : l.settlement a = .ok s) :
    l.pending a = .ok s.applied ∧ s.mark = l.index ∧
      (l.trove a).toHolding.add s.applied = .ok s.trove.toHolding ∧
      s.trove = { l.trove a with toHolding := s.trove.toHolding } := by
  obtain ⟨hp, hsettled⟩ := accrual_settle_ok (by exact ha) h
  refine ⟨?_, hsettled⟩
  rw [pending]
  rw [if_pos (by exact ha)]
  exact hp

/-- Nothing is due to a trove whose mark stands at the index. -/
theorem pending_of_mark {l : Ledger} {a : Address} (ha : l.isActive a = true) (hm : l.mark a = l.index) :
    l.pending a = .ok {} := by
  have hone : Amount.one ≠ 0 := by decide
  have hshare : Accrual.share (l.trove a).stake 0 = .ok 0 := by
    simp [Accrual.share, hone, Amount.limit]
  rw [pending, hm]
  rw [if_pos (by exact ha), Accrual.pending]
  split
  · rfl
  · simp only [Checked.bind_eq_ok, Checked.pure_eq_ok, Holding.sub_eq_ok]
    refine ⟨{}, ⟨⟨le_rfl, le_rfl⟩, ?_⟩, 0, hshare, 0, hshare, rfl⟩
    rw [Nat.sub_self, Nat.sub_self]

section Settlement

variable {l : Ledger} {b : Address} {s : Accrual.Settlement}

theorem settlement_of_pending {p holding : Holding} (hb : l.isActive b = true)
    (hp : l.pending b = .ok p) (hadd : (l.trove b).toHolding.add p = .ok holding) :
    l.settlement b = .ok
      { trove := { l.trove b with toHolding := holding }, mark := l.index, applied := p } := by
  rw [Ledger.pending, if_pos (by exact hb)] at hp
  rw [settlement, Accrual.settle, if_pos (by exact hb)]
  simp only [Checked.bind_eq_ok, Checked.pure_eq_ok]
  exact ⟨p, hp, holding, hadd, rfl⟩

/-- What a settlement makes of a trove is what the trove was with its rewards
pending. -/
theorem settlement_entire (hb : l.isActive b = true) (hs : l.settlement b = .ok s) :
    l.entire b = .ok { toHolding := s.trove.toHolding, pending := s.applied } := by
  obtain ⟨hp, -, hadd, -⟩ := settlement_ok hb hs
  simp only [entire, Checked.bind_eq_ok, Checked.pure_eq_ok]
  exact ⟨s.applied, hp, s.trove.toHolding, hadd, rfl⟩

/-- Adding nothing to it does not overflow. -/
theorem settlement_fits (hb : l.isActive b = true) (hs : l.settlement b = .ok s) :
    s.trove.toHolding.add {} = .ok s.trove.toHolding := by
  obtain ⟨-, -, hadd, -⟩ := settlement_ok hb hs
  obtain ⟨⟨hc, hd⟩, heq⟩ := Holding.add_eq_ok.1 hadd
  rw [heq, Holding.add_eq_ok]
  exact ⟨⟨hc, hd⟩, rfl⟩

end Settlement

/-- A trove entered in the books. -/
structure Enrolled (l : Ledger) (a : Address) (holding : Holding) (l' : Ledger) : Prop where
  stakeFor : Accrual.stakeFor holding.collateral l.baseline = .ok (l'.trove a).stake
  stakes : l'.totalStakes = l.totalStakes + (l'.trove a).stake
  opened : l'.trove a =
    { toHolding := holding, stake := (l'.trove a).stake, status := .active,
      slot := l.owners.length }
  others : ∀ b ≠ a, l'.trove b = l.trove b
  mark : l'.mark a = l.index
  marks : ∀ b ≠ a, l'.mark b = l.mark b
  kept : l' = { l with
    totalStakes := l'.totalStakes, troves := l'.troves, marks := l'.marks, owners := l'.owners }

theorem enroll_ok {l l' : Ledger} {a : Address} {holding : Holding}
    (h : l.enroll a holding = .ok l') : Enrolled l a holding l' := by
  simp only [enroll, Checked.bind_eq_ok, Checked.pure_eq_ok, Amount.add_eq_ok] at h
  obtain ⟨stake, hs, _, ⟨-, rfl⟩, hl⟩ := h
  have ht : ∀ b, l'.trove b = if a = b then
      { toHolding := holding, stake, status := .active, slot := l.owners.length }
      else l.trove b := fun b => by
    rw [← hl]
    exact trove_set
  have hm : ∀ b, l'.mark b = if a = b then l.index else l.mark b := fun b => by
    rw [← hl]
    exact mark_set
  have hself := (ht a).trans (if_pos rfl)
  refine ⟨?_, ?_, ?_, ?_, ?_, ?_, ?_⟩
  · rw [hself]
    exact hs
  · rw [hself, ← hl]
  · rw [hself]
  · intro b hb
    exact (ht b).trans (if_neg hb.symm)
  · exact (hm a).trans (if_pos rfl)
  · intro b hb
    exact (hm b).trans (if_neg hb.symm)
  · rw [← hl]

theorem enroll_owners {l l' : Ledger} {a : Address} {holding : Holding}
    (h : l.enroll a holding = .ok l') : l'.owners = l.owners ++ [a] := by
  simp only [enroll, Checked.bind_eq_ok, Checked.pure_eq_ok] at h
  obtain ⟨_, -, _, -, rfl⟩ := h
  rfl

/-- A trove's rewards settled in the books: they are in the trove and in the
active pool, and its mark stands at the index. -/
structure SettledIn (l : Ledger) (b : Address) (s : Accrual.Settlement) (l' : Ledger) :
    Prop where
  defaultPool : l.defaultPool.sub s.applied = .ok l'.defaultPool
  activePool : ∀ x, l'.activePool.part x = l.activePool.part x + s.applied.part x
  trove : l'.trove b = s.trove
  others : ∀ a ≠ b, l'.trove a = l.trove a
  mark : l'.mark b = l.index
  marks : ∀ a ≠ b, l'.mark a = l.mark a
  kept : l' = { l with
    defaultPool := l'.defaultPool, activePool := l'.activePool, troves := l'.troves,
    marks := l'.marks }

theorem settle_ok {l l' : Ledger} {b : Address} {s : Accrual.Settlement}
    (hb : l.isActive b = true) (hs : l.settlement b = .ok s) (h : l.settle b s = .ok l') :
    SettledIn l b s l' := by
  obtain ⟨-, hmark, hadd, htrove⟩ := settlement_ok hb hs
  rw [settle] at h
  by_cases hz : s.applied.isZero = true
  · -- nothing was earned, so the trove is as it was
    rw [if_pos hz] at h
    cases h
    rw [Holding.isZero_iff] at hz
    have hsame : s.trove = l.trove b := by
      rw [htrove]
      rw [hz, Holding.add_eq_ok] at hadd
      simp [hadd.2]
    refine ⟨by simp [hz], by simp [hz], hsame.symm, fun _ _ => rfl, ?_, ?_, rfl⟩
    · exact (mark_set.trans (if_pos rfl)).trans hmark
    · intro a ha
      exact mark_set.trans (if_neg ha.symm)
  · rw [if_neg hz] at h
    simp only [Checked.bind_eq_ok, Checked.pure_eq_ok] at h
    obtain ⟨l₁, h₁, rfl⟩ := h
    obtain ⟨d, a, hd, rfl, ha⟩ := activate_ok h₁
    refine ⟨hd, ha, ?_, ?_, ?_, ?_, rfl⟩
    · exact trove_set.trans (if_pos rfl)
    · intro a ha
      exact trove_set.trans (if_neg ha.symm)
    · exact (mark_set.trans (if_pos rfl)).trans hmark
    · intro a ha
      exact mark_set.trans (if_neg ha.symm)

/-! ## Closing -/

/-- A trove taken out of the books; the others keep everything but, at most,
their slot. -/
structure TakenOut (l : Ledger) (b : Address) (pending : Holding) (l' : Ledger) : Prop where
  defaultPool : l.defaultPool.sub pending = .ok l'.defaultPool
  activePool : ∀ x, l'.activePool.part x = l.activePool.part x + pending.part x
  stakes : l.totalStakes = l'.totalStakes + (l.trove b).stake
  closed : l'.trove b = { status := .closedByLiquidation }
  others : ∀ a ≠ b, ∃ slot, l'.trove a = { l.trove a with slot }
  marks : ∀ a ≠ b, l'.mark a = l.mark a
  kept : l' = { l with
    defaultPool := l'.defaultPool, activePool := l'.activePool, totalStakes := l'.totalStakes,
    troves := l'.troves, marks := l'.marks, owners := l'.owners }

theorem vacate_trove {l : Ledger} {slot : Nat} (a : Address) :
    ∃ slot', (l.vacate slot).trove a = { l.trove a with slot := slot' } := by
  rw [vacate]
  split
  · exact ⟨_, rfl⟩
  · split
    · exact ⟨_, rfl⟩
    · next moved _ =>
      by_cases h : moved = a
      · subst h
        exact ⟨slot, by simp only [trove, Table.getD_set, if_pos]⟩
      · exact ⟨_, by simp only [trove, Table.getD_set, if_neg h]; rfl⟩

theorem vacate_kept {l : Ledger} {slot : Nat} :
    l.vacate slot =
      { l with troves := (l.vacate slot).troves, owners := (l.vacate slot).owners } := by
  rw [vacate]
  split
  · rfl
  · split <;> rfl

theorem close_trove_self {l : Ledger} {b : Address} {st : Trove.Status} :
    (l.close b st).trove b = { status := st } := by
  simp only [close, trove, Table.getD_set, if_pos]

theorem close_trove_other {l : Ledger} {a b : Address} {st : Trove.Status} (h : a ≠ b) :
    ∃ slot, (l.close b st).trove a = { l.trove a with slot } := by
  obtain ⟨slot, hs⟩ : ∃ slot, (l.vacate (l.trove b).slot).trove a = { l.trove a with slot } :=
    vacate_trove a
  refine ⟨slot, ?_⟩
  rw [← hs]
  simp only [close, trove, Table.getD_set, if_neg h.symm]

theorem close_mark_other {l : Ledger} {a b : Address} {st : Trove.Status} (h : a ≠ b) :
    (l.close b st).mark a = l.mark a := by
  simp only [close, mark, Table.getD_set, if_neg h.symm]
  rw [vacate_kept]

theorem close_kept {l : Ledger} {b : Address} {st : Trove.Status} :
    l.close b st = { l with
      troves := (l.close b st).troves
      marks := (l.close b st).marks
      owners := (l.close b st).owners } := by
  rw [close]
  rw [vacate_kept]

theorem takeOut_ok {l l' : Ledger} {b : Address} {pending : Holding}
    (h : l.takeOut b pending = .ok l') : TakenOut l b pending l' := by
  simp only [takeOut, dropStake, Checked.bind_eq_ok, Checked.pure_eq_ok, Amount.sub_eq_ok] at h
  obtain ⟨l₁, h₁, l₂, ⟨stakes, ⟨hle, rfl⟩, rfl⟩, rfl⟩ := h
  obtain ⟨d, a, hd, rfl, ha⟩ := activate_ok h₁
  have hle : (l.trove b).stake ≤ l.totalStakes := hle
  constructor
  · rw [close_kept]
    exact hd
  · rw [close_kept]
    exact ha
  · rw [close_kept]
    exact (Nat.sub_add_cancel hle).symm
  · exact close_trove_self
  · intro a hab
    obtain ⟨slot, hs⟩ := close_trove_other hab
    refine ⟨slot, ?_⟩
    rw [hs]
    simp only [trove, Table.getD_set, if_neg hab.symm]
  · intro a hab
    rw [close_mark_other hab]
    rfl
  · rw [close_kept]

/-! ## How the open troves change -/

section Open

variable {l l' : Ledger} {a b : Address} {holding pending : Holding} {s : Accrual.Settlement}

theorem Enrolled.isActive (h : Enrolled l a holding l') (b : Address) :
    l'.isActive b = if b = a then true else l.isActive b := by
  unfold Ledger.isActive
  split
  · next hb =>
    rw [hb, h.opened]
    rfl
  · next hb => rw [h.others b hb]

theorem Enrolled.openTroves (h : Enrolled l a holding l') :
    l'.openTroves = insert a l.openTroves := by
  ext b
  rw [mem_openTroves, h.isActive, Finset.mem_insert, mem_openTroves]
  split <;> simp [*]

theorem SettledIn.isActive (h : SettledIn l b s l') (hb : l.isActive b = true)
    (hs : l.settlement b = .ok s) (a : Address) : l'.isActive a = l.isActive a := by
  unfold Ledger.isActive
  by_cases ha : a = b
  · rw [ha, h.trove, (settlement_ok hb hs).2.2.2]
    rfl
  · rw [h.others a ha]

theorem SettledIn.openTroves (h : SettledIn l b s l') (hb : l.isActive b = true)
    (hs : l.settlement b = .ok s) : l'.openTroves = l.openTroves := by
  ext a
  rw [mem_openTroves, mem_openTroves, h.isActive hb hs]

theorem TakenOut.isActive (h : TakenOut l b pending l') (a : Address) :
    l'.isActive a = if a = b then false else l.isActive a := by
  rw [Ledger.isActive]
  split
  · next ha =>
    rw [ha, h.closed]
    rfl
  · next ha =>
    obtain ⟨slot, hs⟩ := h.others a ha
    rw [hs]
    rfl

theorem TakenOut.openTroves (h : TakenOut l b pending l') :
    l'.openTroves = l.openTroves.erase b := by
  ext a
  rw [mem_openTroves, h.isActive, Finset.mem_erase, mem_openTroves]
  split <;> simp [*]

end Open

/-! ## Redistributions -/

/-- An amount set aside for the next redistribution. -/
structure Parked (l : Ledger) (amount : Holding) (l' : Ledger) : Prop where
  unassigned : ∀ x, l'.unassigned.part x = l.unassigned.part x + amount.part x
  kept : l' = { l with
    unassigned := l'.unassigned, activePool := l'.activePool, defaultPool := l'.defaultPool }

/-- An amount shared out over all stakes, together with what was set aside
and what the divisions left over before. -/
structure Shared (l : Ledger) (amount : Holding) (l' : Ledger) : Prop where
  stakes : l.totalStakes ≠ 0
  grown : ∀ x, l.index.part x ≤ l'.index.part x
  divided : ∀ x, Amount.one * (amount.part x + l.unassigned.part x) + l.remainders.part x =
    l.totalStakes * (l'.index.part x - l.index.part x) + l'.remainders.part x
  unassigned : l'.unassigned = {}
  kept : l' = { l with
    index := l'.index, remainders := l'.remainders, unassigned := l'.unassigned,
    activePool := l'.activePool, defaultPool := l'.defaultPool }

theorem spread_ok {amount carried : Holding} {stakes : Nat} {s : Accrual.Spread}
    (h : Accrual.spread? amount stakes carried = .ok (some s)) :
    amount.debt ≠ 0 ∧ stakes ≠ 0 ∧ ∀ x, Amount.one * amount.part x + carried.part x =
      stakes * s.perUnit.part x + s.remainders.part x := by
  rw [Accrual.spread?] at h
  by_cases hn : amount.debt = 0 ∨ stakes = 0
  · rw [if_pos hn] at h
    simp at h
  · rw [if_neg hn] at h
    rw [not_or] at hn
    simp only [Checked.bind_eq_ok, Checked.pure_eq_ok, Amount.add_eq_ok, Amount.mul_eq_ok,
      Option.some.injEq] at h
    obtain ⟨c₀, ⟨-, hc₀⟩, c, ⟨-, hc⟩, d₀, ⟨-, hd₀⟩, d, ⟨-, hd⟩, rfl⟩ := h
    refine ⟨hn.1, hn.2, ?_⟩
    intro x
    cases x with
    | collateral =>
      show Amount.one * amount.collateral + carried.collateral = stakes * (c / stakes) + c % stakes
      rw [Nat.div_add_mod, hc, hc₀, Nat.mul_comm]
    | debt =>
      show Amount.one * amount.debt + carried.debt = stakes * (d / stakes) + d % stakes
      rw [Nat.div_add_mod, hd, hd₀, Nat.mul_comm]

theorem spreadOver_ok {l l' : Ledger} {amount : Holding} (h : l.spreadOver amount = .ok l') :
    (∀ x, amount.part x ≤ l.activePool.part x ∧
      l'.activePool.part x = l.activePool.part x - amount.part x) ∧
    (∀ x, l'.defaultPool.part x = l.defaultPool.part x + amount.part x) ∧
    (Parked l amount l' ∨ Shared l amount l') := by
  rw [spreadOver] at h
  by_cases hz : amount.isZero = true
  · rw [if_pos hz] at h
    cases h
    rw [Holding.isZero_iff] at hz
    subst hz
    exact ⟨by simp, by simp, .inl ⟨by simp, rfl⟩⟩
  · rw [if_neg hz] at h
    simp only [spread?, Checked.bind_eq_ok] at h
    obtain ⟨s?, ⟨t, ht, hs⟩, h⟩ := h
    cases s? with
    | none =>
      simp only [bookSpread, Checked.bind_eq_ok, Checked.pure_eq_ok] at h
      obtain ⟨u, hu, -, rfl, a, ha, d, hd, rfl⟩ := h
      exact ⟨Holding.part_sub ha, Holding.part_add hd, .inl ⟨Holding.part_add hu, rfl⟩⟩
    | some s =>
      simp only [bookSpread, Checked.bind_eq_ok, Checked.pure_eq_ok] at h
      obtain ⟨i, hi, -, rfl, a, ha, d, hd, rfl⟩ := h
      obtain ⟨-, hn, hs⟩ := spread_ok hs
      refine ⟨Holding.part_sub ha, Holding.part_add hd,
        .inr ⟨hn, fun x => ?_, fun x => ?_, rfl, rfl⟩⟩
      · have hi := Holding.part_add hi x
        show l.index.part x ≤ i.part x
        omega
      · have hs := hs x
        rw [Holding.part_add ht x] at hs
        show _ = l.totalStakes * (i.part x - _) + _
        rw [hs, Holding.part_add hi x, Nat.add_sub_cancel_left]

theorem spreadOver_records {l l' : Ledger} {amount : Holding} (h : l.spreadOver amount = .ok l') :
    l'.troves = l.troves ∧ l'.marks = l.marks := by
  rcases spreadOver_ok h with ⟨-, -, hp | hs⟩
  · rw [hp.kept]
    exact ⟨rfl, rfl⟩
  · rw [hs.kept]
    exact ⟨rfl, rfl⟩

theorem release_ok {l l' : Ledger} {amount : Holding} (h : l.release amount = .ok l') :
    ∃ a, l.activePool.sub amount = .ok a ∧ l' = { l with activePool := a } := by
  simp only [release, Checked.bind_eq_ok, Checked.pure_eq_ok] at h
  obtain ⟨a, ha, rfl⟩ := h
  exact ⟨a, ha, rfl⟩

theorem rebase_ok {l l' : Ledger} {outgoing : Nat} (h : l.rebase outgoing = .ok l') :
    outgoing ≤ l.activePool.collateral ∧ l' = { l with baseline := {
      stakes := l.totalStakes
      collateral := l.activePool.collateral - outgoing + l.defaultPool.collateral } } := by
  simp only [rebase, Checked.bind_eq_ok, Checked.pure_eq_ok, Amount.sub_eq_ok,
    Amount.add_eq_ok] at h
  obtain ⟨-, ⟨hle, rfl⟩, -, ⟨-, rfl⟩, rfl⟩ := h
  exact ⟨hle, rfl⟩

/-! ## Liquidations -/

theorem releaseOffset_ok {l l' : Ledger} {s : Liquidation.Split}
    (h : l.releaseOffset s = .ok l') : ∃ a, l' = { l with activePool := a } := by
  rw [releaseOffset] at h
  split at h
  · cases h
    exact ⟨l.activePool, rfl⟩
  · obtain ⟨a, -, rfl⟩ := release_ok h
    exact ⟨a, rfl⟩

theorem releaseSurplus_ok {l l' : Ledger} {amount : Nat}
    (h : l.releaseSurplus amount = .ok l') : ∃ a, l' = { l with activePool := a } := by
  rw [releaseSurplus] at h
  split at h
  · cases h
    exact ⟨l.activePool, rfl⟩
  · obtain ⟨a, -, rfl⟩ := release_ok h
    exact ⟨a, rfl⟩

/-- A liquidation takes the trove out and spreads what is to be spread; apart
from that only the active pool and the baseline change. -/
theorem liquidate_ok {l l' : Ledger} {b : Address} {pending : Holding} {s : Liquidation.Split}
    (h : l.liquidate b pending s = .ok l') :
    ∃ l₁ a₁ l₂ a₂ base, TakenOut l b pending l₁ ∧
      spreadOver { l₁ with activePool := a₁ }
        { collateral := s.collateralToSpread, debt := s.debtToSpread } = .ok l₂ ∧
      l' = { l₂ with activePool := a₂, baseline := base } := by
  simp only [liquidate, Checked.bind_eq_ok] at h
  obtain ⟨l₁, h₁, _, ho, l₂, h₂, _, hs, _, hb, hr⟩ := h
  obtain ⟨a₁, rfl⟩ := releaseOffset_ok ho
  obtain ⟨a₂, rfl⟩ := releaseSurplus_ok hs
  obtain ⟨-, rfl⟩ := rebase_ok hb
  obtain ⟨a₃, -, rfl⟩ := release_ok hr
  exact ⟨l₁, a₁, l₂, a₃, _, takeOut_ok h₁, h₂, rfl⟩

/-! ## What no operation touches -/

theorem spreadOver_links {l l' : Ledger} {amount : Holding}
    (h : l.spreadOver amount = .ok l') : l'.links? = l.links? := by
  rcases spreadOver_ok h with ⟨-, -, hp | hs⟩
  · rw [hp.kept]
  · rw [hs.kept]

theorem spreadOver_stakes {l l' : Ledger} {amount : Holding}
    (h : l.spreadOver amount = .ok l') : l'.totalStakes = l.totalStakes := by
  rcases spreadOver_ok h with ⟨-, -, hp | hs⟩
  · rw [hp.kept]
  · rw [hs.kept]

theorem liquidate_links {l l' : Ledger} {b : Address} {pending : Holding}
    {s : Liquidation.Split} (h : l.liquidate b pending s = .ok l') : l'.links? = l.links? := by
  obtain ⟨l₁, a₁, l₂, a₂, base, ht, hs, rfl⟩ := liquidate_ok h
  rw [spreadOver_links hs, ht.kept]

end Ledger

end Troves
