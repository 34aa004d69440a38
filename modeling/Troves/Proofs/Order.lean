/-
# The order of the list

The list is threaded through the open troves, and every turn keeps it so.  An
opening or a settlement puts one trove into the place of its ratio, a
liquidation takes one out, and none of this moves the ratios of the others.  So
a turn that leaves the index alone leaves a list in order.

A redistribution moves all ratios at once and leaves the list alone.  Whether
it keeps the order depends on how the stakes stand to the positions.
-/
import Troves.Proofs.Places
import Troves.Proofs.Run

namespace Troves

open TroveList (InOrder)

/-! ## Whose ratio moves -/

namespace Ledger

variable {l l' l₁ : Ledger} {a b : Address}

/-- An owner's records are as they were, except perhaps for the slot. -/
structure Retains (l l' : Ledger) (a : Address) : Prop where
  trove : ∃ slot, l'.trove a = { l.trove a with slot }
  mark : l'.mark a = l.mark a

theorem Retains.of_eq (ht : l'.troves = l.troves) (hm : l'.marks = l.marks) :
    l.Retains l' a := by
  refine ⟨⟨(l.trove a).slot, ?_⟩, ?_⟩
  · rw [Ledger.trove, ht]
    rfl
  · rw [Ledger.mark, hm]
    rfl

theorem Retains.refl : l.Retains l a := .of_eq rfl rfl

theorem Retains.trans (h : l.Retains l₁ a) (h' : l₁.Retains l' a) : l.Retains l' a := by
  obtain ⟨_, hs⟩ := h.trove
  obtain ⟨slot, hs'⟩ := h'.trove
  exact ⟨⟨slot, by rw [hs', hs]⟩, h'.mark.trans h.mark⟩

/-- Beside unchanged records an owner's position depends on the index alone. -/
theorem Retains.entire_eq (h : l.Retains l' a) (hi : l'.index = l.index) :
    l'.entire a = l.entire a := by
  obtain ⟨slot, hs⟩ := h.trove
  unfold Ledger.entire Ledger.pending
  rw [hs, h.mark, hi]
  rfl

theorem Retains.nominalRatio_eq (h : l.Retains l' a) (hi : l'.index = l.index) :
    l'.nominalRatio a = l.nominalRatio a := by
  rw [Ledger.nominalRatio, h.entire_eq hi]
  rfl

theorem Enrolled.retains {holding : Holding} (h : Enrolled l a holding l') (hb : b ≠ a) :
    l.Retains l' b :=
  ⟨⟨(l.trove b).slot, h.others b hb⟩, h.marks b hb⟩

theorem SettledIn.retains {s : Accrual.Settlement} (h : SettledIn l a s l') (hb : b ≠ a) :
    l.Retains l' b :=
  ⟨⟨(l.trove b).slot, h.others b hb⟩, h.marks b hb⟩

theorem TakenOut.retains {pending : Holding} (h : TakenOut l a pending l') (hb : b ≠ a) :
    l.Retains l' b :=
  ⟨h.others b hb, h.marks b hb⟩

/-- A liquidation leaves everybody else's records alone, and only the
liquidated trove is closed. -/
theorem liquidate_retains {pending : Holding} {s : Liquidation.Split}
    (h : l.liquidate b pending s = .ok l') :
    (∀ a ≠ b, l.Retains l' a) ∧
      ∀ a, l'.isActive a = true ↔ a ≠ b ∧ l.isActive a = true := by
  obtain ⟨l₁, a₁, l₂, a₂, base, ht, hs, rfl⟩ := liquidate_ok h
  obtain ⟨htroves, hmarks⟩ := spreadOver_records hs
  have hr (a : Address) : l₁.Retains { l₂ with activePool := a₂, baseline := base } a :=
    .of_eq htroves hmarks
  refine ⟨fun a ha => (ht.retains ha).trans (hr a), ?_⟩
  intro a
  obtain ⟨slot, htr⟩ := (hr a).trove
  rw [isActive, htr]
  show l₁.isActive a = true ↔ _
  rw [ht.isActive]
  split <;> simp [*]

/-! ## What the ratio of a trove is -/

/-- An open trove's ratio is that of its recorded amounts with what is due to
its stake, in whole units. -/
theorem nominalRatio_ok {x : Nat} (ha : l.isActive a = true) (hx : l.nominalRatio a = .ok x) :
    Ratio.nominal ((l.trove a).collateral + l.due a .collateral / Amount.one)
      ((l.trove a).debt + l.due a .debt / Amount.one) = .ok x := by
  simp only [nominalRatio, Checked.bind_eq_ok] at hx
  obtain ⟨e, he, hx⟩ := hx
  obtain ⟨hp, hpart⟩ := entire_ok he
  have hcoll : e.collateral = (l.trove a).collateral + l.due a .collateral / Amount.one := by
    rw [← pending_ok ha hp]
    exact hpart .collateral
  have hdebt : e.debt = (l.trove a).debt + l.due a .debt / Amount.one := by
    rw [← pending_ok ha hp]
    exact hpart .debt
  rwa [hcoll, hdebt] at hx

/-- Nothing is due to a trove whose mark stands at the index. -/
theorem nominalRatio_of_mark {x : Nat} (ha : l.isActive a = true) (hm : l.mark a = l.index)
    (hx : l.nominalRatio a = .ok x) :
    Ratio.nominal (l.trove a).collateral (l.trove a).debt = .ok x := by
  have hzero (x : Part) : l.due a x / Amount.one = 0 := by
    rw [due_of_mark hm, Nat.zero_div]
  have hx := nominalRatio_ok ha hx
  rwa [hzero, hzero, Nat.add_zero, Nat.add_zero] at hx

/-- What a settlement makes of a trove has the ratio the trove had with its
rewards pending. -/
theorem settlement_nominalRatio {s : Accrual.Settlement} (ha : l.isActive a = true)
    (hs : l.settlement a = .ok s) :
    l.nominalRatio a = Ratio.nominal s.trove.collateral s.trove.debt := by
  rw [nominalRatio, settlement_entire ha hs]
  rfl

end Ledger

/-! ## The list of the open troves -/

/-- The list is threaded through the owners of the open troves, one after the
other in some sequence. -/
structure World.Threaded (w : World) (xs : List Address) : Prop where
  holds : w.list.Holds xs
  listed : ∀ a, a ∈ xs ↔ w.ledger.isActive a = true

theorem World.Threaded.withFeed {w : World} {xs : List Address} (h : w.Threaded xs)
    (feed : Price.Feed) : World.Threaded { w with feed } xs :=
  ⟨h.holds, h.listed⟩

namespace Protocol

variable {w w' : World} {xs : List Address}

/-- Wherever the hint points, a new trove comes to lie where its ratio
belongs. -/
theorem Opened.listed {a : Address} {holding : Holding} {hint : TroveList.Slot}
    (h : Opened w a holding hint w') (ht : w.Threaded xs) :
    ∃ xs', w'.Threaded xs' ∧ (xs.Pairwise (InOrder w.ledger.nominalRatio) →
      xs'.Pairwise (InOrder w'.ledger.nominalRatio)) := by
  obtain ⟨l, he, pool, -, hl, ratio, hr, hi⟩ := h.enrolled
  have he := Ledger.enroll_ok he
  obtain ⟨ys, zs, rfl, hp, hh, ha⟩ := ht.holds.insert_ok hi
  have hself : l.isActive a = true := by rw [he.isActive, if_pos rfl]
  refine ⟨ys ++ a :: zs, ⟨hh, ?_⟩, ?_⟩
  · intro b
    have hb : w'.ledger.isActive b = l.isActive b := by
      rw [hl]
      rfl
    rw [List.perm_middle.mem_iff, List.mem_cons, ht.listed, hb, he.isActive]
    split <;> simp [*]
  · intro ho
    rw [hl]
    show (ys ++ a :: zs).Pairwise (InOrder l.nominalRatio)
    have hindex : l.index = w.ledger.index := by rw [he.kept]
    have hlive (b) (hb : b ∈ ys ++ zs) : l.nominalRatio b = w.ledger.nominalRatio b :=
      (he.retains fun e => ha (e ▸ hb)).nominalRatio_eq hindex
    refine hp.pairwise ((TroveList.pairwise_inOrder_congr hlive).2 ho) ?_
    intro x hx
    have hx := Ledger.nominalRatio_of_mark hself (he.mark.trans hindex.symm) hx
    rw [he.opened] at hx
    exact Except.ok.inj (hx.symm.trans hr)

/-- A settlement changes no ratio, and the trove stays where its ratio
belongs. -/
theorem Settled.listed {b : Address} {s : Accrual.Settlement} (h : Settled w b s w')
    (ht : w.Threaded xs) :
    ∃ xs', w'.Threaded xs' ∧ (xs.Pairwise (InOrder w.ledger.nominalRatio) →
      xs'.Pairwise (InOrder w'.ledger.nominalRatio)) := by
  have hs := h.booked
  have hact := h.isActive
  have hindex : w'.ledger.index = w.ledger.index := by rw [hs.kept]
  have hb {x : Nat} (hx : w'.ledger.nominalRatio b = .ok x) :
      Ratio.nominal s.trove.collateral s.trove.debt = .ok x := by
    have hx := Ledger.nominalRatio_of_mark ((hact b).trans h.active)
      (hs.mark.trans hindex.symm) hx
    rwa [hs.trove] at hx
  have hlive (a x) (hx : w'.ledger.nominalRatio a = .ok x) : w.ledger.nominalRatio a = .ok x := by
    by_cases hab : a = b
    · subst hab
      rw [Ledger.settlement_nominalRatio h.active h.settlement]
      exact hb hx
    · exact ((hs.retains hab).nominalRatio_eq hindex).symm.trans hx
  have hlist := h.list
  split at hlist
  · refine ⟨xs, ⟨by rw [hlist]; exact ht.holds, fun a => by rw [hact, ht.listed]⟩, ?_⟩
    intro ho
    exact TroveList.pairwise_inOrder_mono (fun a _ => hlive a) ho
  · obtain ⟨ratio, hr, hi⟩ := hlist
    obtain ⟨us, vs, ys, zs, rfl, hsplit, hp, hh⟩ := ht.holds.reposition_ok hi
    have hsub : (us ++ vs).Sublist (us ++ b :: vs) := by simp
    refine ⟨ys ++ b :: zs, ⟨hh, ?_⟩, ?_⟩
    · intro a
      rw [hact, ← ht.listed, List.perm_middle.mem_iff, List.perm_middle.mem_iff, List.mem_cons,
        List.mem_cons, hsplit]
    · intro ho
      have ho := TroveList.pairwise_inOrder_mono (fun a _ => hlive a) (ho.sublist hsub)
      rw [hsplit] at ho
      exact hp.pairwise ho fun x hx => Except.ok.inj ((hb hx).symm.trans hr)

/-- A liquidation takes its trove off the list. -/
theorem Liquidated.threaded {b liquidator : Address} {pending : Holding}
    {s : Liquidation.Split} {ys zs : List Address} (h : Liquidated w b liquidator pending s w')
    (ht : w.Threaded (ys ++ b :: zs)) : w'.Threaded (ys ++ zs) := by
  obtain ⟨-, hact⟩ := Ledger.liquidate_retains h.ledger
  have hperm : (ys ++ b :: zs).Perm (b :: (ys ++ zs)) := List.perm_middle
  have hb : b ∉ ys ++ zs := (List.nodup_cons.1 (hperm.nodup_iff.1 ht.holds.nodup)).1
  refine ⟨ht.holds.detach h.list, fun a => ?_⟩
  rw [hact, ← ht.listed, hperm.mem_iff, List.mem_cons]
  constructor
  · intro ha
    exact ⟨fun e => hb (e ▸ ha), .inr ha⟩
  · rintro ⟨hne, ha⟩
    exact ha.resolve_left hne

/-- A sweep takes some troves out and leaves the records of all others on the
list alone. -/
theorem Sweep.listed {price : Nat} {liquidator : Address} {t t' : Liquidation.Totals}
    (h : Sweep price liquidator w t w' t') (ht : w.Threaded xs) :
    ∃ xs', w'.Threaded xs' ∧ xs'.Sublist xs ∧ ∀ a ∈ xs', w.ledger.Retains w'.ledger a := by
  induction h generalizing xs with
  | done => exact ⟨xs, ht, .refl xs, fun _ _ => .refl⟩
  | @next w w₁ _ _ _ _ b _ _ _ out _ _ ih =>
    obtain ⟨ys, zs, rfl, -⟩ := ht.holds.detach_ok out.list
    obtain ⟨hr, -⟩ := Ledger.liquidate_retains out.ledger
    have hperm : (ys ++ b :: zs).Perm (b :: (ys ++ zs)) := List.perm_middle
    have hb : b ∉ ys ++ zs := (List.nodup_cons.1 (hperm.nodup_iff.1 ht.holds.nodup)).1
    obtain ⟨xs', ht', hsub, hrest⟩ := ih (out.threaded ht)
    refine ⟨xs', ht', hsub.trans (by simp), ?_⟩
    intro a ha
    exact (hr a fun e => hb (e ▸ hsub.subset ha)).trans (hrest a ha)

end Protocol

/-! ## One turn -/

namespace World

variable {w w' : World} {xs xs' : List Address}

theorem Threaded.ascending_iff (h : w.Threaded xs) {live : Address → Checked Nat} :
    w.list.Ascending live ↔ xs.Pairwise (InOrder live) := h.holds.ascending_iff

/-- A walk along the whole list meets the open troves and nobody else. -/
theorem Threaded.mem_forward (h : w.Threaded xs) (a : Address) :
    a ∈ w.list.forward w.list.size ↔ w.ledger.isActive a = true := by
  rw [h.holds.forward, h.holds.size, List.take_length]
  exact h.listed a

/-- How a turn leaves the list: still threaded through the open troves, and in
order, if it was, unless the index moved. -/
structure Relisted (w w' : World) : Prop where
  threaded : ∃ xs, w'.Threaded xs
  ascending : w'.ledger.index = w.ledger.index →
    w.list.Ascending w.ledger.nominalRatio → w'.list.Ascending w'.ledger.nominalRatio

/-- A turn that keeps a sequence in order. -/
theorem Relisted.of_ordered (h : w.Threaded xs)
    (h' : ∃ xs', w'.Threaded xs' ∧ (xs.Pairwise (InOrder w.ledger.nominalRatio) →
      xs'.Pairwise (InOrder w'.ledger.nominalRatio))) : w.Relisted w' := by
  obtain ⟨xs', ht, ho⟩ := h'
  exact ⟨⟨xs', ht⟩, fun _ ha => ht.ascending_iff.2 (ho (h.ascending_iff.1 ha))⟩

/-- A turn that leaves the list and everybody's records alone. -/
theorem Relisted.of_records (h : w.Threaded xs) (hl : w'.list = w.list)
    (hi : w'.ledger.index = w.ledger.index) (ht : w'.ledger.troves = w.ledger.troves)
    (hm : w'.ledger.marks = w.ledger.marks) : w.Relisted w' := by
  have hr (a : Address) : w.ledger.Retains w'.ledger a := .of_eq ht hm
  refine .of_ordered h ⟨xs, ⟨hl ▸ h.holds, ?_⟩, ?_⟩
  · intro a
    obtain ⟨slot, hs⟩ := (hr a).trove
    rw [h.listed, Ledger.isActive, Ledger.isActive, hs]
    rfl
  · intro ho
    exact (TroveList.pairwise_inOrder_congr fun a _ => (hr a).nominalRatio_eq hi).2 ho

/-- Liquidations, which may move the index any number of times. -/
theorem Relisted.of_sweep {w₀ : World} {price : Nat} {liquidator : Address}
    {t t' : Liquidation.Totals} (h : w.Threaded xs) (hw : w₀.ledger = w.ledger)
    (hl : w₀.list = w.list) (hs : Protocol.Sweep price liquidator w₀ t w' t') :
    w.Relisted w' := by
  obtain ⟨xs', ht, hsub, hr⟩ := hs.listed ⟨hl ▸ h.holds, hw ▸ h.listed⟩
  rw [hw] at hr
  refine ⟨⟨xs', ht⟩, ?_⟩
  intro hi ha
  rw [ht.ascending_iff,
    TroveList.pairwise_inOrder_congr fun a ha => (hr a ha).nominalRatio_eq hi]
  exact (h.ascending_iff.1 ha).sublist hsub

end World

/-- Every turn. -/
theorem Step.relisted {w w' : World} {t : Turn} {k : Nat} (h : Step w t k w')
    {xs : List Address} (ht : w.Threaded xs) : w.Relisted w' := by
  cases h with
  | provide h =>
    rw [h.rest]
    exact .of_records ht rfl rfl rfl rfl
  | withdraw h =>
    rw [h.rest]
    exact .of_records ht rfl rfl rfl rfl
  | claim h =>
    rw [h.rest]
    exact .of_records ht rfl rfl rfl rfl
  | borrow h => exact .of_ordered ht (h.listed ht)
  | settle h => exact .of_ordered ht (h.listed ht)
  | liquidate _ h =>
    obtain ⟨d, -, hs⟩ := h.sweep
    refine .of_sweep ht ?_ ?_ hs
    · rfl
    · rfl
  | _ => exact .of_records ht rfl rfl rfl rfl

/-! ## Runs -/

theorem Deployment.Ready.threaded {d : Deployment} {w : World} (h : d.Ready w) :
    w.Threaded [] := by
  obtain ⟨i, hi⟩ := h.ledger
  refine ⟨h.list ▸ TroveList.holds_new _ _, ?_⟩
  intro a
  rw [hi]
  simp only [List.not_mem_nil, false_iff]
  exact Bool.false_ne_true

end Troves
