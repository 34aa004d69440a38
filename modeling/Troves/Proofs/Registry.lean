/-
# The registers of open troves

Who has an open trove is written down three times: in the status of the
trove, in the list, and in the owners, where every trove names the slot of
its own entry.  Closing a trove frees a slot in the middle of the owners; the
last of them moves into it, and the trove that moved is written anew with its
new slot.

`Ledger.Registered` says that the owners and the troves name each other, and
that nothing is left of a trove once it is closed.  Together with the list,
which is threaded through the open troves, the three agree after every run.
-/
import Troves.Proofs.ActivePool
import Troves.Proofs.Order

namespace Troves

namespace Ledger

variable {l l' : Ledger} {a b : Address}

/-- Each owner has an open trove that names the owner's slot, and every open
trove is named by its slot; of any other trove nothing but its status
remains. -/
structure Registered (l : Ledger) : Prop where
  slots : ∀ i a, l.owners[i]? = some a ↔ l.isActive a = true ∧ (l.trove a).slot = i
  cleared : ∀ a, l.isActive a = false →
    l.trove a = { status := (l.trove a).status } ∧ l.mark a = {}

/-! ## What the registers say -/

namespace Registered

theorem owner (h : l.Registered) (ha : l.isActive a = true) :
    l.owners[(l.trove a).slot]? = some a :=
  (h.slots _ a).2 ⟨ha, rfl⟩

theorem mem_owners (h : l.Registered) : a ∈ l.owners ↔ l.isActive a = true := by
  rw [List.mem_iff_getElem?]
  constructor
  · rintro ⟨i, hi⟩
    exact ((h.slots i a).1 hi).1
  · exact fun ha => ⟨_, h.owner ha⟩

/-- An owner stands at one slot only, the one the trove names. -/
theorem nodup (h : l.Registered) : l.owners.Nodup := by
  rw [List.nodup_iff_getElem?_ne_getElem?]
  intro i j hij hj he
  obtain ⟨a, ha⟩ : ∃ a, l.owners[j]? = some a := ⟨_, List.getElem?_eq_getElem hj⟩
  have hi := ((h.slots i a).1 (he.trans ha)).2
  have hj := ((h.slots j a).1 ha).2
  omega

/-- Two open troves do not name one slot. -/
theorem slot_inj (h : l.Registered) (ha : l.isActive a = true) (hb : l.isActive b = true)
    (he : (l.trove a).slot = (l.trove b).slot) : a = b := by
  have hslot := h.owner ha
  rw [he, h.owner hb] at hslot
  exact (Option.some.inj hslot).symm

theorem slot_lt (h : l.Registered) (ha : l.isActive a = true) :
    (l.trove a).slot < l.owners.length := by
  obtain ⟨hlt, -⟩ := List.getElem?_eq_some_iff.1 (h.owner ha)
  exact hlt

/-! ## Operations that close no trove -/

/-- The registers do not depend on what an open trove holds. -/
theorem congr (h : l.Registered) (owners : l'.owners = l.owners)
    (active : ∀ a, l'.isActive a = l.isActive a)
    (slot : ∀ a, (l'.trove a).slot = (l.trove a).slot)
    (idle : ∀ a, l.isActive a = false → l'.trove a = l.trove a ∧ l'.mark a = l.mark a) :
    l'.Registered := by
  refine ⟨?_, ?_⟩
  · intro i a
    rw [owners, active, slot]
    exact h.slots i a
  · intro a ha
    rw [active] at ha
    obtain ⟨ht, hm⟩ := idle a ha
    rw [ht, hm]
    exact h.cleared a ha

theorem of_eq (h : l.Registered) (owners : l'.owners = l.owners) (troves : l'.troves = l.troves)
    (marks : l'.marks = l.marks) : l'.Registered := by
  have ht (a : Address) : l'.trove a = l.trove a := by
    rw [trove, troves]
    rfl
  refine h.congr owners ?_ ?_ ?_
  · intro a
    rw [isActive, ht]
    rfl
  · intro a
    rw [ht]
  · intro a _
    refine ⟨ht a, ?_⟩
    rw [mark, marks]
    rfl

/-- A new trove gets the slot behind all others. -/
theorem enroll {holding : Holding} (h : l.Registered) (ha : l.isActive a = false)
    (he : Enrolled l a holding l') (ho : l'.owners = l.owners ++ [a]) : l'.Registered := by
  have hself : (l'.trove a).slot = l.owners.length := by rw [he.opened]
  refine ⟨?_, ?_⟩
  · intro i b
    rw [ho, he.isActive]
    by_cases hb : b = a
    · subst hb
      have hn (i : Nat) : l.owners[i]? ≠ some b := fun hi => by
        simpa [ha] using ((h.slots i b).1 hi).1
      rw [hself, if_pos rfl, List.getElem?_append]
      split
      · next hlt => simpa [hn i] using hlt.ne'
      · simp only [List.getElem?_singleton]
        grind
    · rw [if_neg hb, he.others b hb, ← h.slots, List.getElem?_append]
      split
      · rfl
      · next hge =>
        rw [List.getElem?_eq_none (Nat.le_of_not_lt hge)]
        simp only [List.getElem?_singleton]
        grind
  · intro b hb
    rw [he.isActive] at hb
    have hne : b ≠ a := fun e => by simp [e] at hb
    rw [if_neg hne] at hb
    rw [he.others b hne, he.marks b hne]
    exact h.cleared b hb

/-- A settlement writes into one open trove and leaves its slot alone. -/
theorem settle {s : Accrual.Settlement} (h : l.Registered) (hb : l.isActive b = true)
    (hs : l.settlement b = .ok s) (ht : SettledIn l b s l') : l'.Registered := by
  obtain ⟨-, -, -, htrove⟩ := settlement_ok hb hs
  refine h.congr (by rw [ht.kept]) (ht.isActive hb hs) ?_ ?_
  · intro a
    by_cases ha : a = b
    · rw [ha, ht.trove, htrove]
    · rw [ht.others a ha]
  · intro a ha
    have hne : a ≠ b := fun e => by simp [e, hb] at ha
    exact ⟨ht.others a hne, ht.marks a hne⟩

end Registered

/-! ## Closing a trove -/

/-- The last owner moves into the slot that is freed, and the rest stay where
they are. -/
theorem vacate_owners {slot : Nat} (hs : slot < l.owners.length) (i : Nat) :
    (l.vacate slot).owners[i]? =
      if i < l.owners.length - 1 then
        if i = slot then l.owners.getLast? else l.owners[i]?
      else none := by
  rw [vacate]
  split
  · next hlast =>
    rw [List.getElem?_dropLast]
    grind
  · obtain ⟨m, hm⟩ : ∃ m, l.owners.getLast? = some m :=
      ⟨_, List.getLast?_eq_some_getLast (List.ne_nil_of_length_pos (by omega))⟩
    simp only [hm, List.getElem?_dropLast, List.length_set, List.getElem?_set]
    grind

/-- Freeing a slot writes it into the last owner's trove, and changes no other
trove. -/
theorem vacate_moved {m : Address} (hm : l.owners.getLast? = some m) {slot : Nat}
    (hs : slot = l.owners.length - 1 → (l.trove m).slot = slot) (a : Address) :
    (l.vacate slot).trove a = if a = m then { l.trove a with slot } else l.trove a := by
  rw [vacate]
  split
  · next hlast =>
    show l.trove a = _
    split
    · next ha => rw [ha, ← hs hlast]
    · rfl
  · simp only [hm, trove, Table.getD_set]
    by_cases ha : m = a
    · rw [if_pos ha, if_pos ha.symm, ha]
    · rw [if_neg ha, if_neg (Ne.symm ha)]

namespace Registered

/-- The last owner has an open trove at the last slot. -/
theorem last (h : l.Registered) (hb : l.isActive b = true) :
    ∃ m, l.owners.getLast? = some m ∧ l.isActive m = true ∧
      (l.trove m).slot = l.owners.length - 1 := by
  have hlt := h.slot_lt hb
  obtain ⟨m, hm⟩ : ∃ m, l.owners.getLast? = some m :=
    ⟨_, List.getLast?_eq_some_getLast (List.ne_nil_of_length_pos (by omega))⟩
  refine ⟨m, hm, (h.slots _ m).1 ?_⟩
  rw [← List.getLast?_eq_getElem?, hm]

/-- Freeing the slot of an open trove leaves everybody else at the slot their
trove then names, and its owner nowhere. -/
theorem vacate_slots (h : l.Registered) (hb : l.isActive b = true) (i : Nat) (a : Address) :
    (l.vacate (l.trove b).slot).owners[i]? = some a ↔
      a ≠ b ∧ l.isActive a = true ∧ ((l.vacate (l.trove b).slot).trove a).slot = i := by
  have hlt := h.slot_lt hb
  obtain ⟨m, hm, hma, hms⟩ := h.last hb
  rw [vacate_owners hlt, vacate_moved hm (fun e => hms.trans e.symm), hm]
  have hself := h.slots i a
  by_cases ham : a = m
  · -- the last owner is at the freed slot now, unless it was the one who freed it
    subst ham
    have hlast : a = b ↔ (l.trove b).slot = l.owners.length - 1 :=
      ⟨fun e => e ▸ hms, fun e => h.slot_inj hma hb (hms.trans e.symm)⟩
    grind
  · -- anybody else is where they were, and that is neither the freed slot nor the last
    have hfreed (ha : l.isActive a = true) (hab : a ≠ b) :
        (l.trove a).slot ≠ (l.trove b).slot := fun e => hab (h.slot_inj ha hb e)
    have hback (ha : l.isActive a = true) : (l.trove a).slot ≠ l.owners.length - 1 :=
      fun e => ham (h.slot_inj ha hma (e.trans hms.symm))
    grind

/-- What is left of a closed trove is its status; the others are where they
were, or moved to its slot. -/
theorem close (h : l.Registered) (hb : l.isActive b = true) {status : Trove.Status}
    (hs : status ≠ .active) : (l.close b status).Registered := by
  have hself : (l.close b status).trove b = { status } := close_trove_self
  have hmark : (l.close b status).mark b = {} := mark_set.trans (if_pos rfl)
  have hbi : (l.close b status).isActive b = false := by
    rw [isActive, hself]
    exact beq_eq_false_iff_ne.2 hs
  have hother {a : Address} (ha : a ≠ b) : (l.close b status).isActive a = l.isActive a := by
    obtain ⟨slot, ht⟩ : ∃ slot, (l.close b status).trove a = { l.trove a with slot } :=
      close_trove_other ha
    rw [isActive, ht]
    rfl
  have htrove {a : Address} (ha : a ≠ b) :
      (l.close b status).trove a = (l.vacate (l.trove b).slot).trove a :=
    trove_set.trans (if_neg (Ne.symm ha))
  refine ⟨?_, ?_⟩
  · intro i a
    show (l.vacate (l.trove b).slot).owners[i]? = some a ↔ _
    rw [h.vacate_slots hb]
    by_cases hab : a = b
    · simp [hab, hbi]
    · rw [hother hab, htrove hab]
      simp [hab]
  · intro a ha
    by_cases hab : a = b
    · rw [hab, hself, hmark]
      exact ⟨rfl, rfl⟩
    · rw [hother hab] at ha
      -- whoever moves has an open trove
      obtain ⟨m, hm, hma, hms⟩ := h.last hb
      have hne : a ≠ m := fun e => by simp [e, hma] at ha
      rw [htrove hab, vacate_moved hm (fun e => hms.trans e.symm), if_neg hne,
        close_mark_other hab]
      exact h.cleared a ha

/-- A trove without its stake keeps its slot. -/
theorem dropStake (h : l.Registered) (hb : l.isActive b = true)
    (hl : l.dropStake b = .ok l') : l'.Registered ∧ l'.isActive b = true := by
  simp only [Ledger.dropStake, Checked.bind_eq_ok, Checked.pure_eq_ok] at hl
  obtain ⟨stakes, -, rfl⟩ := hl
  generalize hl : ({ l with
    totalStakes := stakes, troves := l.troves.set b { l.trove b with stake := 0 } } : Ledger) = l'
  have htrove (a : Address) :
      l'.trove a = if b = a then { l.trove b with stake := 0 } else l.trove a := by
    rw [← hl]
    exact trove_set
  have hactive (a : Address) : l'.isActive a = l.isActive a := by
    rw [isActive, htrove]
    split
    · next hba =>
      rw [← hba]
      rfl
    · rfl
  refine ⟨h.congr (by rw [← hl]) hactive ?_ ?_, ?_⟩
  · intro a
    rw [htrove]
    split
    · next hba => rw [hba]
    · rfl
  · intro a ha
    have hne : b ≠ a := fun e => by simp [← e, hb] at ha
    rw [htrove, if_neg hne, ← hl]
    exact ⟨rfl, rfl⟩
  · rw [hactive, hb]

/-- A trove taken out of the books leaves the registers in agreement. -/
theorem takeOut {pending : Holding} (h : l.Registered) (hb : l.isActive b = true)
    (hl : l.takeOut b pending = .ok l') : l'.Registered := by
  simp only [Ledger.takeOut, Checked.bind_eq_ok, Checked.pure_eq_ok] at hl
  obtain ⟨l₁, h₁, l₂, h₂, rfl⟩ := hl
  obtain ⟨d, p, -, rfl, -⟩ := activate_ok h₁
  have h : Registered { l with defaultPool := d, activePool := p } := h.of_eq rfl rfl rfl
  obtain ⟨h, hb⟩ := h.dropStake (by exact hb) h₂
  exact h.close hb (by decide)

theorem liquidate {pending : Holding} {s : Liquidation.Split} (h : l.Registered)
    (hb : l.isActive b = true) (hl : l.liquidate b pending s = .ok l') : l'.Registered := by
  obtain ⟨l₁, ht, troves, owners, marks, -⟩ := liquidate_records hl
  exact (h.takeOut hb ht).of_eq owners troves marks

end Registered

/-- A ledger without troves. -/
theorem registered_new (i : Liquidation.Incentive) :
    Registered { links? := some .usual, incentive := i } := by
  have hidle (a : Address) : isActive { links? := some .usual, incentive := i } a = false := rfl
  refine ⟨?_, fun a _ => ⟨rfl, rfl⟩⟩
  intro i a
  simp [hidle]

end Ledger

/-! ## Runs -/

theorem Protocol.Sweep.registered {w w' : World} {price : Nat} {liquidator : Address}
    {t t' : Liquidation.Totals} (h : Sweep price liquidator w t w' t')
    (hr : w.ledger.Registered) : w'.ledger.Registered := by
  induction h with
  | done => exact hr
  | next due out _ _ ih => exact ih (hr.liquidate due.active out.ledger)

theorem Step.registered {w w' : World} {t : Turn} {k : Nat} (h : Step w t k w')
    (hr : w.ledger.Registered) : w'.ledger.Registered := by
  cases h.onLedger with
  | kept hk =>
    rw [hk]
    exact hr.of_eq rfl rfl rfl
  | opened ho =>
    obtain ⟨l, he, pool, -, hl, -⟩ := ho.enrolled
    rw [hl]
    exact (hr.enroll ho.inactive (Ledger.enroll_ok he) (Ledger.enroll_owners he)).of_eq rfl rfl rfl
  | settled hd =>
    exact hr.settle hd.active hd.settlement hd.booked
  | cleared hc =>
    obtain ⟨d, -, hs⟩ := hc.sweep
    exact hs.registered (by exact hr)

/-- The list is as long as the owners are. -/
theorem World.Threaded.size_eq {w : World} {xs : List Address} (h : w.Threaded xs)
    (hr : w.ledger.Registered) : w.ledger.owners.length = w.list.size := by
  have hperm : w.ledger.owners.Perm xs := by
    rw [List.perm_ext_iff_of_nodup hr.nodup h.holds.nodup]
    intro a
    rw [hr.mem_owners, h.listed]
  rw [h.holds.size]
  exact hperm.length_eq

/-- Who has an open trove, in every state of every run: the owners whose trove
is active, those the list contains and a walk along the whole list meets, and
the entries of the owners are the same.  Nobody is entered twice, every open
trove names its owner's slot, the list is as long as the owners are, and a
trove that is not open holds nothing, has no stake and no mark. -/
theorem Deployment.registers_agree {d : Deployment} {incentive? : Option Liquidation.Incentive}
    {o : Outcome Unit} (start : d.start (some { incentive? }) = .ok o) {ts : List Turn}
    (outside : ∀ t ∈ ts, t.outside) :
    let w := o.world.after ts
    let l := w.ledger
    (∀ a, (a ∈ l.owners ↔ l.isActive a = true) ∧
      (w.list.contains a = true ↔ l.isActive a = true) ∧
      (a ∈ w.list.forward w.list.size ↔ l.isActive a = true)) ∧
    l.owners.Nodup ∧ (w.list.forward w.list.size).Nodup ∧
    (∀ a, l.isActive a = true → l.owners[(l.trove a).slot]? = some a) ∧
    l.owners.length = w.list.size ∧
    ∀ a, l.isActive a = false →
      (l.trove a).toHolding = {} ∧ (l.trove a).stake = 0 ∧ l.mark a = {} := by
  have hr := Deployment.start_ready start
  have h₀ : o.world.ledger.Registered := by
    obtain ⟨i, hi⟩ := hr.ledger
    rw [hi]
    exact Ledger.registered_new i
  obtain ⟨-, hreg, xs, hx⟩ := World.after_induction (n := 0)
    (P := fun w _ => w.ledger.Registered ∧ ∃ xs, w.Threaded xs) hr.wired outside
    (fun _ _ _ _ _ _ _ hs ⟨hreg, _, h⟩ => ⟨hs.registered hreg, (hs.relisted h).threaded⟩)
    ⟨h₀, [], hr.threaded⟩
  refine ⟨?_, hreg.nodup, ?_, fun a ha => hreg.owner ha, hx.size_eq hreg, ?_⟩
  · intro a
    refine ⟨hreg.mem_owners, ?_, hx.mem_forward a⟩
    rw [hx.holds.contains, hx.listed]
  · rw [hx.holds.forward]
    exact hx.holds.nodup.sublist (List.take_sublist _ _)
  · intro a ha
    obtain ⟨ht, hm⟩ := hreg.cleared a ha
    rw [ht]
    exact ⟨rfl, rfl, hm⟩

/-- The second of three troves is liquidated, so that the third moves into its
slot; its owner opens a new one, and is liquidated in a batch that names some
troves twice and some that do not exist. -/
def Deployment.reshuffled : List Turn :=
  Turn.opening (.account 1) (10 * Amount.one) (500 * Amount.one) ++
  Turn.opening (.account 2) (5 * Amount.one) (400 * Amount.one) ++
  Turn.opening (.account 3) (10 * Amount.one) (450 * Amount.one) ++
  [.pricing 12000000000, .call (.account 9) (.liquidateOne (.account 2)),
   .pricing 20000000000] ++
  Turn.opening (.account 2) (5 * Amount.one) (400 * Amount.one) ++
  Turn.opening (.account 4) (10 * Amount.one) (450 * Amount.one) ++
  [.pricing 12000000000,
   .call (.account 9) (.liquidateAll [.account 7, .account 2, .account 2, .account 1])]

theorem Deployment.registers_agree_reshuffled :
    ∃ o, plain.start (some { incentive? := none }) = .ok o ∧
      (∀ t ∈ reshuffled, t.outside) ∧
      let w := o.world.after reshuffled
      w.ledger.owners = [.account 1, .account 3, .account 4] ∧
        w.list.size = 3 ∧ (w.ledger.trove (.account 4)).slot = 2 ∧
        (w.list.contains (.account 2) = true ↔ w.ledger.isActive (.account 2) = true) ∧
        (w.ledger.trove (.account 2)).stake = 0 := by
  obtain ⟨o, ho, hown, hs, h₂⟩ : ∃ o, plain.start (some { incentive? := none }) = .ok o ∧
      let w := o.world.after reshuffled
      w.ledger.owners = [.account 1, .account 3, .account 4] ∧
        (w.ledger.trove (.account 4)).slot = 2 ∧ w.ledger.isActive (.account 2) = false :=
    Checked.exists_ok (by decide +kernel)
  have hout : ∀ t ∈ reshuffled, t.outside := by decide +kernel
  obtain ⟨hwho, -, -, -, hsize, hidle⟩ := registers_agree ho hout
  rw [hown] at hsize
  exact ⟨o, ho, hout, hown, hsize.symm, hs, (hwho _).2.1, (hidle _ h₂).2.1⟩

end Troves
