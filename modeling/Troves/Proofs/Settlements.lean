/-
# What a settlement leaves as it was

A settlement makes recorded what was pending, and moves it between the pools.

    a position    recorded + pending         what was pending becomes recorded
    the totals    active + default pool      what leaves the one enters the other
    the list      ratios from head to tail   a trove passes only those of its ratio

So nobody's position or ratio changes by it, and settling once more finds nothing
to move.  Two settlements write different records and move amounts that do not
depend on each other, so either may come first.
-/
import Troves.Proofs.Liquidable
import Troves.Proofs.Movements
import Troves.Proofs.Shifts

namespace Troves

open Troves.Action
open TroveList (InOrder Shifted CanShift)

/-! ## The records of the open troves -/

namespace Ledger

variable {l l' : Ledger} {a b c : Address} {s t : Accrual.Settlement} {p : Holding}

/-- Every open trove has a mark that was written. -/
def Marked (l : Ledger) : Prop := ∀ a, l.isActive a = true → a ∈ l.marks.keys

theorem Marked.mark_entry (h : l.Marked) (ha : l.isActive a = true) :
    l.marks.get? a = some (l.mark a) := by
  rw [mark, Table.getD]
  cases hm : l.marks.get? a with
  | none => exact absurd (h a ha) (Table.get?_eq_none.1 hm)
  | some m => rfl

/-- A new mark serves whoever it is written for. -/
theorem Marked.set {m : Holding} (h : l.Marked) (hm : l'.marks = l.marks.set b m)
    (ha : ∀ a ≠ b, l'.isActive a = true → l.isActive a = true) : l'.Marked := by
  intro a hact
  rw [hm, Table.mem_keys_set]
  by_cases hab : a = b
  · exact .inl hab
  · exact .inr (h a (ha a hab hact))

theorem enroll_marks {holding : Holding} (h : l.enroll a holding = .ok l') :
    l'.marks = l.marks.set a l.index := by
  simp only [enroll, Checked.bind_eq_ok, Checked.pure_eq_ok] at h
  obtain ⟨_, -, _, -, rfl⟩ := h
  rfl

theorem settle_marks (h : l.settle b s = .ok l') : l'.marks = l.marks.set b s.mark := by
  rw [settle] at h
  split at h
  · cases h
    rfl
  · simp only [Checked.bind_eq_ok, Checked.pure_eq_ok] at h
    obtain ⟨_, h₁, rfl⟩ := h
    obtain ⟨d, a, -, rfl, -⟩ := activate_ok h₁
    rfl

theorem takeOut_marks (h : l.takeOut b p = .ok l') : l'.marks = l.marks.set b {} := by
  simp only [takeOut, dropStake, Checked.bind_eq_ok, Checked.pure_eq_ok] at h
  obtain ⟨l₁, h₁, l₂, ⟨stakes, -, rfl⟩, rfl⟩ := h
  obtain ⟨d, a, -, rfl, -⟩ := activate_ok h₁
  rw [close, vacate_kept]

end Ledger

theorem Protocol.Sweep.marked {w w' : World} {price : Nat} {liquidator : Address}
    {t t' : Liquidation.Totals} (h : Sweep price liquidator w t w' t') (hm : w.ledger.Marked) :
    w'.ledger.Marked := by
  induction h with
  | done => exact hm
  | next _ out _ _ ih =>
    obtain ⟨l₁, ht, -, -, hmarks, -⟩ := Ledger.liquidate_records out.ledger
    obtain ⟨-, hact⟩ := Ledger.liquidate_retains out.ledger
    exact ih (hm.set (hmarks.trans (Ledger.takeOut_marks ht)) fun a _ ha => ((hact a).1 ha).2)

theorem Protocol.Settled.marked {w w' : World} {b : Address} {s : Accrual.Settlement}
    (h : Settled w b s w') (hm : w.ledger.Marked) : w'.ledger.Marked := by
  refine hm.set (Ledger.settle_marks h.ledger) fun a ha hact => ?_
  rwa [Ledger.isActive, h.booked.others a ha] at hact

theorem Step.marked {w w' : World} {t : Turn} {k : Nat} (h : Step w t k w')
    (hm : w.ledger.Marked) : w'.ledger.Marked := by
  cases h.onLedger with
  | kept hk =>
    rw [hk]
    exact hm
  | opened ho =>
    obtain ⟨l, he, pool, -, hl, -⟩ := ho.enrolled
    have hmarks : w'.ledger.marks = l.marks := by rw [hl]
    refine hm.set (hmarks.trans (Ledger.enroll_marks he)) fun a ha hact => ?_
    have hact : l.isActive a = true := by
      rw [hl] at hact
      exact hact
    rwa [(Ledger.enroll_ok he).isActive, if_neg ha] at hact
  | settled hd => exact hd.marked hm
  | cleared hc =>
    obtain ⟨d, -, hs⟩ := hc.sweep
    exact hs.marked hm

theorem Deployment.Ready.marked_after {d : Deployment} {w : World} (h : d.Ready w)
    {ts : List Turn} (outside : ∀ t ∈ ts, t.outside) : (w.after ts).ledger.Marked := by
  refine (World.after_induction (n := 0) (P := fun w _ => w.ledger.Marked) h.wired outside
    (fun _ _ _ _ _ _ _ hs hm => hs.marked hm) ?_).2
  obtain ⟨i, hi⟩ := h.ledger
  rw [hi]
  exact fun _ ha => absurd ha Bool.false_ne_true

/-! ## What a settlement writes -/

namespace Ledger

variable {l l' l₁ l₂ : Ledger} {a b c : Address} {s t : Accrual.Settlement} {p : Holding}

/-- Rewards can be moved between the pools: there are none, or the default pool
has them and the active pool has room. -/
def Movable (l : Ledger) (p : Holding) : Prop :=
  p = {} ∨ ∀ x, p.part x ≤ l.defaultPool.part x ∧ l.activePool.part x + p.part x < Amount.limit

/-- The ledger with a borrower's rewards moved and the records written. -/
def settled (l : Ledger) (b : Address) (s : Accrual.Settlement) : Ledger :=
  { l with
    defaultPool := ⟨l.defaultPool.collateral - s.applied.collateral,
      l.defaultPool.debt - s.applied.debt⟩
    activePool := ⟨l.activePool.collateral + s.applied.collateral,
      l.activePool.debt + s.applied.debt⟩
    troves := l.troves.set b s.trove
    marks := l.marks.set b s.mark }

theorem settle_of_movable (hb : l.isActive b = true) (hs : l.settlement b = .ok s)
    (h : l.Movable s.applied) : l.settle b s = .ok (l.settled b s) := by
  by_cases hz : s.applied.isZero = true
  · -- the trove written is the one that is there
    have hsame : s.trove = l.trove b := by
      obtain ⟨-, -, hadd, htrove⟩ := settlement_ok hb hs
      rw [Holding.isZero_iff] at hz
      rw [hz, Holding.add_eq_ok] at hadd
      rw [htrove, hadd.2]
      rfl
    rw [settle, if_pos hz, settled, hsame, Table.set_of_get? (trove_entry hb)]
    rw [Holding.isZero_iff] at hz
    rw [hz]
    rfl
  · have hfit := h.resolve_left fun e => hz (Holding.isZero_iff.2 e)
    obtain ⟨hc, hc'⟩ := hfit .collateral
    obtain ⟨hd, hd'⟩ := hfit .debt
    have hsub := Holding.sub_eq_ok.2 ⟨⟨hc, hd⟩, rfl⟩
    have hadd := Holding.add_eq_ok.2 ⟨⟨hc', hd'⟩, rfl⟩
    rw [settle, if_neg hz, activate, if_neg hz]
    simp only [hsub, hadd]
    rfl

/-- Otherwise it fails, in the one way there is. -/
theorem settle_meets :
    (l.settle b s).Meets (fun _ => l.Movable s.applied) fun e => e = .overflow := by
  rw [settle]
  split
  · next hz => exact .inl (Holding.isZero_iff.1 hz)
  · next hz =>
    rw [activate, if_neg hz]
    simp only [Checked.meets_bind]
    refine Holding.meets_sub_of (fun d hd => ?_) rfl
    refine Holding.meets_add_of (fun a ha => .inr fun x => ?_) fun _ _ => rfl
    exact ⟨(Holding.part_sub hd x).1, Holding.part_add_lt ha x⟩

theorem settle_of_not_movable (h : ¬ l.Movable s.applied) :
    l.settle b s = .error .overflow := by
  have hm := settle_meets (l := l) (b := b) (s := s)
  cases hl : l.settle b s with
  | ok l' => exact absurd (hm.of_eq_ok hl) h
  | error e =>
    rw [hl] at hm
    exact congrArg Except.error hm

theorem settle_eq_ok (hb : l.isActive b = true) (hs : l.settlement b = .ok s) :
    l.settle b s = .ok l' ↔ l.Movable s.applied ∧ l' = l.settled b s := by
  by_cases h : l.Movable s.applied
  · simp [settle_of_movable hb hs h, h, eq_comm]
  · simp [settle_of_not_movable h, h]

/-- What one settlement takes from the pools the other can do without. -/
theorem movable_comm (h₁ : l.Movable s.applied) (h₂ : l.Movable t.applied) :
    (l.settled b s).Movable t.applied ↔ (l.settled c t).Movable s.applied := by
  have hall (P : Part → Prop) : (∀ x, P x) ↔ P .collateral ∧ P .debt :=
    ⟨fun h => ⟨h _, h _⟩, fun h x => by cases x; exacts [h.1, h.2]⟩
  have hzero (p : Holding) : p = {} ↔ p.collateral = 0 ∧ p.debt = 0 := by
    cases p
    simp
  simp only [Movable, hall, hzero, settled, Holding.part] at *
  omega

theorem settled_comm (hm : l.Marked) (hbc : b ≠ c) (hb : l.isActive b = true) :
    (l.settled b s).settled c t = (l.settled c t).settled b s := by
  simp only [settled, Table.set_comm hbc (mem_troves hb), Table.set_comm hbc (hm b hb),
    Nat.sub_right_comm, Nat.add_right_comm]

theorem SettledIn.settlement_eq (h : SettledIn l b s l') (hc : c ≠ b) :
    l'.settlement c = l.settlement c := by
  have hi : l'.index = l.index := by rw [h.kept]
  rw [settlement, settlement, h.others c hc, h.marks c hc, hi]

/-- Whichever of two settlements comes first, the ledger is the same after both,
and if it is too small for both, they fail alike. -/
theorem settle_comm (hm : l.Marked) (hbc : b ≠ c) (hb : l.isActive b = true)
    (hs : l.settlement b = .ok s) (hc : l.isActive c = true) (ht : l.settlement c = .ok t)
    (h₁ : l.settle b s = .ok l₁) (h₂ : l.settle c t = .ok l₂) :
    l₁.settle c t = l₂.settle b s := by
  have hin₁ := settle_ok hb hs h₁
  have hin₂ := settle_ok hc ht h₂
  have hc₁ : l₁.isActive c = true := by rwa [isActive, hin₁.others c hbc.symm]
  have hb₂ : l₂.isActive b = true := by rwa [isActive, hin₂.others b hbc]
  have ht₁ := (hin₁.settlement_eq hbc.symm).trans ht
  have hs₂ := (hin₂.settlement_eq hbc).trans hs
  obtain ⟨hmov₁, rfl⟩ := (settle_eq_ok hb hs).1 h₁
  obtain ⟨hmov₂, rfl⟩ := (settle_eq_ok hc ht).1 h₂
  have hmov := movable_comm (b := b) (c := c) hmov₁ hmov₂
  by_cases h : (l.settled b s).Movable t.applied
  · rw [settle_of_movable hc₁ ht₁ h, settle_of_movable hb₂ hs₂ (hmov.1 h), settled_comm hm hbc hb]
  · rw [settle_of_not_movable h, settle_of_not_movable (mt hmov.2 h)]

/-! ## What can be told afterwards -/

/-- What can be told of everybody's position and of the whole is the same in two
ledgers. -/
structure Neutral (l l' : Ledger) : Prop where
  entire : ∀ a, (l'.entire a).map Entire.toHolding = (l.entire a).map Entire.toHolding
  ratio : ∀ a price, l'.ratio a price = l.ratio a price
  nominalRatio : ∀ a, l'.nominalRatio a = l.nominalRatio a
  systemCollateral : l'.systemCollateral = l.systemCollateral
  systemDebt : l'.systemDebt = l.systemDebt
  totalStakes : l'.totalStakes = l.totalStakes
  index : l'.index = l.index
  unassigned : l'.unassigned = l.unassigned

/-- Both ratios are those of the whole position, whatever of it is pending. -/
theorem ratio_eq (l : Ledger) (a : Address) (price : Nat) :
    l.ratio a price = (l.entire a).map Entire.toHolding >>= fun h =>
      Ratio.collateral h.collateral h.debt price := by
  rw [ratio]
  cases l.entire a <;> rfl

theorem nominalRatio_eq (l : Ledger) (a : Address) :
    l.nominalRatio a = (l.entire a).map Entire.toHolding >>= fun h =>
      Ratio.nominal h.collateral h.debt := by
  rw [nominalRatio]
  cases l.entire a <;> rfl

section Settled

variable (hb : l.isActive b = true) (hs : l.settlement b = .ok s) (h : SettledIn l b s l')

include hb hs h

/-- Nothing is pending any more. -/
theorem SettledIn.pending : l'.pending b = .ok {} := by
  have hi : l'.index = l.index := by rw [h.kept]
  exact pending_of_mark ((h.isActive hb hs b).trans hb) (h.mark.trans hi.symm)

theorem SettledIn.entire_eq (a : Address) :
    (l'.entire a).map Entire.toHolding = (l.entire a).map Entire.toHolding := by
  have hi : l'.index = l.index := by rw [h.kept]
  by_cases hab : a = b
  · subst hab
    have he : l'.entire a = .ok { toHolding := s.trove.toHolding } := by
      simp only [Ledger.entire, Checked.bind_eq_ok, Checked.pure_eq_ok]
      refine ⟨{}, h.pending hb hs, s.trove.toHolding, ?_, rfl⟩
      rw [h.trove, settlement_fits hb hs]
    rw [he, settlement_entire hb hs]
    rfl
  · rw [(h.retains hab).entire_eq hi]

theorem SettledIn.neutral : l.Neutral l' := by
  have hsum (x : Part) : l'.activePool.part x + l'.defaultPool.part x =
      l.activePool.part x + l.defaultPool.part x := by
    obtain ⟨hle, hsub⟩ := Holding.part_sub h.defaultPool x
    rw [hsub, h.activePool x]
    omega
  have hentire := h.entire_eq hb hs
  refine ⟨hentire, fun a price => ?_, fun a => ?_, ?_, ?_, ?_, ?_, ?_⟩
  · rw [ratio_eq, ratio_eq, hentire]
  · rw [nominalRatio_eq, nominalRatio_eq, hentire]
  · exact congrArg Amount.fit (hsum .collateral)
  · exact congrArg Amount.fit (hsum .debt)
  · rw [h.kept]
  · rw [h.kept]
  · rw [h.kept]

/-- Settling once more finds nothing and writes the mark that is there. -/
theorem SettledIn.again (hm : l'.Marked) :
    ∃ t, l'.settlement b = .ok t ∧ t.applied = {} ∧ l'.marks.set b t.mark = l'.marks := by
  have hact := (h.isActive hb hs b).trans hb
  have hi : l'.index = l.index := by rw [h.kept]
  have ht := settlement_of_pending hact (h.pending hb hs)
    ((congrArg (fun t => t.toHolding.add {}) h.trove).trans (settlement_fits hb hs))
  refine ⟨_, ht, rfl, Table.set_of_get? ?_⟩
  rw [hm.mark_entry hact, h.mark, hi]

end Settled

end Ledger

/-! ## The request -/

namespace Protocol

variable {w w' w₁ w₂ : World} {xs : List Address} {b c : Address} {s t : Accrual.Settlement}

theorem Settled.neutral (h : Settled w b s w') : w.ledger.Neutral w'.ledger :=
  h.booked.neutral h.active h.settlement

/-- The list keeps its sequence but for the settled trove, which may pass others
of its ratio. -/
theorem Settled.shifts (h : Settled w b s w') (ht : w.Threaded xs)
    (ho : xs.Pairwise (InOrder w.ledger.nominalRatio)) :
    ∃ xs', w'.Threaded xs' ∧ Shifted w.ledger.nominalRatio b xs xs' ∧
      (s.applied.isZero = true ∨ CanShift w.ledger.nominalRatio xs b) := by
  have hact := h.isActive
  have hlive : w'.ledger.nominalRatio = w.ledger.nominalRatio := funext h.neutral.nominalRatio
  have hlist := h.list
  split at hlist
  · next hz => exact ⟨xs, ⟨hlist ▸ ht.holds, fun a => by rw [hact, ht.listed]⟩, .stays, .inl hz⟩
  · obtain ⟨ratio, hr, hi⟩ := hlist
    rw [hlive] at hi
    have hid := (Ledger.settlement_nominalRatio h.active h.settlement).trans hr
    obtain ⟨can, xs', hh, hx⟩ := ht.holds.shifts ho hid hi
    refine ⟨xs', ⟨hh, fun a => ?_⟩, hx, .inr can⟩
    rw [hact, ← ht.listed, hx.perm.mem_iff]

/-- What settling another trove would give is what it would have given. -/
theorem Settled.keeps (h : Settled w b s w₁) (h' : Settled w c t w₂) (hbc : c ≠ b) :
    w₁.ledger.isActive c = true ∧ w₁.ledger.settlement c = .ok t :=
  ⟨(h.isActive c).trans h'.active, (h.booked.settlement_eq hbc).trans h'.settlement⟩

/-- After another settlement one that went through before fails only where the
ledger does. -/
theorem Settled.meets_after (hw : w.Wired) (ht : w.Threaded xs)
    (ho : xs.Pairwise (InOrder w.ledger.nominalRatio)) (h : Settled w b s w₁)
    (h' : Settled w c t w₂) (hbc : c ≠ b) :
    (settleRewards c).Meets w₁ (fun _ w' => w₁.ledger.settle c t = .ok w'.ledger)
      fun e => w₁.ledger.settle c t = .error e := by
  obtain ⟨hc, hs⟩ := h.keeps h' hbc
  obtain ⟨xs₁, ht₁, hx, -⟩ := h.shifts ht ho
  obtain ⟨-, -, -, can⟩ := h'.shifts ht ho
  rw [meets_settleRewards (h.wired hw) hc, hs, Checked.meets_ok]
  cases hl : w₁.ledger.settle c t with
  | error e => rfl
  | ok l =>
    rw [Checked.meets_ok]
    split
    · rfl
    · next hz =>
      have hlist := h'.list
      rw [if_neg hz] at hlist
      obtain ⟨ratio, hr, -⟩ := hlist
      have hlive : l.nominalRatio = w.ledger.nominalRatio := funext fun a =>
        (((Ledger.settle_ok hc hs hl).neutral hc hs).nominalRatio a).trans
          (h.neutral.nominalRatio a)
      have hid := (Ledger.settlement_nominalRatio h'.active h'.settlement).trans hr
      obtain ⟨list, hi⟩ := ht₁.holds.reposition_succeeds (hx.pairwise ho) hid
        (hx.canShift ht.holds.nodup hbc (can.resolve_left hz))
      rw [hr, Checked.meets_ok, hlive, hi]
      rfl

/-- Where the system's debt fits its word there is room for both settlements. -/
theorem Settled.movable_after {debt : Nat} (hw : w.Sound) (h : Settled w b s w₁)
    (h' : Settled w c t w₂) (hbc : c ≠ b) (hd : w.ledger.systemDebt = .ok debt) :
    w₁.ledger.Movable t.applied := by
  obtain ⟨hact, hsettle⟩ := h.keeps h' hbc
  obtain ⟨n, hb⟩ := hw.balanced
  obtain ⟨sent, hc⟩ := hw.custody
  have hb₁ := hb.settle h.active h.settlement h.booked
  have hheld : w.ledger.held < Amount.limit :=
    (Nat.le_add_right _ _).trans_lt hc.ledger.lt_limit
  have hcoll := h.neutral.systemCollateral.trans (Ledger.systemCollateral_eq hheld)
  have hdebt := h.neutral.systemDebt.trans hd
  have hfit (x : Part) : w₁.ledger.activePool.part x + w₁.ledger.defaultPool.part x <
      Amount.limit := by
    cases x with
    | collateral => exact (Amount.add_eq_ok.1 hcoll).1
    | debt => exact (Amount.add_eq_ok.1 hdebt).1
  refine .inr fun x => ?_
  have hle := hb₁.pending_le hact (Ledger.settlement_ok hact hsettle).1 x
  exact ⟨hle, (Nat.add_le_add_left hle _).trans_lt (hfit x)⟩

/-- Where nothing is moved and the mark stands, nothing is done at all. -/
theorem settleRewards_idle (hw : w.Wired) (hb : w.ledger.isActive b = true)
    (hs : w.ledger.settlement b = .ok s) (hz : s.applied = {})
    (hm : w.ledger.marks.set b s.mark = w.ledger.marks) :
    settleRewards b w = .ok ⟨(), w, []⟩ := by
  have hz : s.applied.isZero = true := Holding.isZero_iff.2 hz
  have hlinks : ledgerLinks w = .ok ⟨.usual, w, []⟩ := by
    simp [ledgerLinks, Action.bind_run, hw.ledger, Except.map]
  have hmark : onLedger (fun l => return { l with marks := l.marks.set b s.mark }) w =
      .ok ⟨(), w, []⟩ := by
    show Except.ok (Outcome.mk () { w with
      ledger := { w.ledger with marks := w.ledger.marks.set b s.mark } } []) = _
    rw [hm]
  simp [settleRewards, Action.bind_run, hb, hs, hz, hlinks, hmark, require, Except.map]

end Protocol

namespace Request

open Protocol (Settled)

variable {w w₁ w₂ : World} {xs : List Address} {b c x : Address} {s t : Accrual.Settlement}

theorem settleRewards_settled (hw : w.Wired) {out : Outcome Reply}
    (h : (settleRewards b).perform x w = .ok out) : ∃ s, Settled w b s out.world := by
  have hsettle : ((settleRewards b).perform x).Ensures w fun _ w' => ∃ s, Settled w b s w' :=
    ensures_silent.2 (Protocol.ensures_settleRewards hw)
  exact hsettle out h

theorem settleRewards_idle (hw : w.Wired) (h : Settled w b s w₁) (hm : w₁.ledger.Marked) :
    (settleRewards b).perform x w₁ = .ok ⟨.done, w₁, []⟩ := by
  obtain ⟨t, ht, hz, hmark⟩ := h.booked.again h.active h.settlement hm
  have hb := (h.isActive b).trans h.active
  have hrun := Protocol.settleRewards_idle (h.wired hw) hb ht hz hmark
  simp [perform, silent, Action.bind_run, hrun, Except.map]

theorem settleRewards_after (hw : w.Wired) (ht : w.Threaded xs)
    (ho : xs.Pairwise (InOrder w.ledger.nominalRatio)) (h : Settled w b s w₁)
    (h' : Settled w c t w₂) (hbc : c ≠ b) :
    ((settleRewards c).perform x w₁).map (fun o => o.world.ledger) = w₁.ledger.settle c t := by
  refine Action.Meets.map_eq (f := World.ledger) ?_
  simp only [perform, silent, meets_bind, meets_pure]
  exact h.meets_after hw ht ho h' hbc

theorem settleRewards_succeeds {debt : Nat} (hw : w.Sound) (ht : w.Threaded xs)
    (ho : xs.Pairwise (InOrder w.ledger.nominalRatio)) (h : Settled w b s w₁)
    (h' : Settled w c t w₂) (hbc : c ≠ b) (hd : w.ledger.systemDebt = .ok debt) :
    ∃ out, (settleRewards c).perform x w₁ = .ok out := by
  obtain ⟨hact, hsettle⟩ := h.keeps h' hbc
  have hl := settleRewards_after (x := x) hw.wired ht ho h h' hbc
  rw [Ledger.settle_of_movable hact hsettle (h.movable_after hw h' hbc hd)] at hl
  obtain ⟨out, hout, -⟩ := Checked.map_eq_ok.1 hl
  exact ⟨out, hout⟩

end Request

/-! ## Runs -/

namespace Deployment

/-- Settling a trove's rewards moves nobody, in every state of every run in which
the list is in order.

Everybody's entire position and ratios and the system's totals are as before.  The
list has the same members, the others in the same sequence, and is still in order.
Nothing is pending for the trove any more, and settling it once more does nothing
at all.  Of two troves that can be settled either may come first: the ledger comes
out the same or fails alike, and it does not fail where the system's debt fits its
word. -/
theorem settlement_neutral {d : Deployment} {incentive? : Option Liquidation.Incentive}
    {o : Outcome Unit} (start : d.start (some { incentive? }) = .ok o) {ts : List Turn}
    (outside : ∀ t ∈ ts, t.outside)
    (sorted : let w := o.world.after ts
      w.list.Ascending w.ledger.nominalRatio)
    {b caller : Address} {out : Outcome Reply}
    (settled : (Request.settleRewards b).perform caller (o.world.after ts) = .ok out) :
    let w := o.world.after ts
    let w' := out.world
    (w.ledger.Neutral w'.ledger ∧ w' = { w with ledger := w'.ledger, list := w'.list }) ∧
    ((∀ a, w'.list.contains a = w.list.contains a) ∧
      (w'.list.forward w'.list.size).erase b = (w.list.forward w.list.size).erase b ∧
      w'.list.Ascending w'.ledger.nominalRatio) ∧
    (w'.ledger.pending b = .ok {} ∧
      ∀ x, (Request.settleRewards b).perform x w' = .ok ⟨.done, w', []⟩) ∧
    ∀ c x other, (Request.settleRewards c).perform x w = .ok other →
      (∀ y z, ((Request.settleRewards c).perform y w').map (fun o => o.world.ledger) =
        ((Request.settleRewards b).perform z other.world).map fun o => o.world.ledger) ∧
      ∀ debt, w.ledger.systemDebt = .ok debt →
        ∀ y, ∃ last, (Request.settleRewards c).perform y w' = .ok last := by
  have hr := start_ready start
  have hw := hr.sound_after outside
  have hm := hr.marked_after outside
  obtain ⟨xs, hx⟩ := hw.threaded
  have ho := hx.ascending_iff.1 sorted
  obtain ⟨s, h⟩ := Request.settleRewards_settled hw.wired settled
  obtain ⟨xs', hx', hshift, -⟩ := h.shifts hx ho
  have hneutral := h.neutral
  refine ⟨⟨hneutral, h.rest⟩, ⟨fun a => ?_, ?_, ?_⟩, ⟨h.booked.pending h.active h.settlement,
    fun x => Request.settleRewards_idle hw.wired h (h.marked hm)⟩, ?_⟩
  · rw [Bool.eq_iff_iff, hx'.holds.contains, hx.holds.contains, hshift.perm.mem_iff]
  · simp only [hx'.holds.forward, hx'.holds.size, hx.holds.forward, hx.holds.size,
      List.take_length]
    exact hshift.erase_eq hx.holds.nodup
  · rw [hx'.ascending_iff, funext hneutral.nominalRatio]
    exact hshift.pairwise ho
  · intro c x other hother
    obtain ⟨t, h'⟩ := Request.settleRewards_settled hw.wired hother
    by_cases hbc : c = b
    · subst hbc
      obtain rfl : out = other := Except.ok.inj (settled.symm.trans hother)
      exact ⟨fun _ _ => rfl,
        fun _ _ _ => ⟨_, Request.settleRewards_idle hw.wired h (h.marked hm)⟩⟩
    · refine ⟨fun y z => ?_,
        fun _ hd _ => Request.settleRewards_succeeds hw hx ho h h' hbc hd⟩
      rw [Request.settleRewards_after hw.wired hx ho h h' hbc,
        Request.settleRewards_after hw.wired hx ho h' h (Ne.symm hbc)]
      exact Ledger.settle_comm hm (Ne.symm hbc) h.active h.settlement h'.active h'.settlement
        h.ledger h'.ledger

/-- What one trove leaves behind is spread over two equal ones and a larger. -/
def twoEqual : List Turn :=
  Turn.opening (.account 1) (10 * Amount.one) (500 * Amount.one) ++
  Turn.opening (.account 2) (5 * Amount.one) (400 * Amount.one) ++
  Turn.opening (.account 3) (10 * Amount.one) (500 * Amount.one) ++
  Turn.opening (.account 4) (20 * Amount.one) (600 * Amount.one) ++
  [.pricing 12000000000, .call (.account 9) (.liquidateOne (.account 2))]

/-- When the first of the equal ones settles it passes the second, and either of
them may settle first. -/
theorem settlement_neutral_twoEqual :
    ∃ o, plain.start (some { incentive? := none }) = .ok o ∧ (∀ t ∈ twoEqual, t.outside) ∧
      let w := o.world.after twoEqual
      w.list.Ascending w.ledger.nominalRatio ∧
      w.ledger.pending (.account 1) = .ok ⟨1243750000000000000, 150 * Amount.one⟩ ∧
      w.list.forward 3 = [.account 1, .account 3, .account 4] ∧
      ∃ out other last, (Request.settleRewards (.account 1)).perform (.account 9) w = .ok out ∧
        (Request.settleRewards (.account 3)).perform (.account 9) w = .ok other ∧
        (Request.settleRewards (.account 3)).perform (.account 9) out.world = .ok last ∧
        out.world.list.forward 3 = [.account 3, .account 1, .account 4] ∧
        w.ledger.Neutral out.world.ledger ∧ out.world.ledger.pending (.account 1) = .ok {} ∧
        ((Request.settleRewards (.account 1)).perform (.account 9) other.world).map
          (fun o => o.world.ledger) = .ok last.world.ledger := by
  have hout : ∀ t ∈ twoEqual, t.outside := by decide +kernel
  obtain ⟨o, ho, hn, hf, hp, h₁, h₃, h₄, hd, hrun, hrun'⟩ :
      ∃ o, plain.start (some { incentive? := none }) = .ok o ∧
        let w := o.world.after twoEqual
        w.list.size = 3 ∧ w.list.forward 3 = [.account 1, .account 3, .account 4] ∧
        w.ledger.pending (.account 1) = .ok ⟨1243750000000000000, 150 * Amount.one⟩ ∧
        w.ledger.nominalRatio (.account 1) = .ok 1322794117647058823 ∧
        w.ledger.nominalRatio (.account 3) = .ok 1322794117647058823 ∧
        w.ledger.nominalRatio (.account 4) = .ok 2044318181818181818 ∧
        w.ledger.systemDebt = .ok (2800 * Amount.one) ∧
        (do
          let out ← (Request.settleRewards (.account 1)).perform (.account 9) w
          return out.world.list.forward 3) = .ok [.account 3, .account 1, .account 4] ∧
        ((Request.settleRewards (.account 3)).perform (.account 9) w).fault? = none :=
    Checked.exists_ok (by decide +kernel)
  obtain ⟨out, hperform, hlist⟩ := Checked.bind_eq_ok.1 hrun
  obtain ⟨other, hother⟩ := Checked.fault?_eq_none.1 hrun'
  obtain ⟨xs, hx⟩ := ((start_ready ho).sound_after hout).threaded
  have hxs : xs = [.account 1, .account 3, .account 4] := by
    rw [← hf, ← hn, hx.holds.forward, hx.holds.size, List.take_length]
  have hsorted : (o.world.after twoEqual).list.Ascending
      (o.world.after twoEqual).ledger.nominalRatio := by
    have hle {live : Address → Checked Nat} {a b : Address} {m n : Nat} (ha : live a = .ok m)
        (hb : live b = .ok n) (h : m ≤ n) : InOrder live a b := fun x y hx hy => by
      rwa [← Except.ok.inj (ha.symm.trans hx), ← Except.ok.inj (hb.symm.trans hy)]
    rw [hx.ascending_iff, hxs, List.pairwise_cons, List.pairwise_pair, List.forall_mem_cons,
      List.forall_mem_singleton]
    exact ⟨⟨hle h₁ h₃ (by decide), hle h₁ h₄ (by decide)⟩, hle h₃ h₄ (by decide)⟩
  obtain ⟨⟨hneutral, -⟩, -, ⟨hpending, -⟩, hsecond⟩ :=
    settlement_neutral ho hout hsorted hperform
  obtain ⟨hcomm, hgoes⟩ := hsecond _ _ _ hother
  obtain ⟨last, hlast⟩ := hgoes _ hd (.account 9)
  refine ⟨o, ho, hout, hsorted, hp, hf, out, other, last, hperform, hother, hlast,
    Except.ok.inj hlist, hneutral, hpending, ?_⟩
  rw [← hcomm (.account 9), hlast]
  rfl

end Deployment

end Troves
