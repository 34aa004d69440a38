/-
# The walk up the list

A request for the riskiest troves walks up the list and stops at the first
ratio from which on none is liquidated.  It misses nothing as long as no trove
that it examines in vain is undercut by one behind it.  The list does not see
to that by itself: it is kept by nominal ratios, which are rounded on their own,
so of two troves that tie there the later one may be the riskier at a price.
-/
import Troves.Proofs.Incidents
import Troves.Proofs.Repricing

namespace Troves

open Troves.Action
open Protocol (Attempted Due Liquidated)
open Liquidation (Split Totals Mode)

/-! ## What the walk meets -/

/-- Both ratios can be reckoned, and the first is not above the second. -/
def Ratio.AtMost (x y : Checked Nat) : Prop :=
  ∃ r, x = .ok r ∧ ∃ r', y = .ok r' ∧ r ≤ r'

instance (x y : Checked Nat) : Decidable (Ratio.AtMost x y) :=
  match x, y with
  | .ok r, .ok r' => decidable_of_iff (r ≤ r') (by simp [Ratio.AtMost])
  | .error _, _ => .isFalse (by simp [Ratio.AtMost])
  | .ok _, .error _ => .isFalse (by simp [Ratio.AtMost])

/-- The owners behind a listed one. -/
def TroveList.behind (l : TroveList) (id : Address) : List Address :=
  follow l.next? l.size (l.next? id)

theorem TroveList.Holds.behind {l : TroveList} {ys zs : List Address} {a : Address}
    (h : l.Holds (ys ++ a :: zs)) : l.behind a = zs := by
  have hsize : zs.length ≤ l.size := by
    rw [h.size, List.length_append, List.length_cons]
    omega
  have h' : l.Holds ((ys ++ [a]) ++ zs) := by simpa using h
  rw [TroveList.behind, h.next, h'.follow, List.take_of_length_le hsize]

/-- No trove listed behind an owner has a lower ratio at a price. -/
def World.Leads (w : World) (price : Nat) (b : Address) : Prop :=
  ∀ a ∈ w.list.behind b, Ratio.AtMost (w.ledger.ratio b price) (w.ledger.ratio a price)

instance (w : World) (price : Nat) (b : Address) : Decidable (w.Leads price b) :=
  inferInstanceAs (Decidable (∀ a ∈ w.list.behind b,
    Ratio.AtMost (w.ledger.ratio b price) (w.ledger.ratio a price)))

namespace Protocol

/-- Whether a trove's ratio lets a walk go on. -/
def goesOn (w : World) (price : Nat) (b : Address) : Bool :=
  match w.ledger.ratio b price, w.ledger.totalRatio price with
  | .ok ratio, .ok total => ratio < Liquidation.threshold total
  | _, _ => false

/-- The troves that a walk examines, each with the world in which it does. -/
def examined (price : Nat) (liquidator : Address) :
    Nat → Option Address → World → List (World × Address)
  | 0, _, _ => []
  | _ + 1, none, _ => []
  | n + 1, some b, w =>
    (w, b) ::
      match goesOn w price b, liquidateIfDue .usual b price liquidator w with
      | true, .ok o => examined price liquidator n (w.list.next? b) o.world
      | _, _ => []

variable {w w₁ : World} {price n : Nat} {liquidator : Address} {a b : Address} {t : Totals}

theorem examined_next {ratio total : Nat} {o : Outcome (Option Split)}
    (hr : w.ledger.ratio b price = .ok ratio) (ht : w.ledger.totalRatio price = .ok total)
    (below : ratio < Liquidation.threshold total)
    (ho : liquidateIfDue .usual b price liquidator w = .ok o) :
    examined price liquidator (n + 1) (some b) w =
      (w, b) :: examined price liquidator n (w.list.next? b) o.world := by
  simp [examined, goesOn, hr, ht, below, ho]

/-- One step of the walk. -/
theorem meets_liquidateFrom {Q : Totals → World → Prop} {E : Fault → Prop} :
    (liquidateFrom .usual price liquidator (n + 1) (some b) t).Meets w Q E ↔
      (w.ledger.ratio b price).Meets (fun ratio =>
        (w.ledger.totalRatio price).Meets (fun total =>
          if Liquidation.threshold total ≤ ratio then Q t w else
            (liquidateIfDue .usual b price liquidator).Meets w (fun split? w₁ =>
              (t.tally split?).Meets (fun t₁ =>
                (liquidateFrom .usual price liquidator n (w.list.next? b) t₁).Meets w₁ Q E) E)
              E) E) E := by
  simp [liquidateFrom, via_list]

end Protocol

/-! ## Which troves stay -/

namespace World

/-- A trove that is examined in vain. -/
def Spares (w : World) (price : Nat) (a : Address) : Prop :=
  ∃ e total, w.ledger.entire a = .ok e ∧ w.ledger.totalRatio price = .ok total ∧
    Liquidation.split? (Mode.ofTotal total) e.debt e.collateral price total w.pool.total
      w.ledger.incentive = .ok none

/-- A trove with at least the minimum ratio that the deposits do not cover. -/
def Uncovered (w : World) (price : Nat) (a : Address) : Prop :=
  ∃ e, w.ledger.entire a = .ok e ∧
    (∃ r, Ratio.collateral e.collateral e.debt price = .ok r ∧ Ratio.minimum ≤ r) ∧
    w.pool.total < e.debt

variable {w w₁ : World} {price : Nat} {a b liquidator : Address} {e : Entire} {s : Split}

theorem ratio_ok {l : Ledger} {r : Nat} (h : l.ratio a price = .ok r) :
    ∃ e, l.entire a = .ok e ∧ Ratio.collateral e.collateral e.debt price = .ok r :=
  Checked.bind_eq_ok.1 h

/-- Nobody is liquidated from the threshold on. -/
theorem spares_of_threshold {r total : Nat} (hr : w.ledger.ratio a price = .ok r)
    (ht : w.ledger.totalRatio price = .ok total) (h : Liquidation.threshold total ≤ r) :
    w.Spares price a := by
  obtain ⟨e, he, hr⟩ := ratio_ok hr
  exact ⟨e, total, he, ht, (Liquidation.split?_eq_none_iff hr).2 (.inl h)⟩

/-- Whatever becomes of the mode, an uncovered trove stays. -/
theorem Uncovered.spares {total : Nat} (h : w.Uncovered price a)
    (ht : w.ledger.totalRatio price = .ok total) : w.Spares price a := by
  obtain ⟨e, he, ⟨r, hr, hm⟩, hd⟩ := h
  refine ⟨e, total, he, ht, (Liquidation.split?_eq_none_iff hr).2 ?_⟩
  rw [Liquidation.threshold]
  split <;> omega

end World

theorem Ratio.collateral_of_le {c c' d d' price r : Nat} (h : Ratio.collateral c d price = .ok r)
    (hc : c' ≤ c) (hd : d' ≤ d) : ∃ r', Ratio.collateral c' d' price = .ok r' := by
  unfold Ratio.collateral at h ⊢
  by_cases hz : d' = 0
  · exact ⟨_, if_pos hz⟩
  · have hz' : d ≠ 0 := by omega
    rw [if_neg hz', Amount.mulDiv_eq_ok] at h
    rw [if_neg hz]
    exact ⟨_, Amount.mulDiv_eq_ok.2
      ⟨(Nat.mul_le_mul_right price hc).trans_lt h.1, hz, rfl⟩⟩

/-- Where nothing is spread the index stays. -/
theorem Ledger.liquidate_index {l l' : Ledger} {b : Address} {pending : Holding} {s : Split}
    (h : l.liquidate b pending s = .ok l') (hs : s.spread = {}) : l'.index = l.index := by
  obtain ⟨l₁, a₁, l₂, a₂, base, ht, hspread, rfl⟩ := liquidate_ok h
  have hz : Holding.isZero { collateral := s.collateralToSpread, debt := s.debtToSpread } = true :=
    Holding.isZero_iff.2 hs
  rw [spreadOver, if_pos hz] at hspread
  rw [← Except.ok.inj hspread]
  show l₁.index = l.index
  rw [ht.kept]

namespace Protocol

variable {w w₁ : World} {price r : Nat} {a b liquidator : Address} {e : Entire} {s : Split}
  {pending : Holding}

theorem Due.spread_eq (due : Due w b price e s) (hr : w.ledger.ratio b price = .ok r)
    (hm : Ratio.minimum ≤ r) : s.spread = {} := by
  obtain ⟨total, -, hs⟩ := due.split
  obtain ⟨ratio, hratio, hruled⟩ := Liquidation.split?_ruled hs
  obtain ⟨e', he, hr⟩ := World.ratio_ok hr
  cases due.position.symm.trans he
  cases hratio.symm.trans hr
  obtain ⟨hdebt, hcoll⟩ := hruled.nothing_spread hm
  rw [Split.spread, hdebt, hcoll]

/-- Where nothing is spread the others' positions stay. -/
theorem Liquidated.entire_eq (out : Liquidated w b liquidator pending s w₁)
    (hs : s.spread = {}) (hab : a ≠ b) : w₁.ledger.entire a = w.ledger.entire a :=
  ((Ledger.liquidate_retains out.ledger).1 a hab).entire_eq (Ledger.liquidate_index out.ledger hs)

/-- The two pools only shrink, so the total ratio can still be reckoned. -/
theorem Liquidated.totalRatio {total : Nat} (out : Liquidated w b liquidator pending s w₁)
    (ht : w.ledger.totalRatio price = .ok total) :
    ∃ total', w₁.ledger.totalRatio price = .ok total' := by
  have hle (x : Part) : w₁.ledger.activePool.part x + w₁.ledger.defaultPool.part x ≤
      w.ledger.activePool.part x + w.ledger.defaultPool.part x := by
    have := Ledger.liquidate_pools out.ledger x
    omega
  have hc : w₁.ledger.activePool.collateral + w₁.ledger.defaultPool.collateral ≤ _ :=
    hle .collateral
  have hd : w₁.ledger.activePool.debt + w₁.ledger.defaultPool.debt ≤ _ := hle .debt
  simp only [Ledger.totalRatio, Ledger.systemCollateral, Ledger.systemDebt, Checked.bind_eq_ok,
    Amount.add_eq_ok] at ht ⊢
  obtain ⟨_, ⟨hcl, rfl⟩, _, ⟨hdl, rfl⟩, hr⟩ := ht
  obtain ⟨r', hr'⟩ := Ratio.collateral_of_le hr hc hd
  exact ⟨r', _, ⟨hc.trans_lt hcl, rfl⟩, _, ⟨hd.trans_lt hdl, rfl⟩, hr'⟩

end Protocol

namespace World

variable {w w₁ : World} {price : Nat} {a b liquidator : Address} {e : Entire} {s : Split}

/-- Where nothing is spread an uncovered trove stays one: the deposits only
shrink. -/
theorem Uncovered.liquidated (h : w.Uncovered price a) (due : Due w b price e s)
    (out : Liquidated w b liquidator e.pending s w₁) (hs : s.spread = {}) (hab : a ≠ b) :
    w₁.Uncovered price a := by
  obtain ⟨e', he, hr, hd⟩ := h
  have hpool := (Stability.Pool.takeOffset_books due.exact.covered out.pool).1
  exact ⟨e', (out.entire_eq hs hab).trans he, hr, by omega⟩

/-! ## How far a walk has come -/

/-- The troves that a walk has passed and those ahead of it: once one is
passed, none of those ahead is below the minimum. -/
structure Passed (w : World) (price : Nat) (passed rest : List Address) : Prop where
  uncovered : ∀ a ∈ passed, w.Uncovered price a
  total : passed ≠ [] → ∃ total, w.ledger.totalRatio price = .ok total
  ahead : passed ≠ [] → ∀ a ∈ rest, ∃ r, w.ledger.ratio a price = .ok r ∧ Ratio.minimum ≤ r

namespace Passed

variable {passed rest : List Address}

theorem nil : w.Passed price [] rest :=
  ⟨fun _ ha => absurd ha List.not_mem_nil, fun h => absurd rfl h, fun h => absurd rfl h⟩

/-- A trove below the threshold that is spared is uncovered, and those behind
it are above the minimum as it is. -/
theorem skip {ratio total : Nat} (h : w.Passed price passed (b :: rest))
    (hr : w.ledger.ratio b price = .ok ratio) (ht : w.ledger.totalRatio price = .ok total)
    (below : ratio < Liquidation.threshold total) (spared : w.Spares price b)
    (leads : ∀ a ∈ rest, Ratio.AtMost (w.ledger.ratio b price) (w.ledger.ratio a price)) :
    w.Passed price (passed ++ [b]) rest := by
  obtain ⟨e, total', he, ht', hnone⟩ := spared
  cases ht.symm.trans ht'
  obtain ⟨e', he', hr'⟩ := ratio_ok hr
  cases he.symm.trans he'
  obtain habove | ⟨-, hm, -, hd⟩ := (Liquidation.split?_eq_none_iff hr').1 hnone
  · omega
  · refine ⟨fun a ha => ?_, fun _ => ⟨total, ht⟩, fun _ a ha => ?_⟩
    · rcases List.mem_append.1 ha with ha | ha
      · exact h.uncovered a ha
      · cases List.mem_singleton.1 ha
        exact ⟨e, he, ⟨ratio, hr', hm⟩, hd⟩
    · obtain ⟨r, hrb, r', hra, hle⟩ := leads a ha
      cases hr.symm.trans hrb
      exact ⟨r', hra, hm.trans hle⟩

/-- A liquidation behind a passed trove is one at the cap, which changes
nothing for the others. -/
theorem liquidated (h : w.Passed price passed (b :: rest)) (ht : w.Threaded (passed ++ b :: rest))
    (due : Due w b price e s) (out : Liquidated w b liquidator e.pending s w₁) :
    w₁.Passed price passed rest := by
  have hperm : (passed ++ b :: rest).Perm (b :: (passed ++ rest)) := List.perm_middle
  have hb : b ∉ passed ++ rest := (List.nodup_cons.1 (hperm.nodup_iff.1 ht.holds.nodup)).1
  by_cases hp : passed = []
  · rw [hp]
    exact .nil
  · obtain ⟨r, hr, hm⟩ := h.ahead hp b List.mem_cons_self
    have hs := due.spread_eq hr hm
    refine ⟨fun a ha => ?_, fun _ => ?_, fun _ a ha => ?_⟩
    · exact (h.uncovered a ha).liquidated due out hs fun hab =>
        hb (hab ▸ List.mem_append_left _ ha)
    · obtain ⟨total, htotal⟩ := h.total hp
      exact out.totalRatio htotal
    · obtain ⟨r, hr, hm⟩ := h.ahead hp a (List.mem_cons_of_mem b ha)
      have hab : a ≠ b := fun hab => hb (hab ▸ List.mem_append_right _ ha)
      refine ⟨r, ?_, hm⟩
      rw [Ledger.ratio, out.entire_eq hs hab]
      exact hr

/-- An attempt that goes on: the trove is passed, or it is closed. -/
theorem attempted {split? : Option Split} {ratio total : Nat}
    (h : w.Passed price passed (b :: rest)) (ht : w.Threaded (passed ++ b :: rest))
    (attempt : Attempted price liquidator w b split? w₁)
    (hr : w.ledger.ratio b price = .ok ratio) (htotal : w.ledger.totalRatio price = .ok total)
    (below : ratio < Liquidation.threshold total) (spared : split? = none → w.Spares price b)
    (leads : w.Spares price b →
      ∀ a ∈ rest, Ratio.AtMost (w.ledger.ratio b price) (w.ledger.ratio a price)) :
    ∃ passed', w₁.Threaded (passed' ++ rest) ∧ w₁.Passed price passed' rest := by
  cases split? with
  | none =>
    cases attempt
    have hs := spared rfl
    exact ⟨passed ++ [b], by simpa using ht, h.skip hr htotal below hs (leads hs)⟩
  | some s =>
    obtain ⟨e, due, out⟩ := attempt
    exact ⟨passed, out.threaded ht, h.liquidated ht due out⟩

theorem spares_passed {total : Nat} (h : w.Passed price passed rest)
    (ht : w.ledger.totalRatio price = .ok total) : ∀ a ∈ passed, w.Spares price a :=
  fun a ha => (h.uncovered a ha).spares ht

/-- At the end of the list every open trove was passed. -/
theorem spares_all (h : w.Passed price passed []) (ht : w.Threaded (passed ++ [])) (a : Address)
    (ha : w.ledger.isActive a = true) : w.Spares price a := by
  have hmem : a ∈ passed := by simpa using (ht.listed a).2 ha
  obtain ⟨total, htotal⟩ := h.total (List.ne_nil_of_mem hmem)
  exact h.spares_passed htotal a hmem

/-- Where the walk stops, nobody is liquidated any more. -/
theorem spares_stopped {ratio total : Nat} (h : w.Passed price passed (b :: rest))
    (hr : w.ledger.ratio b price = .ok ratio) (ht : w.ledger.totalRatio price = .ok total)
    (stop : Liquidation.threshold total ≤ ratio)
    (leads : ∀ a ∈ rest, Ratio.AtMost (w.ledger.ratio b price) (w.ledger.ratio a price)) :
    ∀ a ∈ passed ++ b :: rest, w.Spares price a := by
  intro a ha
  rcases List.mem_append.1 ha with ha | ha
  · exact h.spares_passed ht a ha
  · rcases List.mem_cons.1 ha with rfl | ha
    · exact spares_of_threshold hr ht stop
    · obtain ⟨r, hrb, r', hra, hle⟩ := leads a ha
      cases hr.symm.trans hrb
      exact spares_of_threshold hra ht (stop.trans hle)

end Passed

end World

namespace Protocol

variable {w : World} {price n : Nat} {liquidator b : Address} {t : Totals}
  {passed rest : List Address}

/-- An attempt that closes nothing spares the trove. -/
theorem ensures_spares (hb : w.ledger.isActive b = true) :
    (liquidateIfDue .usual b price liquidator).Ensures w fun split? _ =>
      split? = none → w.Spares price b := by
  simp only [liquidateIfDue, ensures_bind, ensures_world, hb, if_true, liftM_eq_ofChecked,
    ensures_ofChecked, via_pool, ensures_pure]
  intro e he total ht split? hs
  cases split? with
  | none => exact ensures_pure.2 fun _ => ⟨e, total, he, ht, hs⟩
  | some s =>
    exact ensures_bind.2 fun _ _ => ensures_pure.2 fun h => absurd h (Option.some_ne_none s)

/-- A walk to the end of the list leaves open only what it spares, unless some
trove that it examines in vain is undercut by one behind it. -/
theorem meets_walk (hw : w.Wired) (ht : w.Threaded (passed ++ rest))
    (hp : w.Passed price passed rest) (hn : rest.length ≤ n)
    (leads : ∀ m ∈ examined price liquidator n rest.head? w,
      m.1.Spares price m.2 → m.1.Leads price m.2) :
    (liquidateFrom .usual price liquidator n rest.head? t).Meets w
      (fun _ w' => ∀ a, w'.ledger.isActive a = true → w'.Spares price a)
      Fault.isIncidental := by
  -- on how many may still be examined; what was passed goes with the state
  induction n generalizing w passed rest t with
  | zero =>
    cases List.eq_nil_of_length_eq_zero (Nat.le_zero.1 hn)
    exact meets_pure.2 (hp.spares_all ht)
  | succ n ih =>
    cases rest with
    | nil => exact meets_pure.2 (hp.spares_all ht)
    | cons b rest =>
      have hlead := leads (w, b) (by simp [examined])
      rw [World.Leads, ht.holds.behind] at hlead
      rw [List.head?_cons, meets_liquidateFrom]
      refine Ledger.ratio_incidental.meets fun ratio hr =>
        Ledger.totalRatio_incidental.meets fun total htotal => ?_
      split
      · next stop =>
        intro a ha
        have hlead := hlead (World.spares_of_threshold hr htotal stop)
        exact hp.spares_stopped hr htotal stop hlead a ((ht.listed a).2 ha)
      · next below =>
        have below := Nat.lt_of_not_le below
        refine Checked.Meets.mono (meets_liquidateIfDue hw) (fun o ho attempt => ?_)
          fun _ he => he
        have hb : w.ledger.isActive b = true := (ht.listed b).1 (by simp)
        obtain ⟨passed', ht', hp'⟩ :=
          hp.attempted ht attempt hr htotal below (ensures_spares hb o ho) hlead
        have hrest : ∀ m ∈ examined price liquidator n rest.head? o.world,
            m.1.Spares price m.2 → m.1.Leads price m.2 := by
          intro m hm
          refine leads m ?_
          rw [List.head?_cons, examined_next hr htotal below ho, ht.holds.next]
          exact List.mem_cons_of_mem _ hm
        rw [ht.holds.next]
        refine Totals.tally_incidental.meets fun t₁ _ => ?_
        exact ih (attempt.wired hw) ht' hp' (Nat.le_of_succ_le_succ hn) hrest

/-! ## Walks on which nothing is spread -/

end Protocol

/-- The debt of a trove below the minimum; nothing for any other. -/
def Ledger.debtBelow (l : Ledger) (price : Nat) (a : Address) : Nat :=
  match l.entire a, l.ratio a price with
  | .ok e, .ok r => if r < Ratio.minimum then e.debt else 0
  | _, _ => 0

namespace World

/-- Some troves in order of their ratios at a price, each worth its debt, of which
the deposits cover all that are below the minimum. -/
structure Graded (w : World) (price : Nat) (xs : List Address) : Prop where
  ordered : xs.Pairwise fun a b =>
    Ratio.AtMost (w.ledger.ratio a price) (w.ledger.ratio b price)
  worth : ∀ a ∈ xs, Ratio.AtMost (.ok Amount.one) (w.ledger.ratio a price)
  covered : (xs.map (w.ledger.debtBelow price)).sum ≤ w.pool.total

instance (w : World) (price : Nat) (xs : List Address) : Decidable (w.Graded price xs) :=
  decidable_of_iff (xs.Pairwise (fun a b =>
      Ratio.AtMost (w.ledger.ratio a price) (w.ledger.ratio b price)) ∧
    (∀ a ∈ xs, Ratio.AtMost (.ok Amount.one) (w.ledger.ratio a price)) ∧
    (xs.map (w.ledger.debtBelow price)).sum ≤ w.pool.total)
    ⟨fun ⟨ho, hw, hc⟩ => ⟨ho, hw, hc⟩, fun h => ⟨h.ordered, h.worth, h.covered⟩⟩

namespace Graded

variable {w w₁ : World} {price : Nat} {b liquidator : Address} {e : Entire} {s : Split}
  {passed rest : List Address}

theorem tail (h : w.Graded price (b :: rest)) : w.Graded price rest where
  ordered := (List.pairwise_cons.1 h.ordered).2
  worth a ha := h.worth a (List.mem_cons_of_mem b ha)
  covered := by
    have hc := h.covered
    rw [List.map_cons, List.sum_cons] at hc
    omega

/-- The first of graded troves, if it is liquidated, leaves nothing to the others,
and those behind it are covered by the deposits that are left. -/
theorem first (h : w.Graded price (b :: rest)) (due : Due w b price e s) :
    s.spread = {} ∧
      (rest.map (w.ledger.debtBelow price)).sum + s.debtToOffset ≤ w.pool.total := by
  obtain ⟨total, -, hs⟩ := due.split
  obtain ⟨ratio, hr, hruled⟩ := Liquidation.split?_ruled hs
  have hratio : w.ledger.ratio b price = .ok ratio :=
    Checked.bind_eq_ok.2 ⟨e, due.position, hr⟩
  have hcovered := h.covered
  rw [List.map_cons, List.sum_cons] at hcovered
  have hoffset := due.exact.debt
  by_cases hm : ratio < Ratio.minimum
  · have hrisk : w.ledger.debtBelow price b = e.debt := by
      simp only [Ledger.debtBelow, due.position, hratio, if_pos hm]
    obtain ⟨_, hone, _, hr', worth⟩ := h.worth b List.mem_cons_self
    cases hone
    cases hratio.symm.trans hr'
    have hbound : Ratio.minimum ≤ Ratio.unbounded := by decide
    obtain ⟨hdebt, hcoll⟩ := hruled.nothing_spread_of_covered
      (Ratio.debt_ne hr (hm.trans_le hbound)) worth (by omega)
    refine ⟨?_, by omega⟩
    rw [Split.spread, hdebt, hcoll]
  · have hm := Nat.le_of_not_lt hm
    -- those behind are not below the minimum either
    have hnone : (rest.map (w.ledger.debtBelow price)).sum = 0 := by
      refine List.sum_eq_zero fun n hn => ?_
      obtain ⟨a, ha, rfl⟩ := List.mem_map.1 hn
      obtain ⟨r, hr, r', hr', hle⟩ := (List.pairwise_cons.1 h.ordered).1 a ha
      cases hratio.symm.trans hr
      rw [Ledger.debtBelow, hr']
      split
      · next heq =>
        cases heq
        exact if_neg (Nat.not_lt.2 (hm.trans hle))
      · rfl
    have hexact := due.exact.covered
    exact ⟨due.spread_eq hratio hm, by omega⟩

/-- Once the first of graded troves is liquidated the others are graded still. -/
theorem liquidated (h : w.Graded price (b :: rest)) (ht : w.Threaded (passed ++ b :: rest))
    (due : Due w b price e s) (out : Liquidated w b liquidator e.pending s w₁) :
    w₁.Graded price rest := by
  obtain ⟨hs, hcovered⟩ := h.first due
  have hperm : (passed ++ b :: rest).Perm (b :: (passed ++ rest)) := List.perm_middle
  have hb : b ∉ passed ++ rest := (List.nodup_cons.1 (hperm.nodup_iff.1 ht.holds.nodup)).1
  have hentire {a : Address} (ha : a ∈ rest) : w₁.ledger.entire a = w.ledger.entire a :=
    out.entire_eq hs fun hab => hb (hab ▸ List.mem_append_right _ ha)
  have hratio {a : Address} (ha : a ∈ rest) :
      w₁.ledger.ratio a price = w.ledger.ratio a price := by
    rw [Ledger.ratio, hentire ha]
    rfl
  have hbelow : rest.map (w₁.ledger.debtBelow price) = rest.map (w.ledger.debtBelow price) :=
    List.map_congr_left fun a ha => by
      rw [Ledger.debtBelow, Ledger.debtBelow, hentire ha, hratio ha]
  have hpool := (Stability.Pool.takeOffset_books due.exact.covered out.pool).1
  refine ⟨h.tail.ordered.imp_of_mem fun ha hb hle => ?_, fun a ha => ?_, ?_⟩
  · rw [hratio ha, hratio hb]
    exact hle
  · rw [hratio ha]
    exact h.tail.worth a ha
  · rw [hbelow]
    omega

end Graded

end World

namespace Protocol

/-- On a walk along graded troves none that is examined is undercut. -/
theorem leads_of_graded (hw : w.Wired) (ht : w.Threaded (passed ++ rest))
    (graded : w.Graded price rest) :
    ∀ m ∈ examined price liquidator n rest.head? w, m.1.Leads price m.2 := by
  induction n generalizing w passed rest with
  | zero => exact fun m hm => absurd hm List.not_mem_nil
  | succ n ih =>
    cases rest with
    | nil => exact fun m hm => absurd hm List.not_mem_nil
    | cons b rest =>
      intro m hm
      rcases List.mem_cons.1 hm with rfl | hm
      · rw [World.Leads, ht.holds.behind]
        exact (List.pairwise_cons.1 graded.ordered).1
      · split at hm
        · next o _ ho =>
          rw [ht.holds.next] at hm
          have attempt := ensures_liquidateIfDue hw o ho
          have hw' := attempt.wired hw
          cases hv : o.value with
          | none =>
            rw [hv] at attempt
            have hsame : o.world = w := attempt
            have ht' : w.Threaded (passed ++ [b] ++ rest) := by simpa using ht
            rw [hsame] at hm
            exact ih hw ht' graded.tail m hm
          | some s =>
            rw [hv] at attempt
            obtain ⟨e, due, out⟩ := attempt
            exact ih hw' (out.threaded ht) (graded.liquidated ht due out) m hm
        · exact absurd hm List.not_mem_nil

/-! ## The whole request -/

theorem Sweep.troves_le {w w' : World} {t t' : Totals} (h : Sweep price liquidator w t w' t') :
    t.troves ≤ t'.troves := by
  induction h with
  | done => exact le_rfl
  | next _ _ tally _ ih =>
    have hn := add_troves tally
    omega

/-- A sweep that closes nothing changes nothing. -/
theorem Sweep.eq_of_troves {w w' : World} {t t' : Totals}
    (h : Sweep price liquidator w t w' t') (hn : t'.troves = t.troves) : w' = w := by
  cases h with
  | done => rfl
  | next _ _ tally rest =>
    have hle := rest.troves_le
    have hsucc := add_troves tally
    omega

/-- A sweep leaves the clock, the oracles and the feed alone. -/
theorem Sweep.around {w w' : World} {t t' : Totals} (h : Sweep price liquidator w t w' t') :
    w'.feed = w.feed ∧ w'.round? = w.round? ∧ w'.quote? = w.quote? ∧ w'.time = w.time := by
  induction h with
  | done => exact ⟨rfl, rfl, rfl, rfl⟩
  | next _ out _ _ ih =>
    rw [out.rest] at ih
    exact ih

end Protocol

/-- A request for one trove that is spared finds nothing to liquidate. -/
theorem World.Spares.refused {w : World} {d : Price.Decision} {b : Address} (hw : w.Wired)
    (hd : w.feed.decideAt w.round? w.quote? w.time = .ok d) (hb : w.ledger.isActive b = true)
    (h : w.Spares (w.feed.follow d).lastGood b) (caller : Address) :
    (Request.liquidateOne b).perform caller w = .error (.refused .nothingToLiquidate) := by
  obtain ⟨e, total, he, ht, hs⟩ := h
  have hm : ((Request.liquidateOne b).perform caller).Meets w (fun _ _ => False)
      (· = .refused .nothingToLiquidate) := by
    simp only [Request.perform, Protocol.liquidateOne, Protocol.liquidateAll,
      Protocol.liquidateEach, Protocol.liquidateIfDue, liftM_eq_ofChecked, meets_bind, meets_world,
      meets_ofChecked, meets_require, hb, if_true, Protocol.meets_ledgerLinks hw.ledger]
    refine Protocol.meets_priceFrom.2 (Checked.meets_of_ok hd ?_)
    simp only [hb, he, ht, hs, Protocol.via_pool, meets_bind, meets_world, meets_ofChecked, if_true,
      Checked.meets_ok, meets_pure]
    simp [Totals.tally, Protocol.conclude]
  obtain ⟨f, hf, rfl⟩ := hm.fails
  exact hf

/-- No open trove can be liquidated, whoever asks. -/
def World.Exhausted (w : World) : Prop :=
  ∀ b caller, w.ledger.isActive b = true →
    (Request.liquidateOne b).perform caller w = .error (.refused .nothingToLiquidate)

theorem World.exhausted_of_spares {w : World} {d : Price.Decision} (hw : w.Wired)
    (hd : w.feed.decideAt w.round? w.quote? w.time = .ok d)
    (h : ∀ b, w.ledger.isActive b = true → w.Spares (w.feed.follow d).lastGood b) :
    w.Exhausted := fun b caller hb => (h b hb).refused hw hd hb caller

/-- No trove that a request for the riskiest examines in vain is undercut by one
behind it. -/
def World.Climbs (w : World) (caller : Address) (most : Nat) : Prop :=
  ∀ d, w.feed.decideAt w.round? w.quote? w.time = .ok d →
    let price := (w.feed.follow d).lastGood
    ∀ m ∈ Protocol.examined price caller most w.list.head? { w with feed := w.feed.follow d },
      m.1.Spares price m.2 → m.1.Leads price m.2

/-- A request does not climb in vain if before it the listed troves are graded at
the price it will fetch: then it spreads nothing, and no ratio moves. -/
theorem World.Graded.climbs {w : World} {xs : List Address} (hw : w.Wired) (ht : w.Threaded xs)
    (graded : ∀ d, w.feed.decideAt w.round? w.quote? w.time = .ok d →
      w.Graded (w.feed.follow d).lastGood (w.list.forward w.list.size))
    (caller : Address) (most : Nat) : w.Climbs caller most := by
  intro d hd price m hm _
  have graded := graded d hd
  rw [ht.holds.forward, ht.holds.size, List.take_length] at graded
  rw [ht.holds.head] at hm
  have ht' : World.Threaded { w with feed := w.feed.follow d } ([] ++ xs) := ht.withFeed _
  exact Protocol.leads_of_graded (hw.withFeed _) ht'
    ⟨graded.ordered, graded.worth, graded.covered⟩ m hm

namespace Protocol

variable {w : World} {d : Price.Decision} {caller : Address} {most : Nat}

/-- Where a sweep ends the feed decides the same again. -/
theorem Sweep.exhausted {w' : World} {t t' : Totals}
    (h : Sweep (w.feed.follow d).lastGood caller { w with feed := w.feed.follow d } t w' t')
    (hw : w'.Wired) (hd : w.feed.decideAt w.round? w.quote? w.time = .ok d)
    (spares : ∀ b, w'.ledger.isActive b = true → w'.Spares (w.feed.follow d).lastGood b) :
    w'.Exhausted := by
  obtain ⟨hfeed, hround, hquote, htime⟩ := h.around
  have hd' : w'.feed.decideAt w'.round? w'.quote? w'.time = .ok d := by
    rw [hfeed, hround, hquote, htime]
    exact Price.Feed.decideAt_again hd
  refine World.exhausted_of_spares hw hd' fun b hb => ?_
  rw [hfeed, Price.Feed.follow_again]
  exact spares b hb

/-- A climb along the whole list exhausts the system; one that finds nothing
had nothing to find. -/
theorem meets_liquidateRiskiest {xs : List Address} (hw : w.Wired) (ht : w.Threaded xs)
    (hmost : xs.length ≤ most) (climbs : w.Climbs caller most) :
    (liquidateRiskiest caller most).Meets w (fun _ w' => w'.Exhausted)
      fun f => f = .refused .nothingToLiquidate → w.Exhausted := by
  have incidental (f : Fault) (hf : f.isIncidental) (he : f = .refused .nothingToLiquidate) :
      w.Exhausted := absurd he hf.ne
  simp only [liquidateRiskiest, liftM_eq_ofChecked, meets_bind, meets_ofChecked, meets_require,
    bne_iff_ne, meets_ledgerLinks hw.ledger, via_list]
  split
  · refine meets_priceFrom.2 (Price.Feed.decideAt_meets.mono (fun d hd _ => ?_) fun _ => False.elim)
    have hw' : World.Wired { w with feed := w.feed.follow d } := hw.withFeed _
    have ht' : World.Threaded { w with feed := w.feed.follow d } ([] ++ xs) := ht.withFeed _
    have climbs := climbs d hd
    rw [ht.holds.head] at climbs
    refine meets_world.2 (meets_pure.2 ?_)
    show (liquidateFrom .usual _ caller most w.list.head? {}).Meets _ _ _
    rw [ht.holds.head]
    refine Checked.Meets.mono (meets_walk hw' ht' .nil hmost climbs) (fun o ho spares => ?_)
      incidental
    have hs := ensures_liquidateFrom hw' o ho
    simp only [conclude, liftM_eq_ofChecked, meets_bind, meets_ofChecked, meets_require,
      bne_iff_ne, meets_emit, meets_pure]
    split
    · exact hs.exhausted (hs.wired hw') hd spares
    · next hn =>
      intro _
      have hsame := hs.eq_of_troves (Decidable.not_not.1 hn)
      rw [hsame] at spares
      exact World.exhausted_of_spares hw hd spares
  · next hz =>
    intro _ b caller hb
    cases List.eq_nil_of_length_eq_zero (Nat.le_zero.1 (Decidable.not_not.1 hz ▸ hmost))
    exact absurd ((ht.listed b).2 hb) List.not_mem_nil

end Protocol

namespace Deployment

/-- What a request for the riskiest troves leaves.

It examines every trove, if it likes, and in no reachable state does it miss
one that can be liquidated, as long as no trove that it examines in vain is
undercut by one behind it.  If it finds nothing, nothing could be liquidated;
if it goes through, nothing can be liquidated any more. -/
theorem climb_exhausts {d : Deployment} {incentive? : Option Liquidation.Incentive}
    {o : Outcome Unit} (start : d.start (some { incentive? }) = .ok o) {ts : List Turn}
    (outside : ∀ t ∈ ts, t.outside) {caller : Address} {most : Nat}
    (whole : (o.world.after ts).list.size ≤ most)
    (climbs : (o.world.after ts).Climbs caller most) :
    let w := o.world.after ts
    let request := (Request.liquidateRiskiest most).perform caller w
    (request = .error (.refused .nothingToLiquidate) → w.Exhausted) ∧
      ∀ out, request = .ok out → out.world.Exhausted := by
  have hw := (start_ready start).sound_after outside
  obtain ⟨xs, hx⟩ := hw.threaded
  rw [hx.holds.size] at whole
  have h : ((Request.liquidateRiskiest most).perform caller).Meets (o.world.after ts)
      (fun _ w' => w'.Exhausted)
      fun f => f = .refused .nothingToLiquidate → (o.world.after ts).Exhausted := by
    rw [Request.perform, meets_bind]
    exact Protocol.meets_liquidateRiskiest hw.wired hx whole climbs
  intro w request
  rw [Action.Meets] at h
  refine ⟨fun hr => ?_, fun out hr => ?_⟩
  · rw [show (Request.liquidateRiskiest most).perform caller w = _ from hr] at h
    exact h rfl
  · rw [show (Request.liquidateRiskiest most).perform caller w = _ from hr] at h
    exact h

/-- Four troves, listed 4, 2, 3, 1.  At the lower price the system recovers:
the first is below the minimum, the pool does not cover the second, it covers
the third, and the last is above the total ratio. -/
def passedOver : List Turn :=
  Turn.opening (.account 1) (20 * Amount.one) (1300 * Amount.one) ++
  Turn.opening (.account 2) (10 * Amount.one) (900 * Amount.one) ++
  Turn.opening (.account 3) (4 * Amount.one) (200 * Amount.one) ++
  Turn.opening (.account 4) (3 * Amount.one) (150 * Amount.one) ++
  [.call (.account 1) (.provide (1000 * Amount.one)), .pricing 12500000000]

theorem climb_exhausts_passedOver :
    ∃ o, plain.start (some { incentive? := none }) = .ok o ∧
      (∀ t ∈ passedOver, t.outside) ∧
      let w := o.world.after passedOver
      w.list.forward 4 = [.account 4, .account 2, .account 3, .account 1] ∧
        w.list.size ≤ 4 ∧ w.Climbs (.account 5) 4 ∧
        ∃ out, (Request.liquidateRiskiest 4).perform (.account 5) w = .ok out ∧
          out.world.list.forward 4 = [.account 2, .account 1] ∧ out.world.Exhausted := by
  let decision : Price.Decision := ⟨.secondaryUntrusted, .primary (125 * Amount.one)⟩
  obtain ⟨o, ho, hl, hn, hd, hg, hr⟩ : ∃ o, plain.start (some { incentive? := none }) = .ok o ∧
      let w := o.world.after passedOver
      w.list.forward 4 = [.account 4, .account 2, .account 3, .account 1] ∧
        w.list.size ≤ 4 ∧
        w.feed.decideAt w.round? w.quote? w.time = .ok decision ∧
        w.Graded (w.feed.follow decision).lastGood (w.list.forward w.list.size) ∧
        (do
          let out ← (Request.liquidateRiskiest 4).perform (.account 5) w
          return out.world.list.forward 4) = .ok [.account 2, .account 1] :=
    Checked.exists_ok (by decide +kernel)
  have hout : ∀ t ∈ passedOver, t.outside := by decide +kernel
  have climbs : (o.world.after passedOver).Climbs (.account 5) 4 := by
    have sound := (start_ready ho).sound_after hout
    obtain ⟨xs, hx⟩ := sound.threaded
    refine World.Graded.climbs sound.wired hx (fun d hd' => ?_) _ _
    cases hd.symm.trans hd'
    exact hg
  obtain ⟨out, hout', hlist⟩ := Checked.bind_eq_ok.1 hr
  exact ⟨o, ho, hout, hl, hn, climbs, out, hout', Except.ok.inj hlist,
    (climb_exhausts ho hout hn climbs).2 out hout'⟩

/-- Two troves tie at the rounded nominal ratio, and the later one, which has a
little less collateral, is listed behind.  At the lower price the first is at
the minimum and the second just below it. -/
def tied : List Turn :=
  .pricing 40000000000 ::
  Turn.opening (.account 1) (1000 * Amount.one) (1000 * Amount.one) ++
  Turn.opening (.account 2) 4400000000000000000 (1000 * Amount.one) ++
  Turn.opening (.account 3) 4399999999999999992 (1000 * Amount.one) ++
  [.pricing 30000000000]

/-- The walk finds nothing and misses the later of the two. -/
theorem climb_misses_tied :
    ∃ o, plain.start (some { incentive? := none }) = .ok o ∧
      (∀ t ∈ tied, t.outside) ∧
      let w := o.world.after tied
      w.list.forward 3 = [.account 2, .account 3, .account 1] ∧ w.list.size ≤ 100 ∧
        w.ledger.nominalRatio (.account 2) = w.ledger.nominalRatio (.account 3) ∧
        (Request.liquidateRiskiest 100).perform (.account 9) w =
          .error (.refused .nothingToLiquidate) ∧
        ¬ w.Exhausted := by
  obtain ⟨o, ho, hl, hn, hr, hf, ha, hone⟩ : ∃ o,
      plain.start (some { incentive? := none }) = .ok o ∧
      let w := o.world.after tied
      w.list.forward 3 = [.account 2, .account 3, .account 1] ∧ w.list.size ≤ 100 ∧
        w.ledger.nominalRatio (.account 2) = w.ledger.nominalRatio (.account 3) ∧
        Checked.fault? ((Request.liquidateRiskiest 100).perform (.account 9) w) =
          some (.refused .nothingToLiquidate) ∧
        w.ledger.isActive (.account 3) = true ∧
        Checked.fault? ((Request.liquidateOne (.account 3)).perform (.account 9) w) = none :=
    Checked.exists_ok (by decide +kernel)
  refine ⟨o, ho, by decide +kernel, hl, hn, hr, Checked.fault?_eq_some.1 hf, fun h => ?_⟩
  rw [h (.account 3) (.account 9) ha] at hone
  exact absurd hone (Option.some_ne_none _)

end Deployment

end Troves
