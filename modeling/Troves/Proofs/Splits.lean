/-
# What a split adds up to

A split says where the debt and the collateral of one trove go.  Nothing is
lost on the way and nothing is added, in whichever mode and however the
divisions round: what is rounded off a share goes with the rest.
-/
import Troves.Proofs.Effects

namespace Troves

namespace Liquidation

namespace Split

/-- The shares of a split come to the whole of a trove, the pool is not asked
for more debt than it can cancel, and it is given nothing for no debt. -/
structure Exact (s : Split) (debt collateral deposits : Nat) : Prop where
  debt : s.debtToOffset + s.debtToSpread = debt
  collateral : s.collateralCompensation + s.collateralToPool + s.collateralToSpread +
    s.surplus = collateral
  covered : s.debtToOffset ≤ deposits
  unpaid : s.debtToOffset = 0 → s.collateralToPool = 0

variable {s : Split} {debt collateral deposits price total : Nat} {i : Incentive}

theorem offsetPart_ok {p : Nat × Nat}
    (h : offsetPart debt collateral deposits = .ok p) :
    p.1 ≤ deposits ∧ (p.1 = 0 → p.2 = 0) := by
  rw [offsetPart] at h
  split at h
  · cases h
    exact ⟨Nat.zero_le _, fun _ => rfl⟩
  · simp only [Checked.bind_eq_ok, Checked.pure_eq_ok, Amount.mulDiv_eq_ok] at h
    obtain ⟨n, ⟨-, -, rfl⟩, rfl⟩ := h
    refine ⟨Nat.min_le_right _ _, fun hz => ?_⟩
    simp only [show min debt deposits = 0 from hz, Nat.mul_zero, Nat.zero_div]

theorem offsetAndSpread_exact (h : offsetAndSpread debt collateral deposits i = .ok s) :
    s.Exact debt collateral deposits := by
  simp only [offsetAndSpread, Checked.bind_eq_ok, Checked.pure_eq_ok, Amount.sub_eq_ok] at h
  obtain ⟨_, ⟨hc, rfl⟩, p, hp, _, ⟨hd, rfl⟩, _, ⟨hr, rfl⟩, rfl⟩ := h
  obtain ⟨hle, hz⟩ := offsetPart_ok hp
  constructor
  · exact Nat.add_sub_cancel' hd
  · dsimp only
    omega
  · exact hle
  · exact hz

theorem spreadAll_exact (h : spreadAll debt collateral i = .ok s) :
    s.Exact debt collateral deposits := by
  simp only [spreadAll, Checked.bind_eq_ok, Checked.pure_eq_ok, Amount.sub_eq_ok] at h
  obtain ⟨_, ⟨hc, rfl⟩, rfl⟩ := h
  constructor
  · exact Nat.zero_add debt
  · dsimp only
    omega
  · exact Nat.zero_le deposits
  · exact fun _ => rfl

theorem offsetAtCap_exact (hd : debt ≤ deposits)
    (h : offsetAtCap debt collateral price i = .ok s) : s.Exact debt collateral deposits := by
  simp only [offsetAtCap, Checked.bind_eq_ok, Checked.pure_eq_ok, Amount.sub_eq_ok,
    Amount.mulDiv_eq_ok] at h
  obtain ⟨cap, ⟨-, -, hcap⟩, _, ⟨hc, rfl⟩, _, ⟨hs, rfl⟩, rfl⟩ := h
  constructor
  · exact Nat.add_zero debt
  · dsimp only
    omega
  · exact hd
  · -- without debt the cap is zero
    intro hz
    have hz : debt = 0 := hz
    simp [hcap, hz]

end Split

variable {mode : Mode} {s : Split} {debt collateral price total deposits : Nat} {i : Incentive}

/-- The rule by which a trove of some ratio came by its split. -/
inductive Ruled (mode : Mode) (debt collateral price total deposits : Nat) (i : Incentive)
    (ratio : Nat) (s : Split) : Prop where
  | offset (below : ratio < Ratio.minimum) (worth : mode = .recovery → Amount.one ≤ ratio)
      (split : Split.offsetAndSpread debt collateral deposits i = .ok s)
  | spread (recovery : mode = .recovery) (below : ratio < Amount.one)
      (split : Split.spreadAll debt collateral i = .ok s)
  | capped (recovery : mode = .recovery) (least : Ratio.minimum ≤ ratio) (below : ratio < total)
      (covered : debt ≤ deposits) (split : Split.offsetAtCap debt collateral price i = .ok s)

theorem split?_ruled
    (h : split? mode debt collateral price total deposits i = .ok (some s)) :
    ∃ ratio, Ratio.collateral collateral debt price = .ok ratio ∧
      Ruled mode debt collateral price total deposits i ratio s := by
  simp only [split?, Checked.bind_eq_ok] at h
  obtain ⟨ratio, hr, h⟩ := h
  refine ⟨ratio, hr, ?_⟩
  cases mode with
  | normal =>
    by_cases hm : ratio < Ratio.minimum
    · exact .offset hm (fun h => by cases h) (by simpa [hm] using h)
    · simp [hm] at h
  | recovery =>
    by_cases ho : ratio < Amount.one
    · exact .spread rfl ho (by simpa [ho] using h)
    · by_cases hm : ratio < Ratio.minimum
      · exact .offset hm (fun _ => Nat.le_of_not_lt ho) (by simpa [ho, hm] using h)
      · by_cases hc : ratio < total ∧ debt ≤ deposits
        · exact .capped rfl (Nat.le_of_not_lt hm) hc.1 hc.2 (by simpa [ho, hm, hc] using h)
        · simp [ho, hm, hc] at h

/-- Which troves are spared: those at the threshold and, in recovery, those
between the minimum and the total ratio that the deposits do not cover. -/
theorem split?_eq_none_iff {ratio : Nat} (hr : Ratio.collateral collateral debt price = .ok ratio) :
    split? (Mode.ofTotal total) debt collateral price total deposits i = .ok none ↔
      threshold total ≤ ratio ∨ (total < Ratio.critical ∧ Ratio.minimum ≤ ratio ∧ ratio < total ∧
        deposits < debt) := by
  have hone : Amount.one ≤ Ratio.minimum := by decide
  have hnone {x : Checked Split} : (do return some (← x) : Checked (Option Split)) ≠ .ok none := by
    intro h
    cases x <;> cases h
  rw [split?, hr, Mode.ofTotal, threshold]
  by_cases ht : total < Ratio.critical
  · simp only [if_pos ht, Checked.bind_eq_ok, Except.ok.injEq, exists_eq_left']
    by_cases ho : ratio < Amount.one
    · simp only [if_pos ho, hnone, false_iff]
      omega
    · by_cases hm : ratio < Ratio.minimum
      · simp only [if_neg ho, if_pos hm, hnone, false_iff]
        omega
      · by_cases hc : ratio < total ∧ debt ≤ deposits
        · simp only [if_neg ho, if_neg hm, if_pos hc, hnone, false_iff]
          omega
        · simp only [if_neg ho, if_neg hm, if_neg hc, Checked.pure_eq_ok, true_iff]
          omega
  · simp only [if_neg ht, Checked.bind_eq_ok, Except.ok.injEq, exists_eq_left']
    by_cases hm : ratio < Ratio.minimum
    · simp only [if_pos hm, hnone, false_iff]
      omega
    · simp only [if_neg hm, Checked.pure_eq_ok, true_iff]
      omega

/-- Whatever the mode and the ratio, a split shares out the whole trove. -/
theorem split?_exact
    (h : split? mode debt collateral price total deposits i = .ok (some s)) :
    s.Exact debt collateral deposits := by
  obtain ⟨ratio, -, hr⟩ := split?_ruled h
  cases hr with
  | offset _ _ hs => exact Split.offsetAndSpread_exact hs
  | spread _ _ hs => exact Split.spreadAll_exact hs
  | capped _ _ _ hd hs => exact Split.offsetAtCap_exact hd hs

/-- A split is of the whole debt and the whole collateral, and whoever
liquidates is always paid the same in stablecoin. -/
theorem Ruled.whole {ratio : Nat} (h : Ruled mode debt collateral price total deposits i ratio s) :
    s.debt = debt ∧ s.collateral = collateral ∧ s.debtCompensation = i.debtCompensation := by
  cases h with
  | offset _ _ hs =>
    simp only [Split.offsetAndSpread, Checked.bind_eq_ok, Checked.pure_eq_ok] at hs
    obtain ⟨_, -, _, -, _, -, _, -, rfl⟩ := hs
    exact ⟨rfl, rfl, rfl⟩
  | spread _ _ hs =>
    simp only [Split.spreadAll, Checked.bind_eq_ok, Checked.pure_eq_ok] at hs
    obtain ⟨_, -, rfl⟩ := hs
    exact ⟨rfl, rfl, rfl⟩
  | capped _ _ _ _ hs =>
    simp only [Split.offsetAtCap, Checked.bind_eq_ok, Checked.pure_eq_ok] at hs
    obtain ⟨_, -, _, -, _, -, rfl⟩ := hs
    exact ⟨rfl, rfl, rfl⟩

/-- A trove at or above the minimum leaves nothing to the others. -/
theorem Ruled.nothing_spread {ratio : Nat}
    (h : Ruled mode debt collateral price total deposits i ratio s) (hm : Ratio.minimum ≤ ratio) :
    s.debtToSpread = 0 ∧ s.collateralToSpread = 0 := by
  have hone : Amount.one ≤ Ratio.minimum := by decide
  cases h with
  | offset below _ _ => omega
  | spread _ below _ => omega
  | capped _ _ _ _ hs =>
    simp only [Split.offsetAtCap, Checked.bind_eq_ok, Checked.pure_eq_ok] at hs
    obtain ⟨_, -, _, -, _, -, rfl⟩ := hs
    exact ⟨rfl, rfl⟩

/-- Nor does one that is worth its debt and covered by the deposits. -/
theorem Ruled.nothing_spread_of_covered {ratio : Nat}
    (h : Ruled mode debt collateral price total deposits i ratio s) (hd : debt ≠ 0)
    (worth : Amount.one ≤ ratio) (covered : debt ≤ deposits) :
    s.debtToSpread = 0 ∧ s.collateralToSpread = 0 := by
  by_cases hm : Ratio.minimum ≤ ratio
  · exact h.nothing_spread hm
  cases h with
  | offset _ _ hs =>
    have hdeposits : deposits ≠ 0 := by omega
    simp only [Split.offsetAndSpread, Split.offsetPart, if_neg hdeposits, Nat.min_eq_left covered,
      Checked.bind_eq_ok, Checked.pure_eq_ok, Amount.sub_eq_ok, Amount.mulDiv_eq_ok] at hs
    obtain ⟨rest, -, _, ⟨_, ⟨-, -, rfl⟩, rfl⟩, _, ⟨-, rfl⟩, _, ⟨-, rfl⟩, rfl⟩ := hs
    refine ⟨Nat.sub_self debt, ?_⟩
    show rest - rest * debt / debt = 0
    rw [Nat.mul_div_cancel rest (Nat.pos_of_ne_zero hd), Nat.sub_self]
  | spread _ below _ => omega
  | capped _ least _ _ _ => exact absurd least hm

theorem split?_whole (h : split? mode debt collateral price total deposits i = .ok (some s)) :
    s.debt = debt ∧ s.collateral = collateral ∧ s.debtCompensation = i.debtCompensation := by
  obtain ⟨ratio, -, hr⟩ := split?_ruled h
  exact hr.whole

namespace Split.Exact

/-- What the pool is given is what the ledger hands over. -/
theorem handedOver (h : s.Exact debt collateral deposits) :
    s.handedOver = s.collateralToPool := by
  rw [Split.handedOver]
  split
  · next hz => exact (h.unpaid hz).symm
  · rfl

end Split.Exact

end Liquidation

end Troves
