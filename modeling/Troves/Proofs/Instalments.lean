/-
# Settling in instalments

Anybody may have a trove settled at any time.  Each settlement rounds what the
stake has earned since the one before down to whole units.

    mark ───── i₁ ───── i₂ ───── … ───── iₙ = last
        ⌊earned⌋  ⌊earned⌋          ⌊earned⌋       n roundings
        ⌊earned                            ⌋       one

A sum of n roundings falls short of the rounded sum by less than n.  So however
the settlements are placed, a borrower's collateral and debt come to what one
settlement at the last index makes of them, up to one unit for each settlement
that was not needed.
-/
import Troves.Proofs.Run

namespace Troves

namespace Accrual

/-- Settles a trove at some indices, one after the other. -/
def settleEach (t : Trove) (mark : Holding) : List Holding → Checked (List Settlement)
  | [] => return []
  | i :: indices => do
    let s ← settle t mark i
    let ss ← settleEach s.trove s.mark indices
    return s :: ss

/-- What some settlements apply together. -/
def paid (ss : List Settlement) (x : Part) : Nat := (ss.map fun s => s.applied.part x).sum

/-- What a stake earns from one index to another, rounded down to whole units. -/
def earned (stake : Nat) (mark index : Holding) (x : Part) : Nat :=
  stake * (index.part x - mark.part x) / Amount.one

/-- Whether rewards can have moved the index from one value to another. -/
def Precedes (i j : Holding) : Prop := ∀ x, i.part x ≤ j.part x

/-- Indices of which none falls below one before it. -/
def Growing (indices : List Holding) : Prop := indices.Pairwise Precedes

/-- What a trove earns up to an index can be reckoned, and there is room for it. -/
def Payable (t : Trove) (mark index : Holding) : Prop :=
  ∀ x, t.stake * (index.part x - mark.part x) < Amount.limit ∧
    t.toHolding.part x + earned t.stake mark index x < Amount.limit

/-- Some settlements of a trove: each leaves its mark at its own index, and all
of them together leave the trove as it was but for what they apply. -/
structure Instalments (t : Trove) (points : List Holding) (ss : List Settlement) : Prop where
  marks : ss.map Settlement.mark = points
  trove : ∀ s, ss.getLast? = some s → s.trove = { t with
    collateral := t.collateral + paid ss .collateral, debt := t.debt + paid ss .debt }

variable {t : Trove} {stake : Nat} {mark index i last : Holding} {x : Part} {s : Settlement}
  {points indices : List Holding} {ss : List Settlement}

theorem paid_cons : paid (s :: ss) x = s.applied.part x + paid ss x := List.sum_cons

theorem Growing.precedes_last (h : Growing indices) (hlast : indices.getLast? = some last)
    (hi : i ∈ indices) : Precedes i last := by
  obtain ⟨earlier, rfl⟩ := List.getLast?_eq_some_iff.1 hlast
  rcases List.mem_append.1 hi with hi | hi
  · exact (List.pairwise_append.1 h).2.2 i hi last (List.mem_singleton.2 rfl)
  · rw [List.mem_singleton.1 hi]
    exact fun _ => le_rfl

/-! ## Roundings -/

/-- What is earned on the way falls short by at most a unit of what is earned at
once. -/
theorem earned_between (stake : Nat) (x : Part) (hi : Precedes mark i) (hl : Precedes i last) :
    earned stake mark i x + earned stake i last x ≤ earned stake mark last x ∧
      earned stake mark last x ≤ earned stake mark i x + earned stake i last x + 1 := by
  have hone : 0 < Amount.one := by decide
  have hsum : stake * (last.part x - mark.part x) =
      stake * (i.part x - mark.part x) + stake * (last.part x - i.part x) := by
    have := hi x
    have := hl x
    rw [← Nat.mul_add]
    congr 1
    omega
  rw [earned, earned, earned, hsum, Nat.add_div hone]
  split <;> omega

/-! ## One settlement -/

theorem settle_applied (ht : t.isActive = true) (h : settle t mark index = .ok s) (x : Part) :
    s.applied.part x = earned t.stake mark index x :=
  Ledger.accrual_pending_ok (Ledger.accrual_settle_ok ht h).1 x

/-- Rewards can be reckoned only if the products of stake and growth fit. -/
theorem pending_fits {p : Holding} (h : pending stake mark index = .ok p) (x : Part) :
    stake * (index.part x - mark.part x) < Amount.limit := by
  rw [pending] at h
  split at h
  · next hz =>
    rw [hz, Nat.zero_mul]
    decide
  · simp only [share, Checked.bind_eq_ok, Holding.sub_eq_ok, Amount.mulDiv_eq_ok] at h
    obtain ⟨_, ⟨-, rfl⟩, _, ⟨hc, -⟩, _, ⟨hd, -⟩, -⟩ := h
    cases x with
    | collateral => exact hc
    | debt => exact hd

theorem pending_of_fits (hle : Precedes mark index)
    (hfits : ∀ x, stake * (index.part x - mark.part x) < Amount.limit) :
    pending stake mark index =
      .ok ⟨earned stake mark index .collateral, earned stake mark index .debt⟩ := by
  have hone : Amount.one ≠ 0 := by decide
  rw [pending]
  split
  · next hz => simp [earned, hz]
  · simp only [share, Checked.bind_eq_ok, Checked.pure_eq_ok, Holding.sub_eq_ok,
      Amount.mulDiv_eq_ok]
    exact ⟨_, ⟨⟨hle .collateral, hle .debt⟩, rfl⟩, _, ⟨hfits .collateral, hone, rfl⟩,
      _, ⟨hfits .debt, hone, rfl⟩, rfl⟩

/-- An open trove is settled at a later index exactly if what it earns is payable. -/
theorem settle_goes_through_iff (ht : t.isActive = true) (hle : Precedes mark index) :
    (∃ s, settle t mark index = .ok s) ↔ Payable t mark index := by
  constructor
  · rintro ⟨s, hs⟩ x
    obtain ⟨hp, -, hadd, -⟩ := Ledger.accrual_settle_ok ht hs
    refine ⟨pending_fits hp x, ?_⟩
    rw [← settle_applied ht hs x]
    exact Holding.part_add_lt hadd x
  · intro hpay
    have hp := pending_of_fits hle fun x => (hpay x).1
    rw [settle, if_pos ht]
    simp only [Checked.bind_eq_ok, Checked.pure_eq_ok]
    exact ⟨_, _, hp, _, Holding.add_eq_ok.2 ⟨⟨(hpay .collateral).2, (hpay .debt).2⟩, rfl⟩, rfl⟩

/-- What is payable at once is payable in two parts. -/
theorem Payable.split (h : Payable t mark last) (ht : t.isActive = true)
    (hi : Precedes mark i) (hl : Precedes i last) :
    ∃ s, settle t mark i = .ok s ∧ Payable s.trove s.mark last := by
  have hfirst : Payable t mark i := by
    intro x
    obtain ⟨hprod, hroom⟩ := h x
    have hle : t.stake * (i.part x - mark.part x) ≤ t.stake * (last.part x - mark.part x) :=
      Nat.mul_le_mul_left _ (Nat.sub_le_sub_right (hl x) _)
    have := (earned_between t.stake x hi hl).1
    exact ⟨hle.trans_lt hprod, by omega⟩
  obtain ⟨s, hs⟩ := (settle_goes_through_iff ht hi).2 hfirst
  obtain ⟨-, hmark, hadd, htrove⟩ := Ledger.accrual_settle_ok ht hs
  have hstake : s.trove.stake = t.stake := by rw [htrove]
  refine ⟨s, hs, ?_⟩
  intro x
  obtain ⟨hprod, hroom⟩ := h x
  have hle : t.stake * (last.part x - i.part x) ≤ t.stake * (last.part x - mark.part x) :=
    Nat.mul_le_mul_left _ (Nat.sub_le_sub_left (hi x) _)
  have := (earned_between t.stake x hi hl).1
  rw [hstake, hmark, Holding.part_add hadd x, settle_applied ht hs x]
  exact ⟨hle.trans_lt hprod, by omega⟩

/-! ## Some settlements -/

theorem settleEach_cons :
    settleEach t mark (i :: points) = .ok ss ↔
      ∃ s ss', settle t mark i = .ok s ∧ settleEach s.trove s.mark points = .ok ss' ∧
        s :: ss' = ss := by
  simp only [settleEach, Checked.bind_eq_ok, Checked.pure_eq_ok]
  grind

theorem settle_trove (ht : t.isActive = true) (h : settle t mark i = .ok s) :
    s.trove = { t with
      collateral := t.collateral + s.applied.collateral, debt := t.debt + s.applied.debt } := by
  obtain ⟨-, -, hadd, htrove⟩ := Ledger.accrual_settle_ok ht h
  rw [htrove, (Holding.add_eq_ok.1 hadd).2]

theorem settle_isActive (ht : t.isActive = true) (h : settle t mark i = .ok s) :
    s.trove.isActive = true := by
  rw [(Ledger.accrual_settle_ok ht h).2.2.2]
  exact ht

/-- What is payable at once is payable in instalments. -/
theorem settleEach_goes_through (ht : t.isActive = true) (grows : Growing (mark :: points))
    (hlast : ∀ i ∈ points, Precedes i last) (h : Payable t mark last) :
    ∃ ss, settleEach t mark points = .ok ss := by
  induction points generalizing t mark with
  | nil => exact ⟨[], rfl⟩
  | cons i points ih =>
    obtain ⟨hfirst, grows⟩ := List.pairwise_cons.1 grows
    obtain ⟨s, hs, hpay⟩ := h.split ht (hfirst i List.mem_cons_self)
      (hlast i List.mem_cons_self)
    obtain ⟨-, hmark, -⟩ := Ledger.accrual_settle_ok ht hs
    obtain ⟨ss, hss⟩ := ih (settle_isActive ht hs) (by rwa [hmark])
      (fun j hj => hlast j (List.mem_cons_of_mem _ hj)) hpay
    exact ⟨s :: ss, settleEach_cons.2 ⟨s, ss, hs, hss, rfl⟩⟩

theorem settleEach_instalments (ht : t.isActive = true) (h : settleEach t mark points = .ok ss) :
    Instalments t points ss := by
  induction points generalizing t mark ss with
  | nil =>
    cases h
    exact ⟨rfl, fun _ h => by cases h⟩
  | cons i points ih =>
    obtain ⟨s, ss', hs, hrest, rfl⟩ := settleEach_cons.1 h
    obtain ⟨-, hmark, -⟩ := Ledger.accrual_settle_ok ht hs
    have hrest := ih (settle_isActive ht hs) hrest
    constructor
    · rw [List.map_cons, hmark, hrest.marks]
    · intro s' hs'
      cases ss' with
      | nil =>
        cases hs'
        exact settle_trove ht hs
      | cons r ss' =>
        -- the last of the later settlements has added up theirs from here on
        rw [List.getLast?_cons_cons] at hs'
        rw [hrest.trove s' hs', settle_trove ht hs]
        simp only [paid_cons, Holding.part, Nat.add_assoc]

/-- Of what is earned at once, some instalments pay all but at most a unit for each
of them after the first. -/
theorem settleEach_paid (ht : t.isActive = true) (grows : Growing (mark :: points))
    (hlast : points.getLast? = some last) (h : settleEach t mark points = .ok ss) (x : Part) :
    paid ss x ≤ earned t.stake mark last x ∧
      earned t.stake mark last x ≤ paid ss x + (points.length - 1) := by
  induction points generalizing t mark ss with
  | nil => cases hlast
  | cons i points ih =>
    obtain ⟨s, ss', hs, hrest, rfl⟩ := settleEach_cons.1 h
    obtain ⟨-, hmark, -, htrove⟩ := Ledger.accrual_settle_ok ht hs
    have hstake : s.trove.stake = t.stake := by rw [htrove]
    rw [paid_cons, settle_applied ht hs x]
    cases points with
    | nil =>
      cases hlast
      cases hrest
      exact ⟨le_rfl, Nat.le_add_right _ _⟩
    | cons j points =>
      rw [List.getLast?_cons_cons] at hlast
      obtain ⟨hfirst, grows⟩ := List.pairwise_cons.1 grows
      have hle : Precedes i last :=
        (List.pairwise_cons.1 grows).1 last (List.mem_of_getLast? hlast)
      obtain ⟨hlow, hhigh⟩ := ih (settle_isActive ht hs) (by rwa [hmark]) hlast hrest
      obtain ⟨hlow', hhigh'⟩ := earned_between t.stake x (hfirst i List.mem_cons_self) hle
      rw [hstake, hmark] at hlow hhigh
      simp only [List.length_cons] at hhigh ⊢
      omega

/-- What settling early costs.

An open trove is settled at some of the indices that the rewards reach, the
last of them included.  Then its mark ends at the last index, the trove is as
it was but for what was applied, and of collateral and of debt there is applied
at most what the stake has earned in all, and less than that by at most a unit
for each settlement after the first.  If a single settlement at the last index
goes through then so do these, and what is said of the stake's earnings is said
of what the single settlement applies. -/
theorem settled_early {t : Trove} {mark last : Holding} {indices points : List Holding}
    (active : t.isActive = true) (grows : Growing (mark :: indices))
    (chosen : points.Sublist indices) (ends : indices.getLast? = some last)
    (ends' : points.getLast? = some last) :
    (∀ ss, settleEach t mark points = .ok ss →
      ss.length = points.length ∧
      (∃ s, ss.getLast? = some s ∧ s.mark = last ∧ s.trove = { t with
        collateral := t.collateral + paid ss .collateral, debt := t.debt + paid ss .debt }) ∧
      ∀ x, paid ss x ≤ earned t.stake mark last x ∧
        earned t.stake mark last x ≤ paid ss x + (points.length - 1)) ∧
    ∀ once, settle t mark last = .ok once →
      ∃ ss s, settleEach t mark points = .ok ss ∧
        ss.getLast? = some s ∧ s.mark = once.mark ∧
        ∀ x, paid ss x ≤ once.applied.part x ∧
          once.applied.part x ≤ paid ss x + (points.length - 1) := by
  have hgrows : Growing (mark :: points) := grows.sublist (chosen.cons_cons mark)
  obtain ⟨hmark, htail⟩ := List.pairwise_cons.1 grows
  have ended {ss : List Settlement} (hss : settleEach t mark points = .ok ss) :
      ∃ s, ss.getLast? = some s ∧ s.mark = last := by
    rw [← (settleEach_instalments active hss).marks, List.getLast?_map] at ends'
    exact Option.map_eq_some_iff.1 ends'
  constructor
  · intro ss hss
    have hinst := settleEach_instalments active hss
    obtain ⟨s, hs, hm⟩ := ended hss
    refine ⟨?_, ⟨s, hs, hm, hinst.trove s hs⟩, settleEach_paid active hgrows ends' hss⟩
    rw [← hinst.marks, List.length_map]
  · intro once honce
    have hpay : Payable t mark last :=
      (settle_goes_through_iff active (hmark last (List.mem_of_getLast? ends))).1 ⟨once, honce⟩
    obtain ⟨ss, hss⟩ := settleEach_goes_through active hgrows
      (fun i hi => Growing.precedes_last htail ends (chosen.subset hi)) hpay
    obtain ⟨s, hs, hm⟩ := ended hss
    refine ⟨ss, s, hss, hs, hm.trans (Ledger.accrual_settle_ok active honce).2.1.symm, ?_⟩
    intro x
    rw [settle_applied active honce x]
    exact settleEach_paid active hgrows ends' hss x

/-- An open trove with seven tenths of a unit at stake. -/
def staked : Trove :=
  { collateral := 1000, debt := 500, stake := 700000000000000000, status := .active }

/-- The indices that rewards reach one after the other. -/
def fourIndices : List Holding := [⟨101, 110⟩, ⟨102, 112⟩, ⟨102, 115⟩, ⟨103, 116⟩]

/-- Settled three times instead of once, a trove misses two of the two units of
collateral that it has earned, and one of eleven units of debt. -/
theorem settled_early_three_times :
    staked.isActive = true ∧ Growing (⟨100, 100⟩ :: fourIndices) ∧
      [⟨101, 110⟩, ⟨102, 115⟩, ⟨103, 116⟩].Sublist fourIndices ∧
      ∃ once ss, settle staked ⟨100, 100⟩ ⟨103, 116⟩ = .ok once ∧ once.applied = ⟨2, 11⟩ ∧
        settleEach staked ⟨100, 100⟩ [⟨101, 110⟩, ⟨102, 115⟩, ⟨103, 116⟩] = .ok ss ∧
        (∀ x, paid ss x ≤ once.applied.part x ∧ once.applied.part x ≤ paid ss x + 2) ∧
        paid ss .collateral = 0 ∧ paid ss .debt = 10 := by
  have grows : Growing (⟨100, 100⟩ :: fourIndices) := by
    refine List.Pairwise.imp (R := fun i j => i.collateral ≤ j.collateral ∧ i.debt ≤ j.debt) ?_
      (by decide)
    rintro i j ⟨hc, hd⟩ (_ | _)
    · exact hc
    · exact hd
  obtain ⟨once, honce, happlied⟩ : ∃ once, settle staked ⟨100, 100⟩ ⟨103, 116⟩ = .ok once ∧
      once.applied = ⟨2, 11⟩ := Checked.exists_ok (by decide +kernel)
  obtain ⟨ss, hss, hc, hd⟩ : ∃ ss,
      settleEach staked ⟨100, 100⟩ [⟨101, 110⟩, ⟨102, 115⟩, ⟨103, 116⟩] = .ok ss ∧
      paid ss .collateral = 0 ∧ paid ss .debt = 10 := Checked.exists_ok (by decide +kernel)
  have chosen : [⟨101, 110⟩, ⟨102, 115⟩, ⟨103, 116⟩].Sublist fourIndices := by decide
  refine ⟨rfl, grows, chosen, once, ss, honce, happlied, hss, ?_, hc, hd⟩
  obtain ⟨-, hcompare⟩ := settled_early (t := staked) rfl grows chosen rfl rfl
  obtain ⟨ss', _, hss', -, -, hbounds⟩ := hcompare once honce
  obtain rfl : ss = ss' := Except.ok.inj (hss.symm.trans hss')
  exact hbounds

end Accrual

end Troves
