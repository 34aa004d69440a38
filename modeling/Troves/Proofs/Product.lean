/-
# Whether the product is lost

The product says what a unit deposited at the start has come to.  A deposit
made while it is zero counts for nothing, so the product must never get
there.  It is enlarged at most once in an offset, by `10 ^ 9`, and that saves
it if the offset leaves enough of it.

| what the offset leaves of the pool | what it leaves of the product |
| :-- | :-- |
| nothing | `10 ^ 18`, in a new epoch |
| more than a billionth | as much as it was, or at least `10 ^ 9` |
| at most a billionth, of a product from `10 ^ 9` on | something |
| at most a billionth, of a smaller product | perhaps nothing |

So one severe offset is survived, and the next only if an offset has emptied
the pool in between; where they follow one another the product can be lost.
`ProductSum.Crushes` says exactly which offset loses it.
-/
import Troves.Proofs.Accounts
import Troves.Proofs.Offsets

namespace Troves

namespace Stability

/-- An offset of some debt against deposits that cover it, and the collateral
handed over for it. -/
structure Offset where
  collateral : Nat
  debt : Nat
  total : Nat
  pos : 0 < debt
  covered : debt ≤ total

namespace Offset

/-- Whether an offset leaves something of the pool, but at most a billionth. -/
def Severe (o : Offset) : Prop :=
  o.debt < o.total ∧ scaleStep * (o.total - o.debt) ≤ o.total

instance (o : Offset) : Decidable o.Severe := by
  unfold Severe
  infer_instance

/-- Whether any two severe offsets have one between them that empties the
pool; `rested` says that there was none since it was last empty. -/
def Spaced : Bool → List Offset → Prop
  | _, [] => True
  | rested, o :: os =>
    if o.debt = o.total then Spaced true os
    else if o.Severe then rested = true ∧ Spaced false os
    else Spaced rested os

end Offset

namespace ProductSum

/-- Takes some offsets in, one after the other. -/
def takeAll (s : ProductSum) : List Offset → Checked ProductSum
  | [] => return s
  | o :: os => do
    let (t, _) ← s.offset o.collateral o.debt o.total
    t.takeAll os

/-- Whether an offset leaves something of the pool and nothing of the
product. -/
def Crushes (s : ProductSum) (o : Offset) : Prop :=
  ∃ loss left, lossRate s.lossRemainder o.debt o.total = .ok (loss, left) ∧
    loss < Amount.one ∧ s.product * (Amount.one - loss) < scaleStep

variable {s t : ProductSum} {loss : Nat} {o : Offset} {os us : List Offset} {r : Rates}

/-! ## One loss -/

/-- The product is lost where a loss leaves something and what is kept of the
product, though it is enlarged, comes to less than one. -/
theorem shrink_product_eq_zero (h : s.shrink loss = .ok t) :
    t.product = 0 ↔ loss < Amount.one ∧ s.product * (Amount.one - loss) < scaleStep := by
  have hle : loss ≤ Amount.one := (shrink_ok h).2.1
  have hone : Amount.one = scaleStep * scaleStep := by decide
  have hstep : 0 < scaleStep := by decide
  rw [shrink_product_eq h]
  generalize s.product * (Amount.one - loss) = x
  split
  · next hall => simp [hall, Amount.one]
  · next hall =>
    have hlt : loss < Amount.one := by omega
    split
    · rw [Nat.div_eq_zero_iff, hone, Nat.mul_lt_mul_right hstep]
      simp [hone ▸ hlt, hstep.ne']
    · next hx =>
      have hx : scaleStep * Amount.one ≤ x := (Nat.le_div_iff_mul_le (by decide)).1 (by omega)
      have hne : x / Amount.one ≠ 0 := by omega
      have hge : scaleStep ≤ x := (Nat.le_mul_of_pos_right _ (by decide)).trans hx
      simp only [hne, false_iff]
      omega

/-- A loss that leaves more than a billionth leaves the product as it is, or at
`10 ^ 9`. -/
theorem le_shrink_product (h : s.shrink loss = .ok t) (hk : scaleStep ≤ Amount.one - loss) :
    min s.product scaleStep ≤ t.product := by
  have hone : Amount.one = scaleStep * scaleStep := by decide
  have hlt : loss ≠ Amount.one := by
    rintro rfl
    exact absurd hk (by decide)
  rw [shrink_product_eq h, if_neg hlt]
  split
  · refine (Nat.min_le_left _ _).trans ((Nat.le_div_iff_mul_le (by decide)).2 ?_)
    calc s.product * Amount.one = s.product * scaleStep * scaleStep := by rw [hone, Nat.mul_assoc]
      _ ≤ s.product * (Amount.one - loss) * scaleStep :=
        Nat.mul_le_mul_right _ (Nat.mul_le_mul_left _ hk)
  · next hx => exact (Nat.min_le_right _ _).trans (Nat.le_of_not_lt hx)

/-! ## One offset -/

/-- The product is lost at an offset exactly if the offset crushes it. -/
theorem offset_product_eq_zero (h : s.offset o.collateral o.debt o.total = .ok (t, r)) :
    t.product = 0 ↔ s.Crushes o := by
  obtain ⟨c, hprod, hrate, hshrink⟩ := offset_ok h
  rw [shrink_product_eq_zero hshrink, hprod]
  constructor
  · exact fun hk => ⟨_, _, hrate, hk⟩
  · rintro ⟨loss, left, hl, hk⟩
    cases hrate.symm.trans hl
    exact hk

/-- An offset of everything starts anew. -/
theorem offset_emptying (h : s.offset o.collateral o.debt o.total = .ok (t, r))
    (hall : o.debt = o.total) : t.product = Amount.one := by
  obtain ⟨c, -, hrate, hshrink⟩ := offset_ok h
  have hloss : r.loss = Amount.one := by
    rw [lossRate, if_pos hall] at hrate
    exact (Prod.mk.inj (Except.ok.inj hrate)).1.symm
  rw [shrink_product_eq hshrink, if_pos hloss]

/-- The part of a unit that an offset leaves is, up to what rounding takes, the
part of the deposits that it leaves. -/
theorem lossRate_kept {remainder debt total left : Nat} (hd : debt < total)
    (h : lossRate remainder debt total = .ok (loss, left)) :
    Amount.one * (total - debt) ≤ (Amount.one - loss) * total + total := by
  rcases lossRate_ok hd.le h with ⟨he, -⟩ | ⟨-, hloss, hleft⟩
  · omega
  · rw [Nat.mul_sub, Nat.sub_mul, hloss]
    have hle : debt * Amount.one - remainder ≤ Amount.one * debt := by
      rw [Nat.mul_comm debt]
      exact Nat.sub_le _ _
    omega

/-- An offset that is not severe keeps the product, or leaves it at `10 ^ 9`. -/
theorem offset_mild (h : s.offset o.collateral o.debt o.total = .ok (t, r))
    (hd : o.debt < o.total) (hmild : ¬ o.Severe) : min s.product scaleStep ≤ t.product := by
  obtain ⟨c, hprod, hrate, hshrink⟩ := offset_ok h
  rw [← hprod]
  refine le_shrink_product hshrink ?_
  have hrest : o.total < scaleStep * (o.total - o.debt) :=
    Nat.lt_of_not_le fun hle => hmild ⟨hd, hle⟩
  have hkept := lossRate_kept hd hrate
  have hone : Amount.one = scaleStep * scaleStep := by decide
  by_contra hlt
  have hlt : Amount.one - r.loss + 1 ≤ scaleStep := by omega
  have hle : (Amount.one - r.loss + 1) * o.total ≤ scaleStep * o.total :=
    Nat.mul_le_mul_right _ hlt
  have hless : scaleStep * o.total < scaleStep * (scaleStep * (o.total - o.debt)) :=
    Nat.mul_lt_mul_of_pos_left hrest (by decide)
  rw [Nat.add_mul, Nat.one_mul] at hle
  rw [hone, Nat.mul_assoc, ← hone] at hkept
  omega

/-- A product of `10 ^ 9` survives any offset. -/
theorem offset_survived (h : s.offset o.collateral o.debt o.total = .ok (t, r))
    (hs : scaleStep ≤ s.product) : t.product ≠ 0 := by
  rw [Ne, offset_product_eq_zero h]
  rintro ⟨loss, left, -, hloss, hlt⟩
  have hge : s.product * 1 ≤ s.product * (Amount.one - loss) :=
    Nat.mul_le_mul_left _ (by omega)
  omega

/-! ## Some offsets -/

theorem takeAll_cons :
    s.takeAll (o :: os) = .ok t ↔
      ∃ m r, s.offset o.collateral o.debt o.total = .ok (m, r) ∧ m.takeAll os = .ok t := by
  simp only [takeAll, Checked.bind_eq_ok, Prod.exists]

theorem takeAll_append :
    s.takeAll (us ++ os) = .ok t ↔ ∃ m, s.takeAll us = .ok m ∧ m.takeAll os = .ok t := by
  induction us generalizing s with
  | nil => simp [takeAll]
  | cons u us ih =>
    simp only [List.cons_append, takeAll_cons, ih]
    grind

theorem takeAll_product (hs : s.product ≤ Amount.one) (h : s.takeAll os = .ok t) :
    t.product ≤ Amount.one := by
  induction os generalizing s with
  | nil =>
    cases h
    exact hs
  | cons o os ih =>
    obtain ⟨m, r, ho, hrest⟩ := takeAll_cons.1 h
    exact ih (offset_product hs ho) hrest

/-- While severe offsets are apart the product is kept, and it stands at
`10 ^ 9` at least where there was none since the pool was last empty. -/
theorem takeAll_spaced {rested : Bool} (hs : s.product ≠ 0)
    (hrested : rested = true → scaleStep ≤ s.product) (spaced : Offset.Spaced rested os)
    (h : s.takeAll os = .ok t) : t.product ≠ 0 := by
  induction os generalizing s rested with
  | nil =>
    cases h
    exact hs
  | cons o os ih =>
    obtain ⟨m, r, ho, hrest⟩ := takeAll_cons.1 h
    rw [Offset.Spaced] at spaced
    split at spaced
    · next hall =>
      have hm := offset_emptying ho hall
      exact ih (by rw [hm]; decide) (fun _ => by rw [hm]; decide) spaced hrest
    · next hall =>
      split at spaced
      · next hsevere =>
        obtain ⟨hr, spaced⟩ := spaced
        exact ih (offset_survived ho (hrested hr)) (fun hf => by cases hf) spaced hrest
      · next hmild =>
        have hm := offset_mild ho (lt_of_le_of_ne o.covered hall) hmild
        have hstep : 0 < scaleStep := by decide
        exact ih (by omega) (fun hr => by have := hrested hr; omega) spaced hrest

/-- Of some offsets taken in one after the other, the product is kept all along
exactly if none of them crushes it. -/
theorem takeAll_kept_iff (h : s.takeAll os = .ok t) (hs : s.product ≠ 0) :
    (∀ us m, us <+: os → s.takeAll us = .ok m → m.product ≠ 0) ↔
      ∀ us o m, us ++ [o] <+: os → s.takeAll us = .ok m → ¬ m.Crushes o := by
  have last {us : List Offset} {o : Offset} {m m' : ProductSum} (hm : s.takeAll us = .ok m)
      (hm' : s.takeAll (us ++ [o]) = .ok m') : m'.product = 0 ↔ m.Crushes o := by
    obtain ⟨_, hu, ho⟩ := takeAll_append.1 hm'
    obtain rfl := Except.ok.inj (hm.symm.trans hu)
    obtain ⟨_, r, ho, hnil⟩ := takeAll_cons.1 ho
    cases hnil
    exact offset_product_eq_zero ho
  constructor
  · intro hkept us o m hpre hm
    obtain ⟨rest, rfl⟩ := hpre
    obtain ⟨m', hm', -⟩ := takeAll_append.1 h
    rw [← last hm hm']
    exact hkept _ _ (List.prefix_append _ _) hm'
  · intro hcrush us m hpre hm
    rcases us.eq_nil_or_concat with rfl | ⟨us, o, rfl⟩
    · cases hm
      exact hs
    · rw [List.concat_eq_append] at hpre hm
      obtain ⟨m₁, hu, -⟩ := takeAll_append.1 hm
      rw [Ne, last hu hm]
      exact hcrush us o m₁ hpre hu

end ProductSum

namespace Pool

variable {p q : Pool} {a : Address}

/-- What a pool takes in is one offset, or none. -/
theorem takeOffset_takeAll {debt coll : Nat} (h : p.takeOffset debt coll = .ok q) :
    ∃ os, p.state.takeAll os = .ok q.state := by
  rcases takeOffset_state h with h | ⟨hd, hle, r, h⟩
  · exact ⟨[], by rw [h]; rfl⟩
  · exact ⟨[⟨coll, debt, p.total, Nat.pos_of_ne_zero hd, hle⟩],
      ProductSum.takeAll_cons.2 ⟨_, r, h, rfl⟩⟩

/-- A deposit just made is all there, unless the product is lost or the deposit
times the product does not fit. -/
theorem Visited.remaining_iff {gain left amount : Nat} (h : Visited p a gain left amount q)
    (hn : amount ≠ 0) :
    q.remaining a = .ok amount ↔
      p.state.product ≠ 0 ∧ amount * p.state.product < Amount.limit := by
  rw [remaining, h.deposit_self, h.state, fresh, if_neg hn]
  simp only [Deposit.remaining, hn, lt_irrefl, or_false, false_or]
  by_cases hp : p.state.product = 0
  · rw [if_pos hp]
    simp [hp, hn.symm]
  · rw [if_neg hp]
    simp only [Deposit.shrunk, Nat.sub_self, Checked.bind_eq_ok, Amount.mulDiv_eq_ok,
      Checked.pure_eq_ok]
    have hself : amount * p.state.product / p.state.product = amount :=
      Nat.mul_div_cancel _ (Nat.pos_of_ne_zero hp)
    have hnoise : ¬ amount < amount / scaleStep := Nat.not_lt.2 (Nat.div_le_self _ _)
    constructor
    · rintro ⟨_, ⟨hfit, -, rfl⟩, -⟩
      exact ⟨hp, hfit⟩
    · rintro ⟨-, hfit⟩
      exact ⟨amount, ⟨hfit, hp, hself.symm⟩, by rw [if_neg hnoise]⟩

end Pool

end Stability

/-! ## Runs -/

open Protocol (Sweep)
open Stability (ProductSum Offset Pool)

theorem Protocol.Sweep.takeAll {w w' : World} {price : Nat} {liquidator : Address}
    {t t' : Liquidation.Totals} (h : Sweep price liquidator w t w' t') :
    ∃ os, w.pool.state.takeAll os = .ok w'.pool.state := by
  induction h with
  | done => exact ⟨[], rfl⟩
  | next _ out _ _ ih =>
    obtain ⟨us, hu⟩ := Pool.takeOffset_takeAll out.pool
    obtain ⟨os, ho⟩ := ih
    exact ⟨us ++ os, ProductSum.takeAll_append.2 ⟨_, hu, ho⟩⟩

/-- A turn takes some offsets in. -/
theorem Step.takeAll {w w' : World} {t : Turn} {k : Nat} (h : Step w t k w') :
    ∃ os, w.pool.state.takeAll os = .ok w'.pool.state := by
  rcases h.pool_state with h | ⟨_, _, _, _, hs⟩
  · exact ⟨[], by rw [h]; rfl⟩
  · exact hs.takeAll

/-- The product of every state of every run is that of some offsets taken in. -/
theorem Deployment.Ready.takeAll {d : Deployment} {w : World} (h : d.Ready w) {ts : List Turn}
    (outside : ∀ t ∈ ts, t.outside) :
    (w.after ts).Wired ∧ ∃ os, ProductSum.takeAll {} os = .ok (w.after ts).pool.state := by
  refine World.after_induction (n := 0)
    (P := fun w _ => ∃ os, ProductSum.takeAll {} os = .ok w.pool.state) h.wired outside ?_ ?_
  · rintro t - w w' n k - hs ⟨us, hu⟩
    obtain ⟨os, ho⟩ := hs.takeAll
    exact ⟨us ++ os, ProductSum.takeAll_append.2 ⟨_, hu, ho⟩⟩
  · exact ⟨[], by rw [h.pool]; rfl⟩

/-- What a depositor is told right after a deposit. -/
theorem Protocol.Provided.remaining_iff {w w' : World} {a : Address} {amount left : Nat}
    (h : Protocol.Provided w a amount w') (hl : w.pool.remaining a = .ok left) :
    w'.pool.remaining a = .ok (left + amount) ↔
      w.pool.state.product ≠ 0 ∧ (left + amount) * w.pool.state.product < Amount.limit := by
  have hn : amount ≠ 0 := by
    have hp := h.pool
    simp only [Pool.provide, Checked.bind_eq_ok, require_eq_ok, bne_iff_ne] at hp
    exact hp.choose_spec.1
  obtain ⟨gain, left', hv⟩ := Pool.provide_ok h.pool
  obtain rfl : left = left' := Except.ok.inj (hl.symm.trans hv.found)
  exact hv.remaining_iff (by omega)

/-- Whether the product is kept, and what depends on it.

Whatever offsets are taken in from the start, the product never exceeds
`10 ^ 18`, and it never comes to zero exactly if none of the offsets crushes
it.  It is kept in particular if between any two offsets that leave something
of the pool, but at most a billionth, there is one that leaves nothing.  The
product of every state of a run is that of some offsets, and whoever makes a
deposit there is told afterwards that all of it is left, with what was left
before, exactly if the product is not zero and its multiple by the deposit
fits. -/
theorem Deployment.product_kept_iff {d : Deployment} {incentive? : Option Liquidation.Incentive}
    {o : Outcome Unit} (start : d.start (some { incentive? }) = .ok o) {ts : List Turn}
    (outside : ∀ t ∈ ts, t.outside) :
    (∀ os s, ProductSum.takeAll {} os = .ok s →
      s.product ≤ Amount.one ∧
      ((∀ us m, us <+: os → ProductSum.takeAll {} us = .ok m → 1 ≤ m.product) ↔
        ∀ us u m, us ++ [u] <+: os → ProductSum.takeAll {} us = .ok m → ¬ m.Crushes u) ∧
      (Offset.Spaced true os → 1 ≤ s.product)) ∧
    let w := o.world.after ts
    (∃ os, ProductSum.takeAll {} os = .ok w.pool.state) ∧
    ∀ caller amount left out, w.pool.remaining caller = .ok left →
      (Request.provide amount).perform caller w = .ok out →
      (out.world.pool.remaining caller = .ok (left + amount) ↔
        1 ≤ w.pool.state.product ∧ (left + amount) * w.pool.state.product < Amount.limit) := by
  have hfirst : (({} : ProductSum).product) ≠ 0 := by decide
  obtain ⟨hw, hstate⟩ := (Deployment.start_ready start).takeAll outside
  simp only [Nat.one_le_iff_ne_zero]
  refine ⟨?_, hstate, ?_⟩
  · intro os s h
    refine ⟨ProductSum.takeAll_product le_rfl h, ProductSum.takeAll_kept_iff h hfirst, ?_⟩
    intro spaced
    exact ProductSum.takeAll_spaced hfirst (fun _ => by decide) spaced h
  · intro caller amount left out hl hout
    have hprovide : ((Request.provide amount).perform caller).Ensures (o.world.after ts) fun _ =>
        Protocol.Provided (o.world.after ts) caller amount :=
      Request.ensures_silent.2 (Protocol.ensures_provide hw)
    exact (hprovide out hout).remaining_iff hl

/-- Three troves are liquidated one after the other, each against a pool that
holds a single unit more than the debt; in between a depositor fills the pool
up again. -/
def Deployment.threeOffsets : List Turn :=
  Turn.opening (.account 1) (1000 * Amount.one) (4 * Amount.one) ++
  Turn.opening (.account 2) 4500000000000000 599999999999999999 ++
  Turn.opening (.account 3) 4500000000000000 599999999999999999 ++
  Turn.opening (.account 4) 4500000000000000 599999999999999999 ++
  [.call (.account 1) (.provide 600000000000000000), .pricing 10000000000,
   .call (.account 9) (.liquidateOne (.account 2)),
   .call (.account 1) (.provide 599999999999999999),
   .call (.account 9) (.liquidateOne (.account 3)),
   .call (.account 1) (.provide 599999999999999999),
   .call (.account 9) (.liquidateOne (.account 4))]

/-- Two of these offsets the product survives, if only just, and a deposit made
then is all there. -/
theorem Deployment.product_kept_two_offsets :
    ∃ o, plain.start (some { incentive? := some { debtCompensation := 0 } }) = .ok o ∧
      (∀ t ∈ threeOffsets.dropLast, t.outside) ∧
      let w := o.world.after threeOffsets.dropLast
      w.pool.state.product = 2 ∧ (∃ os, ProductSum.takeAll {} os = .ok w.pool.state) ∧
      ∃ out, (Request.provide Amount.one).perform (.account 1) w = .ok out ∧
        out.world.pool.remaining (.account 1) = .ok (599999999999999999 + Amount.one) := by
  obtain ⟨o, ho, hp, hl, hrun⟩ : ∃ o,
      plain.start (some { incentive? := some { debtCompensation := 0 } }) = .ok o ∧
      let w := o.world.after threeOffsets.dropLast
      w.pool.state.product = 2 ∧ w.pool.remaining (.account 1) = .ok 599999999999999999 ∧
        (do
          let out ← (Request.provide Amount.one).perform (.account 1) w
          return out.world.pool.depositors) = .ok 1 := Checked.exists_ok (by decide +kernel)
  have hout : ∀ t ∈ threeOffsets.dropLast, t.outside := by decide +kernel
  obtain ⟨-, hstate, hprovide⟩ := product_kept_iff ho hout
  obtain ⟨out, hout', -⟩ := Checked.bind_eq_ok.1 hrun
  refine ⟨o, ho, hout, hp, hstate, out, hout', (hprovide _ _ _ out hl hout').2 ?_⟩
  rw [hp]
  decide

/-- The third offset crushes what is left of the product, and a deposit made
after it is lost at once. -/
theorem Deployment.product_lost_three_offsets :
    ∃ o, plain.start (some { incentive? := some { debtCompensation := 0 } }) = .ok o ∧
      (∀ t ∈ threeOffsets, t.outside) ∧
      let w := o.world.after threeOffsets
      w.pool.state.product = 0 ∧ w.pool.remaining (.account 1) = .ok 0 ∧
        (do
          let out ← (Request.provide Amount.one).perform (.account 1) w
          out.world.pool.remaining (.account 1)) = .ok 0 := by
  obtain ⟨o, ho, h⟩ : ∃ o,
      plain.start (some { incentive? := some { debtCompensation := 0 } }) = .ok o ∧
      let w := o.world.after threeOffsets
      w.pool.state.product = 0 ∧ w.pool.remaining (.account 1) = .ok 0 ∧
        (do
          let out ← (Request.provide Amount.one).perform (.account 1) w
          out.world.pool.remaining (.account 1)) = .ok 0 := Checked.exists_ok (by decide +kernel)
  exact ⟨o, ho, by decide +kernel, h⟩

end Troves
