/-
# Positions between visits

What a depositor is told between two visits of its own only moves one way: what
is left never grows, and what was earned never shrinks.

What is left is read by a formula that depends on the scales and the epochs
passed since, but every formula rounds down the same worth, and an offset
shrinks that worth whichever formula comes before it and whichever after.  What
was earned is read off two sums, and sums only ever grow.  Other depositors
touch neither.

A reading fails only where a number does not fit: what was earned since is
measured from a sum that was read when the deposit was made, so that much can
always be subtracted.
-/
import Troves.Proofs.Accounts
import Troves.Proofs.Outcomes
import Mathlib.Algebra.Order.Floor.Semifield
import Mathlib.Data.Rat.Floor

namespace Troves

open Stability

namespace Stability

namespace Deposit

variable {d : Deposit} {s t : ProductSum} {n m : Nat}

/-! ## Reading what is left -/

/-- Less than a billionth of a deposit counts as nothing. -/
def cutOff (amount left : Nat) : Nat := if left < amount / scaleStep then 0 else left

theorem cutOff_mono (amount : Nat) {x y : Nat} (h : x ≤ y) : cutOff amount x ≤ cutOff amount y := by
  unfold cutOff
  split
  · exact Nat.zero_le _
  · rw [if_neg (by omega)]
    exact h

theorem cutOff_le (amount left : Nat) : cutOff amount left ≤ left := by
  unfold cutOff
  split
  · exact Nat.zero_le _
  · exact le_rfl

/-- What is left is the worth rounded down, whichever way it is reckoned. -/
theorem remaining_eq_floor (h : d.remaining s = .ok n) :
    n = cutOff d.amount ⌊d.worth s⌋₊ := by
  rw [remaining] at h
  by_cases hz : d.amount = 0 ∨ d.product = 0 ∨ d.epoch < s.epoch
  · rw [if_pos hz] at h
    cases h
    rw [worth, if_pos hz, Nat.floor_zero]
    exact (Nat.le_zero.1 (cutOff_le _ _)).symm
  · rw [if_neg hz] at h
    simp only [Checked.bind_eq_ok, Checked.pure_eq_ok] at h
    obtain ⟨left, hl, rfl⟩ := h
    have hfloor : left = ⌊d.worth s⌋₊ := by
      rw [shrunk] at hl
      rw [worth]
      rw [if_neg hz]
      generalize s.scale - d.scale = g at hl ⊢
      have hdiv : ⌊(d.amount * s.product / d.product : ℚ)⌋₊ =
          d.amount * s.product / d.product := by
        exact_mod_cast Nat.floor_div_eq_div (K := ℚ) (d.amount * s.product) d.product
      rcases g with _ | _ | g
      · obtain ⟨-, -, rfl⟩ := Amount.mulDiv_eq_ok.1 hl
        exact hdiv.symm
      · obtain ⟨_, hm, rfl⟩ := Checked.map_eq_ok.1 hl
        obtain ⟨-, -, rfl⟩ := Amount.mulDiv_eq_ok.1 hm
        show _ = ⌊(d.amount * s.product / d.product / scaleStep : ℚ)⌋₊
        rw [Nat.floor_div_natCast, hdiv]
      · cases hl
        exact Nat.floor_zero.symm
    rw [hfloor]
    rfl

/-- A deposit worth less has less left. -/
theorem remaining_anti (hw : d.worth t ≤ d.worth s) (hn : d.remaining s = .ok n)
    (hm : d.remaining t = .ok m) : m ≤ n := by
  rw [remaining_eq_floor hn, remaining_eq_floor hm]
  exact cutOff_mono _ (Nat.floor_mono hw)

theorem remaining_le_amount (hw : d.worth s ≤ d.amount) (hn : d.remaining s = .ok n) :
    n ≤ d.amount := by
  rw [remaining_eq_floor hn]
  refine (cutOff_le _ _).trans ?_
  exact_mod_cast Nat.floor_le_of_le hw

/-- What is left can be told unless the deposit times the product does not fit. -/
theorem meets_remaining {Q : Nat → Prop} (hQ : ∀ n, d.remaining s = .ok n → Q n) :
    (d.remaining s).Meets Q fun e =>
      e = .overflow ∧ Amount.limit ≤ d.amount * s.product := by
  refine Checked.Meets.mono (P := fun _ => True) ?_ (fun n hn _ => hQ n hn) fun _ he => he
  rw [remaining]
  by_cases hz : d.amount = 0 ∨ d.product = 0 ∨ d.epoch < s.epoch
  · rw [if_pos hz]
    trivial
  · rw [if_neg hz, Checked.meets_bind, shrunk]
    rw [not_or, not_or] at hz
    have hmul (Q : Nat → Prop) (hQ : ∀ n, Q n) :
        (Amount.mulDiv d.amount s.product d.product).Meets Q fun e =>
          e = .overflow ∧ Amount.limit ≤ d.amount * s.product := by
      rw [Amount.mulDiv, Checked.meets_bind]
      refine Amount.meets_mul_of (fun _ => ?_) fun h => ⟨rfl, h⟩
      rw [Amount.meets_div, if_neg hz.2.1]
      exact hQ _
    generalize s.scale - d.scale = g
    rcases g with _ | _ | g
    · exact hmul _ fun _ => trivial
    · exact Checked.meets_bind.2 (hmul _ fun _ => trivial)
    · trivial

/-! ## Reading what was earned -/

/-- What was earned for each unit since a deposit was made, given the sums of its
own scale and of the scale after it. -/
def portion (d : Deposit) (sumHere sumNext : Nat) : Nat :=
  sumHere - d.sum + sumNext / scaleStep

theorem earned_mono {sumHere sumNext sumHere' sumNext' : Nat} (hh : sumHere ≤ sumHere')
    (hs : sumNext ≤ sumNext') (hn : d.earned sumHere sumNext = .ok n)
    (hm : d.earned sumHere' sumNext' = .ok m) : n ≤ m := by
  rw [earned] at hn hm
  by_cases hz : d.amount = 0 ∨ d.product = 0
  · rw [if_pos hz] at hn
    cases hn
    exact Nat.zero_le _
  · rw [if_neg hz] at hn hm
    simp only [Checked.bind_eq_ok, Checked.pure_eq_ok, Amount.sub_eq_ok, Amount.add_eq_ok,
      Amount.mulDiv_eq_ok] at hn hm
    obtain ⟨_, ⟨-, rfl⟩, _, ⟨-, rfl⟩, _, ⟨-, -, rfl⟩, rfl⟩ := hn
    obtain ⟨_, ⟨-, rfl⟩, _, ⟨-, rfl⟩, _, ⟨-, -, rfl⟩, rfl⟩ := hm
    gcongr

/-- What was earned can be told unless it does not fit for each unit or for the
deposit. -/
theorem meets_earned {sumHere sumNext : Nat} (hs : d.amount ≠ 0 → d.sum ≤ sumHere)
    {Q : Nat → Prop} (hQ : ∀ n, d.earned sumHere sumNext = .ok n → Q n) :
    (d.earned sumHere sumNext).Meets Q fun e => e = .overflow ∧
      (Amount.limit ≤ d.portion sumHere sumNext ∨
        Amount.limit ≤ d.amount * d.portion sumHere sumNext) := by
  refine Checked.Meets.mono (P := fun _ => True) ?_ (fun n hn _ => hQ n hn) fun _ he => he
  rw [earned]
  by_cases hz : d.amount = 0 ∨ d.product = 0
  · rw [if_pos hz]
    trivial
  · rw [if_neg hz]
    rw [not_or] at hz
    simp only [Checked.meets_bind, Checked.meets_pure, Amount.mulDiv]
    rw [Amount.meets_sub, if_pos (hs hz.1)]
    refine Amount.meets_add_of (fun _ => ?_) fun h => ⟨rfl, .inl h⟩
    refine Amount.meets_mul_of (fun _ => ?_) fun h => ⟨rfl, .inr h⟩
    rw [Amount.meets_div, if_neg hz.2]
    trivial

end Deposit

namespace Pool

variable {p q r : Pool} {a b : Address}

/-! ## Orderly pools -/

/-- A pool in which no deposit is worth more than was deposited. -/
structure Orderly (p : Pool) : Prop extends p.Sane where
  bounded : ∀ a, p.worthOf a ≤ (p.deposit a).amount

theorem orderly_new (links? : Option Links) : Orderly { links? } :=
  ⟨accounted_new.sane, fun _ => le_rfl⟩

/-- What time does to a depositor's position. -/
structure Ages (p q : Pool) (a : Address) : Prop where
  deposit : q.deposit a = p.deposit a
  worth : q.worthOf a ≤ p.worthOf a
  sums : ∀ e k, p.sumAt e k ≤ q.sumAt e k

theorem Ages.refl (p : Pool) (a : Address) : p.Ages p a :=
  ⟨rfl, le_rfl, fun _ _ => le_rfl⟩

theorem Ages.trans (h : p.Ages q a) (h' : q.Ages r a) : p.Ages r a :=
  ⟨h'.deposit.trans h.deposit, h'.worth.trans h.worth,
    fun e k => (h.sums e k).trans (h'.sums e k)⟩

theorem Visited.orderly {gain left amount : Nat} (h : Visited p a gain left amount q)
    (hp : p.Orderly) : q.Orderly := by
  refine ⟨h.sane hp.toSane, fun b => ?_⟩
  by_cases hb : b = a
  · subst hb
    have hle := h.worthOf_self_le
    have hd : (q.deposit b).amount = amount := by
      rw [h.deposit_self, fresh]
      split
      · next hz => exact hz.symm
      · rfl
    rwa [hd]
  · rw [worthOf, h.deposit_other hb, h.state]
    exact hp.bounded b

/-- A visit of somebody else leaves a position as it is. -/
theorem Visited.ages {gain left amount : Nat} (h : Visited p a gain left amount q)
    (hb : b ≠ a) : p.Ages q b := by
  refine ⟨h.deposit_other hb, ?_, fun e k => (h.sumAt_eq e k).ge⟩
  rw [worthOf, worthOf, h.deposit_other hb, h.state]

theorem Absorbed.ages {debt coll : Nat} {x : Rates} (h : Absorbed p debt coll x q)
    (hp : p.Sane) (a : Address) : p.Ages q a := by
  refine ⟨h.deposit_eq a, ?_, fun e k => ?_⟩
  · rw [worthOf, worthOf, h.deposit_eq]
    refine (Deposit.worth_shrunk (hp.placed a) h.shrunk).trans ?_
    have hlost : (0 : ℚ) ≤ x.loss / Amount.one := by positivity
    exact mul_le_of_le_one_left (Deposit.worth_nonneg _ _) (by linarith)
  · rw [h.sumAt_eq]
    split
    · next hk =>
      obtain ⟨rfl, rfl⟩ := Prod.mk.inj hk
      exact Nat.le_add_right _ _
    · exact le_rfl

theorem Absorbed.orderly {debt coll : Nat} {x : Rates} (h : Absorbed p debt coll x q)
    (hp : p.Orderly) : q.Orderly := by
  refine ⟨h.sane hp.toSane, fun a => ?_⟩
  have ha := h.ages hp.toSane a
  rw [ha.deposit]
  exact ha.worth.trans (hp.bounded a)

/-! ## What a depositor is told -/

/-- What was earned for each unit since a depositor's deposit was made. -/
def portion (p : Pool) (a : Address) : Nat :=
  let d := p.deposit a
  d.portion (p.sumAt d.epoch d.scale) (p.sumAt d.epoch (d.scale + 1))

/-- A depositor can be told its position, unless it does not fit or the scale
after the deposit's has no number, and no more is left than was deposited. -/
structure Told (p : Pool) (a : Address) : Prop where
  remaining : (p.remaining a).Meets (· ≤ (p.deposit a).amount) fun e =>
    e = .overflow ∧ Amount.limit ≤ (p.deposit a).amount * p.state.product
  sum : (p.deposit a).amount ≠ 0 →
    (p.deposit a).sum ≤ p.sumAt (p.deposit a).epoch (p.deposit a).scale
  earned : (p.earned a).Meets (fun _ => True) fun e =>
    (e = .overflow ∧
      (Amount.limit ≤ p.portion a ∨ Amount.limit ≤ (p.deposit a).amount * p.portion a)) ∨
    (e = .counterOverflow ∧ Counter.limit ≤ (p.deposit a).scale + 1)

/-- What a depositor is told later: no more is left, none if none was, and no
less was earned. -/
structure OneWay (p q : Pool) (a : Address) : Prop where
  deposit : q.deposit a = p.deposit a
  remaining : ∀ n m, p.remaining a = .ok n → q.remaining a = .ok m → m ≤ n
  gone : ∀ m, p.remaining a = .ok 0 → q.remaining a = .ok m → m = 0
  earned : ∀ n m, p.earned a = .ok n → q.earned a = .ok m → n ≤ m

theorem Orderly.told (hp : p.Orderly) (a : Address) : p.Told a where
  remaining := Deposit.meets_remaining fun _ hn =>
    Deposit.remaining_le_amount (hp.bounded a) hn
  sum := hp.sums a
  earned := by
    rw [earned]
    split
    · trivial
    · refine Checked.meets_bind.2 (Counter.meets_next_of ?_ fun h => .inr ⟨rfl, h⟩)
      exact (Deposit.meets_earned (hp.sums a) fun _ _ => trivial).mono
        (fun _ _ h => h) fun _ he => .inl he

theorem Ages.oneWay (h : p.Ages q a) : p.OneWay q a := by
  have hremaining : ∀ n m, p.remaining a = .ok n → q.remaining a = .ok m → m ≤ n := by
    intro n m hn hm
    have hw := h.worth
    rw [worthOf, worthOf, h.deposit] at hw
    rw [remaining, h.deposit] at hm
    exact Deposit.remaining_anti hw hn hm
  refine ⟨h.deposit, hremaining, fun m hz hm => Nat.le_zero.1 (hremaining 0 m hz hm), ?_⟩
  intro n m hn hm
  have hm := earned_ok hm
  rw [h.deposit] at hm
  exact Deposit.earned_mono (h.sums _ _) (h.sums _ _) (earned_ok hn) hm

theorem Visited.told_same {gain left amount : Nat} (h : Visited p a gain left amount q)
    (hb : b ≠ a) : q.remaining b = p.remaining b ∧ q.earned b = p.earned b := by
  refine ⟨?_, ?_⟩
  · rw [remaining, remaining, h.deposit_other hb, h.state]
  · simp only [earned, h.deposit_other hb, h.sumAt_eq]

end Pool

end Stability

/-! ## Runs -/

open Protocol (Sweep)

/-- Whether a turn is a depositor's own operation on the pool. -/
def Turn.visits (a : Address) : Turn → Prop
  | .call caller (.provide _) => caller = a
  | .call caller (.withdraw _) => caller = a
  | _ => False

instance (t : Turn) (a : Address) : Decidable (t.visits a) := by
  unfold Turn.visits
  split <;> infer_instance

theorem Protocol.Sweep.ages {w w' : World} {price : Nat} {liquidator : Address}
    {t t' : Liquidation.Totals} (h : Sweep price liquidator w t w' t') (hp : w.pool.Orderly) :
    w'.pool.Orderly ∧ ∀ a, w.pool.Ages w'.pool a := by
  induction h with
  | done => exact ⟨hp, .refl _⟩
  | next _ out _ _ ih =>
    rcases Pool.takeOffset_ok out.pool with hsame | ha
    · rw [hsame] at ih
      exact ih hp
    · obtain ⟨_, _, -, ha⟩ := Pool.absorb_ok ha
      obtain ⟨hq, hages⟩ := ih (ha.orderly hp)
      exact ⟨hq, fun a => (ha.ages hp.toSane a).trans (hages a)⟩

/-- What a turn does to the pool: nothing, a visit or offsets. -/
theorem Step.pool_cases {w w' : World} {t : Turn} {k : Nat} (h : Step w t k w') :
    w'.pool = w.pool ∨
      (∃ a gain left amount, t.visits a ∧ w.pool.Visited a gain left amount w'.pool) ∨
      ∃ price liquidator feed totals, Sweep price liquidator { w with feed } {} w' totals := by
  cases h with
  | @provide caller _ _ h =>
    obtain ⟨gain, left, hv⟩ := Pool.provide_ok h.pool
    exact .inr (.inl ⟨caller, gain, left, _, rfl, hv⟩)
  | @withdraw caller _ _ h =>
    obtain ⟨gain, left, hv⟩ := Pool.withdraw_ok h.pool
    exact .inr (.inl ⟨caller, gain, left, _, rfl, hv⟩)
  | claim h => exact .inl (by rw [h.rest])
  | borrow h =>
    obtain ⟨d, -, -, hr⟩ := h.rest
    exact .inl (by rw [hr])
  | settle h => exact .inl (by rw [h.rest])
  | liquidate _ h =>
    obtain ⟨d, -, hs⟩ := h.sweep
    exact .inr (.inr ⟨_, _, _, _, hs⟩)
  | _ => exact .inl rfl

/-- A turn keeps the pool orderly, and only a depositor's own operation changes
its position other than by age. -/
theorem Step.ages {w w' : World} {t : Turn} {k : Nat} (h : Step w t k w')
    (hp : w.pool.Orderly) :
    w'.pool.Orderly ∧ ∀ a, ¬ t.visits a → w.pool.Ages w'.pool a := by
  rcases h.pool_cases with hsame | ⟨b, gain, left, amount, hb, hv⟩ | ⟨_, _, _, _, hs⟩
  · rw [hsame]
    exact ⟨hp, fun a _ => .refl _ a⟩
  · refine ⟨hv.orderly hp, fun a ht => hv.ages fun hab => ?_⟩
    exact ht (hab ▸ hb)
  · obtain ⟨hq, hages⟩ := hs.ages (by exact hp)
    exact ⟨hq, fun a _ => hages a⟩

theorem Deployment.Ready.orderly_after {d : Deployment} {w : World} (h : d.Ready w)
    {ts : List Turn} (outside : ∀ t ∈ ts, t.outside) :
    (w.after ts).Wired ∧ (w.after ts).pool.Orderly := by
  refine World.after_induction (n := 0) (P := fun w _ => w.pool.Orderly) h.wired outside
    (fun _ _ _ _ _ _ _ hs hp => (hs.ages hp).1) ?_
  rw [h.pool]
  exact Pool.orderly_new _

theorem World.ages_after {w : World} (hw : w.Wired) (hp : w.pool.Orderly) {us : List Turn}
    (outside : ∀ t ∈ us, t.outside) {a : Address} (idle : ∀ t ∈ us, ¬ t.visits a) :
    (w.after us).pool.Orderly ∧ w.pool.Ages (w.after us).pool a := by
  refine (World.after_induction (n := 0)
    (P := fun w' _ => w'.pool.Orderly ∧ w.pool.Ages w'.pool a) hw outside ?_
    ⟨hp, .refl _ a⟩).2
  intro t ht _ _ _ _ _ hs ⟨ho, ha⟩
  obtain ⟨ho', hages⟩ := hs.ages ho
  exact ⟨ho', ha.trans (hages a (idle t ht))⟩

/-- Somebody's own operation on the pool changes nobody else's position. -/
theorem Request.ensures_told_same {w : World} (hw : w.Wired) {a b : Address} (hb : b ≠ a)
    {r : Request} (hr : (Turn.call a r).visits a) :
    (r.perform a).Ensures w fun _ w' =>
      w'.pool.remaining b = w.pool.remaining b ∧ w'.pool.earned b = w.pool.earned b := by
  cases r with
  | provide amount =>
    refine Request.ensures_silent.2 ((Protocol.ensures_provide hw).mono fun _ _ h => ?_)
    obtain ⟨gain, left, hv⟩ := Pool.provide_ok h.pool
    exact hv.told_same hb
  | withdraw amount =>
    refine Request.ensures_silent.2 ((Protocol.ensures_withdraw hw).mono fun _ _ h => ?_)
    obtain ⟨gain, left, hv⟩ := Pool.withdraw_ok h.pool
    exact hv.told_same hb
  | _ => exact hr.elim

/-- What a depositor is told in any state of a run, and in any later one to which
no operation of its own leads: what is left is never more than the deposit and
never grows, once nothing is left it stays so, and what was earned never
shrinks.  Both can be told unless they do not fit or the next scale has no
number, and what others put in or take out changes neither. -/
theorem Deployment.position_one_way {d : Deployment} {incentive? : Option Liquidation.Incentive}
    {o : Outcome Unit} (start : d.start (some { incentive? }) = .ok o) {ts us : List Turn}
    (outside : ∀ t ∈ ts ++ us, t.outside) {a : Address} (idle : ∀ t ∈ us, ¬ t.visits a) :
    let w := o.world.after ts
    let w' := o.world.after (ts ++ us)
    w'.pool.Told a ∧ w.pool.OneWay w'.pool a ∧
      ∀ b r out, b ≠ a → (Turn.call b r).visits b → r.perform b w' = .ok out →
        out.world.pool.remaining a = w'.pool.remaining a ∧
          out.world.pool.earned a = w'.pool.earned a := by
  intro w w'
  have hts : ∀ t ∈ ts, t.outside := fun t ht => outside t (List.mem_append_left us ht)
  have hus : ∀ t ∈ us, t.outside := fun t ht => outside t (List.mem_append_right ts ht)
  obtain ⟨hw, hp⟩ := (start_ready start).orderly_after hts
  obtain ⟨hq, hages⟩ := World.ages_after hw hp hus idle
  have hafter : w' = w.after us := World.after_append _ ts us
  rw [← hafter] at hq hages
  refine ⟨hq.told a, hages.oneWay, fun b r out hb hr hout => ?_⟩
  have hw' : w'.Wired := hafter ▸ hw.after hus
  exact Request.ensures_told_same hw' hb.symm hr out hout

/-- Four troves are opened, and the owner of the first makes a deposit. -/
def Deployment.deposited : List Turn :=
  Turn.opening (.account 1) (1000 * Amount.one) (4 * Amount.one) ++
  Turn.opening (.account 2) 4500000000000000 600000000000000000 ++
  Turn.opening (.account 3) 4500000000000000 600000000000000000 ++
  Turn.opening (.account 4) 4500000000000000 600000000000000000 ++
  [.call (.account 1) (.provide Amount.one)]

/-- Three offsets: the first takes a part of the deposit, the second brings a new
scale and the third a new epoch.  In between others fill the pool up. -/
def Deployment.wornDown : List Turn :=
  [.pricing 10000000000,
   .call (.account 9) (.liquidateOne (.account 2)),
   .call (.account 2) (.provide 200000000000000001),
   .call (.account 9) (.liquidateOne (.account 3)),
   .call (.account 3) (.provide 599999999999999999),
   .call (.account 9) (.liquidateOne (.account 4))]

theorem Deployment.position_one_way_wornDown :
    ∃ o, plain.start (some { incentive? := some { debtCompensation := 0 } }) = .ok o ∧
      (∀ t ∈ deposited ++ wornDown, t.outside) ∧ (∀ t ∈ wornDown, ¬ t.visits (.account 1)) ∧
      let p := (o.world.after deposited).pool
      let q := (o.world.after (deposited ++ wornDown)).pool
      p.remaining (.account 1) = .ok Amount.one ∧ q.remaining (.account 1) = .ok 0 ∧
        p.earned (.account 1) = .ok 0 ∧ q.earned (.account 1) = .ok 7462499999999999 ∧
        q.state.epoch = 1 ∧ q.Told (.account 1) ∧ p.OneWay q (.account 1) := by
  obtain ⟨o, ho, h⟩ : ∃ o,
      plain.start (some { incentive? := some { debtCompensation := 0 } }) = .ok o ∧
      let p := (o.world.after deposited).pool
      let q := (o.world.after (deposited ++ wornDown)).pool
      p.remaining (.account 1) = .ok Amount.one ∧ q.remaining (.account 1) = .ok 0 ∧
        p.earned (.account 1) = .ok 0 ∧ q.earned (.account 1) = .ok 7462499999999999 ∧
        q.state.epoch = 1 :=
    Checked.exists_ok (by decide +kernel)
  have hout : ∀ t ∈ deposited ++ wornDown, t.outside := by decide +kernel
  have hidle : ∀ t ∈ wornDown, ¬ t.visits (.account 1) := by decide +kernel
  obtain ⟨htold, hway, -⟩ := position_one_way ho hout hidle
  obtain ⟨h₁, h₂, h₃, h₄, h₅⟩ := h
  exact ⟨o, ho, hout, hidle, h₁, h₂, h₃, h₄, h₅, htold, hway⟩

end Troves
