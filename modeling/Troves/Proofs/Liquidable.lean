/-
# What keeps a liquidation going

An eligible trove can be liquidated in every state of every run, whoever asks
for it.  Each contract has what the books say it has, so every payment is
covered; the list has the trove; the pool has the deposits and the coins for
the offset.  What may still fail is a sum or a product in the offset or in the
redistribution that does not fit its word.
-/
import Troves.Proofs.Offsets
import Troves.Proofs.Order
import Troves.Proofs.Reserve
import Troves.Proofs.Spreads

namespace Troves

open Troves.Action
open Protocol (poolAddress ledgerAddress escrowAddress Due)
open Liquidation (Split Totals Mode)

/-! ## The state between two turns -/

/-- What holds of a wired world after every turn, whoever the stablecoin
obeys. -/
structure World.Sound (w : World) : Prop where
  wired : w.Wired
  balanced : ∃ n, w.ledger.Balanced n
  tallied : w.ledger.Tallied
  threaded : ∃ xs, w.Threaded xs
  product : w.pool.state.product ≤ Amount.one
  custody : ∃ sent, w.Custody sent

theorem Deployment.Ready.sound_after {d : Deployment} {w : World} (h : d.Ready w)
    {ts : List Turn} (outside : ∀ t ∈ ts, t.outside) : (w.after ts).Sound := by
  have h₀ : w.ledger.Balanced 0 ∧ w.ledger.Tallied := by
    obtain ⟨i, hi⟩ := h.ledger
    rw [hi]
    exact ⟨Ledger.balanced_new i, Ledger.tallied_new i⟩
  have hp : w.pool.state.product ≤ Amount.one := by rw [h.pool]
  obtain ⟨hw, hb, ht, ⟨xs, hx⟩, hp⟩ := World.after_induction (n := 0)
    (P := fun w n => w.ledger.Balanced n ∧ w.ledger.Tallied ∧ (∃ xs, w.Threaded xs) ∧
      w.pool.state.product ≤ Amount.one) h.wired outside
    (fun _ _ _ _ _ _ _ hs ⟨hb, ht, ⟨_, hx⟩, hp⟩ =>
      ⟨hs.balanced hb, hs.tallied ht, (hs.relisted hx).threaded, hs.product hp⟩)
    ⟨h₀.1, h₀.2, ⟨[], h.threaded⟩, hp⟩
  exact ⟨hw, ⟨_, hb⟩, ht, ⟨xs, hx⟩, hp, ⟨_, (h.custody.after h.wired outside).1⟩⟩

theorem World.Sound.withFeed {w : World} (h : w.Sound) (feed : Price.Feed) :
    World.Sound { w with feed } := by
  obtain ⟨n, hb⟩ := h.balanced
  obtain ⟨xs, hx⟩ := h.threaded
  obtain ⟨sent, hc⟩ := h.custody
  exact ⟨h.wired.withFeed feed, ⟨n, hb⟩, h.tallied, ⟨xs, hx.withFeed feed⟩, h.product, sent,
    ⟨hc.owners.troves, hc.owners.surpluses⟩, hc.ledger, hc.pool, hc.escrow, hc.sound⟩

/-! ## What each book can bear -/

namespace Token

variable {t : Token} {a : Address} {amount n : Nat}

theorem Holds.lt_limit (h : t.Holds a n) : n < Amount.limit := by
  have hle := balance_le_sum t a
  rw [h.balance, h.sound.supply] at hle
  exact hle.trans_lt h.sound.supply_lt

/-- An amount that the source has can be burnt. -/
theorem burn_succeeds (ht : t.Sound) (h : amount ≤ t.balance a) :
    ∃ t', t.burn a amount = .ok t' := by
  have hle := balance_le_sum t a
  rw [ht.supply] at hle
  simp only [burn, Checked.bind_eq_ok, require_eq_ok, decide_eq_true_eq, Amount.sub_eq_ok,
    Checked.pure_eq_ok]
  exact ⟨_, (), h, _, ⟨h.trans hle, rfl⟩, rfl⟩

end Token

/-- What an escrow that adds up has room for can be set aside. -/
theorem Escrow.setAside_succeeds {e : Escrow} (he : e.Sound) (owner : Address) {amount : Nat}
    (h : e.total + amount < Amount.limit) : ∃ e', e.setAside owner amount = .ok e' := by
  have hle := Table.le_sum e.balances owner
  rw [he] at hle
  have hfit : e.balance owner + amount < Amount.limit :=
    (Nat.add_le_add_right hle amount).trans_lt h
  rw [setAside]
  split
  · exact ⟨e, rfl⟩
  · simp only [book, Checked.bind_eq_ok, Amount.add_eq_ok, Checked.pure_eq_ok]
    exact ⟨_, _, ⟨hfit, rfl⟩, _, ⟨h, rfl⟩, rfl⟩

/-- An offset within the deposits is taken in unless something overflows. -/
theorem Stability.Pool.takeOffset_meets {p : Pool} {debt coll : Nat}
    (hp : p.state.product ≤ Amount.one) (hd : debt ≤ p.total)
    (hc : p.collateral + coll < Amount.limit) :
    (p.takeOffset debt coll).Meets (fun _ => True) fun e =>
      debt ≠ 0 ∧ p.Overflows debt coll ∧ e.isOverflow := by
  rw [takeOffset]
  by_cases h : p.total = 0 ∨ debt = 0
  · rw [if_pos h]
    trivial
  · rw [not_or] at h
    rw [if_neg (not_or.2 h), Checked.meets_bind, meets_require, if_pos (decide_eq_true hd)]
    exact (absorb_meets hp h.1 hd hc).mono (fun _ _ h => h) fun e he => ⟨h.2, he⟩

/-- A listed owner can be taken off the list. -/
theorem TroveList.Holds.detach_succeeds {l : TroveList} {xs : List Address} {a : Address}
    (h : l.Holds xs) (ha : a ∈ xs) : ∃ l', l.detach a = .ok l' := by
  obtain ⟨ys, zs, rfl⟩ := List.append_of_mem ha
  rw [TroveList.detach, h.links ys a zs rfl]
  exact ⟨_, rfl⟩

theorem Ledger.totalRatio_fits {l : Ledger} {price total : Nat}
    (h : l.totalRatio price = .ok total) (x : Part) :
    l.activePool.part x + l.defaultPool.part x < Amount.limit := by
  simp only [totalRatio, systemCollateral, systemDebt, Checked.bind_eq_ok, Amount.add_eq_ok] at h
  obtain ⟨_, ⟨hc, -⟩, _, ⟨hd, -⟩, -⟩ := h
  cases x with
  | collateral => exact hc
  | debt => exact hd

namespace World

variable {w : World} {sent : Address → Nat} {b liquidator : Address} {e : Entire} {s : Split}

/-- The ledger has the collateral that a liquidation hands out, and those who
take some of it on their books have room for it. -/
theorem Custody.settleLiquidation_succeeds (hw : w.Custody sent) (liquidator : Address)
    (held : s.handedOver + s.surplus + s.collateralCompensation ≤ w.ledger.held) :
    (∃ t, w.collateral.settleLiquidation liquidator s = .ok t) ∧
      w.pool.collateral + s.handedOver < Amount.limit ∧
      w.escrow.total + s.surplus < Amount.limit := by
  have hk := hw.ledger.keeps
  obtain ⟨t₁, h₁⟩ := hk.payOut_succeeds poolAddress (n := s.handedOver) (by omega)
  have hk := hk.giveOut h₁
  obtain ⟨t₂, h₂⟩ := hk.payOut_succeeds escrowAddress (n := s.surplus) (by omega)
  have hk := hk.giveOut h₂
  obtain ⟨t₃, h₃⟩ := hk.payOut_succeeds liquidator (n := s.collateralCompensation) (by omega)
  have h₁' := Token.payOut_passed h₁
  have hpool := (hw.pool.gains h₁' (by decide)).lt_limit
  have hescrow := ((hw.escrow.passed h₁' (by decide) (by decide)).gains
    (Token.payOut_passed h₂) (by decide)).lt_limit
  refine ⟨⟨t₃, ?_⟩, by omega, by omega⟩
  simp only [Token.settleLiquidation, Checked.bind_eq_ok]
  exact ⟨t₁, h₁, t₂, h₂, h₃⟩

/-- The pool has the coins that an offset burns, and the ledger those that a
liquidator is paid. -/
theorem Reserved.settleLiquidation_succeeds (hw : w.Reserved sent) (liquidator : Address)
    (obeyed : w.coin.obeys poolAddress = true) (covered : s.debtToOffset ≤ w.pool.total)
    (reserved : s.debtCompensation ≤ w.ledger.reserve) :
    ∃ c, w.coin.settleLiquidation w.pool.total liquidator s = .ok c := by
  have hk := hw.ledger.keeps
  obtain ⟨c, hc, hkeeps⟩ : ∃ c, w.coin.burnOffset w.pool.total s.debtToOffset = .ok c ∧
      c.token.Keeps ledgerAddress (w.ledger.reserve + sent ledgerAddress) := by
    rw [Coin.burnOffset]
    split
    · exact ⟨w.coin, rfl, hk⟩
    · obtain ⟨t, ht⟩ : ∃ t, w.coin.token.burn poolAddress s.debtToOffset = .ok t :=
        Token.burn_succeeds hw.pool.sound (by rw [hw.pool.balance]; omega)
      refine ⟨{ w.coin with token := t }, ?_, (hw.ledger.burnOther ht (by decide)).keeps⟩
      simp only [Coin.command, Checked.bind_eq_ok, require_eq_ok]
      exact ⟨(), obeyed, t, ht, rfl⟩
  obtain ⟨t, ht⟩ := hkeeps.payOut_succeeds liquidator (n := s.debtCompensation) (by omega)
  simp only [Coin.settleLiquidation, Checked.bind_eq_ok]
  exact ⟨_, c, hc, t, ht, rfl⟩

end World

/-! ## A liquidation, book by book -/

namespace Protocol

variable {w : World} {b liquidator : Address} {e : Entire} {s : Split} {E : Fault → Prop}

/-- A liquidation goes through if it does in every book, and fails only as one
of them does. -/
theorem meets_carryOut (h : w.Wired) {mode : Mode}
    (ledger : (w.ledger.liquidate b e.pending s).Meets (fun _ => True) E)
    (list : (w.list.detach b).Meets (fun _ => True) E)
    (pool : (w.pool.takeOffset s.debtToOffset s.collateralToPool).Meets (fun _ => True) E)
    (escrow : (w.escrow.setAside b s.surplus).Meets (fun _ => True) E)
    (collateral : (w.collateral.settleLiquidation liquidator s).Meets (fun _ => True) E)
    (coin : (w.coin.settleLiquidation w.pool.total liquidator s).Meets (fun _ => True) E) :
    (carryOut .usual b liquidator e mode s).Meets w (fun _ _ => True) E := by
  simp only [carryOut, meets_bind, meets_onLedger, meets_world, meets_emit, meets_retire,
    h.keeper, meets_offsetDebt, h.pool, meets_spreadOut, meets_setSurplusAside, h.escrow,
    meets_payCaller]
  simp only [Ledger.liquidate, Ledger.takeOut, Token.settleLiquidation, Coin.settleLiquidation,
    Checked.meets_bind, Checked.meets_pure] at ledger collateral coin
  have allowed : ∀ f, E f → E f := fun _ hf => hf
  refine ledger.mono (fun _ _ ledger => ledger.mono (fun _ _ ledger => ?_) allowed) allowed
  refine list.mono (fun _ _ _ => ?_) allowed
  refine ledger.mono (fun _ _ ledger => ?_) allowed
  refine collateral.mono (fun _ _ collateral => ?_) allowed
  refine pool.mono (fun _ _ _ => ?_) allowed
  refine coin.mono (fun _ _ coin => ?_) allowed
  refine ledger.mono (fun _ _ ledger => ledger.mono (fun _ _ ledger => ?_) allowed) allowed
  refine collateral.mono (fun _ _ collateral => ?_) allowed
  refine escrow.mono (fun _ _ _ => ?_) allowed
  refine ledger.mono (fun _ _ ledger => ledger.mono (fun _ _ _ => ?_) allowed) allowed
  refine collateral.mono (fun _ _ _ => ?_) allowed
  exact coin.mono (fun _ _ _ => trivial) allowed

/-- The sums and products of a trove's liquidation that may not fit: those of
the offset, if there is one, and those of the redistribution over the stakes
of the others. -/
inductive Overflows (w : World) (b : Address) (s : Split) : Prop where
  | offset (some : s.debtToOffset ≠ 0)
      (h : w.pool.Overflows s.debtToOffset s.collateralToPool)
  | spread (some : s.spread ≠ {})
      (h : w.ledger.Overflows s.spread (w.ledger.totalStakes - (w.ledger.trove b).stake))

/-- What a liquidator is to be paid is set aside. -/
theorem Due.compensation_le {sent : Address → Nat} {price : Nat} (due : Due w b price e s)
    (reserved : w.Reserved sent) : s.debtCompensation ≤ w.ledger.reserve := by
  obtain ⟨total, -, hsplit⟩ := due.split
  have hone : 0 < w.ledger.openTroves.card :=
    Finset.card_pos.2 ⟨b, Ledger.mem_openTroves.2 due.active⟩
  rw [(Liquidation.split?_whole hsplit).2.2, Ledger.reserve, reserved.counted]
  exact Nat.le_mul_of_pos_left _ hone

/-- An eligible trove is liquidated unless something overflows. -/
theorem Due.meets_carryOut {sent : Address → Nat} {price : Nat} {mode : Mode}
    (due : Due w b price e s) (hw : w.Sound) (reserved : w.Reserved sent)
    (obeyed : w.coin.obeys poolAddress = true) :
    (carryOut .usual b liquidator e mode s).Meets w (fun _ _ => True) fun f =>
      Overflows w b s ∧ f.isOverflow := by
  obtain ⟨n, hb⟩ := hw.balanced
  obtain ⟨sent', hc⟩ := hw.custody
  obtain ⟨xs, hx⟩ := hw.threaded
  obtain ⟨total, htotal, -⟩ := due.split
  obtain ⟨hp, hpos⟩ := Ledger.entire_ok due.position
  have exact := due.exact
  have held : s.handedOver + s.surplus + s.collateralCompensation ≤ w.ledger.held := by
    have hshared : s.outgoing.collateral + s.spread.collateral = e.collateral :=
      exact.shared .collateral
    have hout : s.outgoing.collateral =
      s.handedOver + s.surplus + s.collateralCompensation := rfl
    have hle := hw.tallied.trove_le due.active .collateral
    have hle' := hb.pending_le due.active hp .collateral
    have hpos := hpos .collateral
    simp only [Holding.part] at hle hle' hpos
    rw [Ledger.held]
    omega
  obtain ⟨⟨t, ht⟩, hpool, hescrow⟩ := hc.settleLiquidation_succeeds liquidator held
  obtain ⟨c, hcoin⟩ := reserved.settleLiquidation_succeeds liquidator obeyed exact.covered
    (due.compensation_le reserved)
  obtain ⟨list, hlist⟩ := hx.holds.detach_succeeds ((hx.listed b).2 due.active)
  obtain ⟨escrow, hset⟩ := Escrow.setAside_succeeds hc.sound b hescrow
  refine Protocol.meets_carryOut hw.wired ?_ (Checked.meets_of_ok hlist trivial) ?_
    (Checked.meets_of_ok hset trivial) (Checked.meets_of_ok ht trivial)
    (Checked.meets_of_ok hcoin trivial)
  · exact (Ledger.liquidate_meets hb hw.tallied due.active due.position exact
      (Ledger.totalRatio_fits htotal)).mono (fun _ _ h => h)
      fun f h => ⟨.spread h.1 h.2.1, h.2.2⟩
  · exact (Stability.Pool.takeOffset_meets hw.product exact.covered
      (exact.handedOver ▸ hpool)).mono (fun _ _ h => h)
      fun f h => ⟨.offset h.1 h.2.1, h.2.2⟩

/-- An eligible trove comes to its split. -/
theorem Due.meets_liquidateIfDue {price : Nat} {Q : Option Split → World → Prop}
    (due : Due w b price e s)
    (carried : ∀ mode, (carryOut .usual b liquidator e mode s).Meets w
      (fun _ w' => Q (some s) w') E) :
    (liquidateIfDue .usual b price liquidator).Meets w Q E := by
  obtain ⟨total, htotal, hsplit⟩ := due.split
  simp only [liquidateIfDue, meets_bind, meets_world, meets_ite, due.active, if_true,
    liftM_eq_ofChecked, meets_ofChecked, due.position, htotal, hsplit, via_pool, meets_pure,
    Checked.meets_ok]
  exact carried _

/-- The shares of a trove are amounts, so a first trove can be tallied. -/
theorem Due.tallied {price : Nat} (due : Due w b price e s)
    (paid : s.debtCompensation < Amount.limit) :
    ∃ t, Totals.tally {} (some s) = .ok t ∧ t.troves ≠ 0 := by
  obtain ⟨total, -, hsplit⟩ := due.split
  obtain ⟨hdebt, hcoll, -⟩ := Liquidation.split?_whole hsplit
  have exact := due.exact
  have hd := exact.debt
  have hc := exact.collateral
  obtain ⟨hlt, hlt'⟩ : e.collateral < Amount.limit ∧ e.debt < Amount.limit := by
    have he := due.position
    simp only [Ledger.entire, Checked.bind_eq_ok, Checked.pure_eq_ok, Holding.add_eq_ok] at he
    obtain ⟨_, -, _, ⟨hfit, rfl⟩, rfl⟩ := he
    exact hfit
  have first {n : Nat} (h : n < Amount.limit) : Amount.add 0 n = .ok n := by
    simp [h]
  refine ⟨{
    troves := 1, debt := s.debt, collateral := s.collateral
    collateralCompensation := s.collateralCompensation
    debtCompensation := s.debtCompensation, debtOffset := s.debtToOffset
    collateralToPool := s.collateralToPool, debtSpread := s.debtToSpread
    collateralSpread := s.collateralToSpread, surplus := s.surplus }, ?_, Nat.one_ne_zero⟩
  simp only [Totals.tally, Totals.add, first paid, first (hdebt ▸ hlt'), first (hcoll ▸ hlt),
    first (show s.collateralCompensation < Amount.limit by omega),
    first (show s.debtToOffset < Amount.limit by omega),
    first (show s.collateralToPool < Amount.limit by omega),
    first (show s.debtToSpread < Amount.limit by omega),
    first (show s.collateralToSpread < Amount.limit by omega),
    first (show s.surplus < Amount.limit by omega)]
  rfl

/-- A request for a trove that is eligible at the price the feed gives. -/
theorem meets_liquidateOne {sent : Address → Nat} {d : Price.Decision} {caller : Address}
    (hw : w.Sound) (reserved : w.Reserved sent) (obeyed : w.coin.obeys poolAddress = true)
    (answered : w.feed.decideAt w.round? w.quote? w.time = .ok d)
    (due : Due w b (w.feed.follow d).lastGood e s) :
    (liquidateOne caller b).Meets w (fun _ _ => True) fun f =>
      Overflows w b s ∧ f.isOverflow := by
  obtain ⟨t, ht, hsome⟩ :=
    due.tallied ((due.compensation_le reserved).trans_lt
      (Nat.lt_of_le_of_lt (Nat.le_add_right _ _) reserved.ledger.lt_limit))
  have due' : Due { w with feed := w.feed.follow d } b (w.feed.follow d).lastGood e s :=
    ⟨due.active, due.position, due.split⟩
  have reserved' : World.Reserved { w with feed := w.feed.follow d } sent :=
    ⟨reserved.counted, reserved.pool, reserved.ledger⟩
  simp only [liquidateOne, liquidateAll, liquidateEach, liftM_eq_ofChecked, meets_bind,
    meets_world, meets_ofChecked, meets_require, due.active, if_true,
    meets_ledgerLinks hw.wired.ledger]
  refine meets_priceFrom.2 (Checked.meets_of_ok answered (due'.meets_liquidateIfDue fun mode => ?_))
  refine (due'.meets_carryOut (hw.withFeed _) reserved' obeyed).mono
    (fun _ _ _ => Checked.meets_of_ok ht ?_) fun f h => ⟨?_, h.2⟩
  · simp [conclude, hsome]
  · cases h.1 with
    | offset some h => exact .offset some h
    | spread some h => exact .spread some h

end Protocol

open Protocol (Overflows)

/-- An eligible trove can be liquidated in every state of every run in which the
stablecoin never obeys anybody but the ledger and the pool, whoever asks for it:
there is an owner to be struck off and a listed one to be removed, and the
request goes through unless a sum or a product of the offset or of the
redistribution does not fit. -/
theorem Deployment.eligible_liquidable {d : Deployment} {incentive? : Option Liquidation.Incentive}
    {o : Outcome Unit} (start : d.start (some { incentive? }) = .ok o) {ts : List Turn}
    (outside : ∀ t ∈ ts, t.outside)
    (confined : ∀ us, us <+: ts → (o.world.after us).coin.Confined)
    (obeyed : (o.world.after ts).coin.obeys poolAddress = true) {decision : Price.Decision}
    (answered : let w := o.world.after ts
      w.feed.decideAt w.round? w.quote? w.time = .ok decision)
    {b : Address} {e : Entire} {s : Split}
    (due : let w := o.world.after ts
      Due w b (w.feed.follow decision).lastGood e s) (caller : Address) :
    let w := o.world.after ts
    let attempt := (Request.liquidateOne b).perform caller w
    (0 < w.ledger.owners.length ∧ 0 < w.list.size) ∧
      ((∃ out, attempt = .ok out) ∨
        ∃ f, attempt = .error f ∧ f.isOverflow ∧ Overflows w b s) := by
  have hr := start_ready start
  have hw := hr.sound_after outside
  have reserved := hr.reserved.after hr.wired outside confined
  obtain ⟨xs, hx⟩ := hw.threaded
  refine ⟨⟨?_, ?_⟩, ?_⟩
  · rw [reserved.counted]
    exact Finset.card_pos.2 ⟨b, Ledger.mem_openTroves.2 due.active⟩
  · rw [hx.holds.size]
    exact List.length_pos_of_mem ((hx.listed b).2 due.active)
  · have h : ((Request.liquidateOne b).perform caller).Meets (o.world.after ts) (fun _ _ => True)
        fun f => Overflows (o.world.after ts) b s ∧ f.isOverflow := by
      rw [Request.perform, meets_bind]
      exact (Protocol.meets_liquidateOne hw reserved obeyed answered due).mono
        (fun _ _ _ => trivial) fun _ hf => hf
    rw [Action.Meets] at h
    cases hout : (Request.liquidateOne b).perform caller (o.world.after ts) with
    | ok out => exact .inl ⟨out, rfl⟩
    | error f =>
      rw [hout] at h
      exact .inr ⟨f, rfl, h.2, h.1⟩

/-- The trove that the pool can take only a part of, before it is liquidated. -/
theorem Deployment.eligible_liquidable_partlyOffset :
    ∃ o, plain.start (some { incentive? := none }) = .ok o ∧
      (∀ t ∈ partlyOffset.dropLast, t.outside) ∧
      (∀ us, us <+: partlyOffset.dropLast → (o.world.after us).coin.Confined) ∧
      let w := o.world.after partlyOffset.dropLast
      w.coin.obeys poolAddress = true ∧
        ∃ decision e s, w.feed.decideAt w.round? w.quote? w.time = .ok decision ∧
          Due w (.account 2) (w.feed.follow decision).lastGood e s ∧
          s.debtToOffset = 100 * Amount.one ∧ s.debtToSpread = 500 * Amount.one ∧
          ((∃ out, (Request.liquidateOne (.account 2)).perform (.account 3) w = .ok out) ∨
            ∃ f, (Request.liquidateOne (.account 2)).perform (.account 3) w = .error f ∧
              f.isOverflow ∧ Overflows w (.account 2) s) := by
  let decision : Price.Decision := ⟨.secondaryUntrusted, .primary (120 * Amount.one)⟩
  let e : Entire := { collateral := 5 * Amount.one, debt := 600 * Amount.one }
  let s : Split := {
    debt := 600 * Amount.one, collateral := 5 * Amount.one
    collateralCompensation := 25000000000000000, debtCompensation := 200 * Amount.one
    debtToOffset := 100 * Amount.one, collateralToPool := 829166666666666666
    debtToSpread := 500 * Amount.one, collateralToSpread := 4145833333333333334 }
  obtain ⟨o, ho, hd, ha, he, hs⟩ : ∃ o, plain.start (some { incentive? := none }) = .ok o ∧
      let w := o.world.after partlyOffset.dropLast
      w.feed.decideAt w.round? w.quote? w.time = .ok decision ∧
        w.ledger.isActive (.account 2) = true ∧ w.ledger.entire (.account 2) = .ok e ∧
        (do
          let price := (w.feed.follow decision).lastGood
          let total ← w.ledger.totalRatio price
          Liquidation.split? (Mode.ofTotal total) e.debt e.collateral price total
            w.pool.total w.ledger.incentive) = .ok (some s) :=
    Checked.exists_ok (by decide +kernel)
  have hout : ∀ t ∈ partlyOffset.dropLast, t.outside := by decide +kernel
  have hrights : ∀ t ∈ partlyOffset.dropLast, t.keepsRights := by decide +kernel
  have hkept {us : List Turn} (hus : us <+: partlyOffset.dropLast) :=
    (start_ready ho).coinsKept_after hout hrights hus
  have hconf : ∀ us, us <+: partlyOffset.dropLast → (o.world.after us).coin.Confined :=
    fun us hus => Coin.confined_of_protocols (hkept hus).protocols
  have hobeys := (hkept (List.prefix_refl _)).obeys.2 (.inr rfl)
  have hdue := Due.mk ha he (Checked.bind_eq_ok.1 hs)
  exact ⟨o, ho, hout, hconf, hobeys, decision, e, s, hd, hdue, rfl, rfl,
    (eligible_liquidable ho hout hconf hobeys hd hdue (.account 3)).2⟩

end Troves
