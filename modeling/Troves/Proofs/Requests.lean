/-
# What each request does

One structure for each request that touches the books of a wired world
(`Provided`, `Withdrawn`, `Claimed`, `Opened`, `Settled`, `Liquidated`): what
every book looks like afterwards, as a function of the book before.  The
liquidations of one call form a `Sweep`.

Each structure comes with the theorem that the request, if it goes through,
is described by it, and with the fact that the world stays wired.
-/
import Troves.Proofs.Books
import Troves.Proofs.Links

namespace Troves

open Troves.Action
open Liquidation (Split Totals Mode)

/-! ## How the books change -/

/-- Moves coins out of the pool, if any are taken. -/
def Coin.repay (c : Coin) (a : Address) (amount : Nat) : Checked Coin :=
  if amount = 0 then return c
  else c.command Protocol.poolAddress (·.move Protocol.poolAddress a amount)

/-! ## Who the books know -/

namespace Stability.Pool

variable {p q : Pool} {a : Address}

theorem payGain_links {gain : Nat} (h : p.payGain gain = .ok q) : q.links? = p.links? := by
  rw [payGain] at h
  split at h
  · cases h
    rfl
  · simp only [Checked.bind_eq_ok, Checked.pure_eq_ok] at h
    obtain ⟨_, -, rfl⟩ := h
    rfl

theorem provide_links {amount : Nat} (h : p.provide a amount = .ok q) :
    q.links? = p.links? := by
  simp only [provide, Checked.bind_eq_ok] at h
  obtain ⟨_, -, _, -, _, -, _, -, _, -, _, -, h⟩ := h
  have hl := payGain_links h
  exact hl

theorem withdraw_links {amount : Nat} (h : p.withdraw a amount = .ok q) :
    q.links? = p.links? := by
  simp only [withdraw, Checked.bind_eq_ok] at h
  obtain ⟨_, -, _, -, _, -, _, -, h⟩ := h
  have hl := payGain_links h
  exact hl

theorem takeOffset_links {debt coll : Nat} (h : p.takeOffset debt coll = .ok q) :
    q.links? = p.links? := by
  rw [takeOffset] at h
  split at h
  · cases h
    rfl
  · simp only [Checked.bind_eq_ok] at h
    obtain ⟨_, -, h⟩ := h
    exact absorb_links h

end Stability.Pool

namespace Escrow

variable {e e' : Escrow} {owner : Address} {amount : Nat}

theorem release_links (h : e.release owner = .ok (e', amount)) : e'.links? = e.links? := by
  simp only [release, Checked.bind_eq_ok, Checked.pure_eq_ok, Prod.mk.injEq] at h
  obtain ⟨_, -, _, -, rfl, -⟩ := h
  rfl

theorem setAside_links (h : e.setAside owner amount = .ok e') : e'.links? = e.links? := by
  rw [setAside] at h
  split at h
  · cases h
    rfl
  · simp only [book, Checked.bind_eq_ok, Checked.pure_eq_ok] at h
    obtain ⟨_, -, _, -, rfl⟩ := h
    rfl

end Escrow

namespace Ledger

theorem settle_links {l l' : Ledger} {b : Address} {s : Accrual.Settlement}
    (h : l.settle b s = .ok l') : l'.links? = l.links? := by
  rw [settle] at h
  split at h
  · cases h
    rfl
  · simp only [Checked.bind_eq_ok, Checked.pure_eq_ok] at h
    obtain ⟨_, h₁, rfl⟩ := h
    obtain ⟨d, a, -, rfl, -⟩ := activate_ok h₁
    rfl

theorem enroll_links {l l' : Ledger} {a : Address} {holding : Holding}
    (h : l.enroll a holding = .ok l') : l'.links? = l.links? := by
  simp only [enroll, Checked.bind_eq_ok, Checked.pure_eq_ok] at h
  obtain ⟨_, -, _, -, rfl⟩ := h
  rfl

end Ledger

namespace Protocol

variable {w : World} {Q : Unit → World → Prop}

/-! ## Deposits -/

theorem ensures_poolMove (hp : w.pool.links? = some .usual) {source target : Address}
    {amount : Nat} :
    (poolMove source target amount).Ensures w Q ↔
      ∀ coin, w.coin.command poolAddress (·.move source target amount) = .ok coin →
        Q () { w with coin } := by
  simp only [poolMove, ensures_bind, ensures_poolLinks hp, via_coin]
  exact ensures_command

theorem ensures_payGain (hp : w.pool.links? = some .usual) {depositor : Address}
    {gain loss : Nat} :
    (payGain depositor gain loss).Ensures w Q ↔
      ∀ pool, w.pool.payGain gain = .ok pool →
      ∀ collateral, w.collateral.payOut poolAddress depositor gain = .ok collateral →
        Q () { w with pool, collateral } := by
  by_cases h : gain = 0
  · simp [payGain, h, Stability.Pool.payGain, Token.payOut]
  · have hl {w : World} (hp : w.pool.links? = some .usual) {Q : Unit → World → Prop} :
        (do pay (← poolLinks).collateral poolAddress depositor gain : Action Unit).Ensures w Q ↔
          ∀ collateral, w.collateral.move poolAddress depositor gain = .ok collateral →
            Q () { w with collateral } := by
      simp only [ensures_bind, ensures_poolLinks hp]
      exact ensures_pay
    simp only [payGain, ne_eq, h, not_false_eq_true, if_true, if_false,
      Stability.Pool.payGain, Token.payOut, ensures_bind, ensures_emit, ensures_onPool,
      Checked.bind_eq_ok, Checked.pure_eq_ok]
    constructor
    · rintro hQ pool ⟨collateral, hc, rfl⟩ t ht
      exact ((hl (w := { w with pool := { w.pool with collateral } }) hp).1
        (ensures_bind.2 (hQ _ ⟨collateral, hc, rfl⟩))) t ht
    · rintro hQ pool ⟨collateral, hc, rfl⟩
      exact ensures_bind.1 ((hl (w := { w with pool := { w.pool with collateral } }) hp).2
        fun t ht => hQ _ ⟨collateral, hc, rfl⟩ t ht)

theorem ensures_recordDeposit {depositor : Address} {amount : Nat} :
    (recordDeposit depositor amount).Ensures w Q ↔
      Q () { w with pool := w.pool.record depositor amount } := by
  simp [recordDeposit]

/-- A deposit made: the coins are in the pool, and the gain is paid. -/
structure Provided (w : World) (a : Address) (amount : Nat) (w' : World) : Prop where
  pool : w.pool.provide a amount = .ok w'.pool
  coin : w.coin.command poolAddress (·.move a poolAddress amount) = .ok w'.coin
  collateral : ∃ gain, w.pool.earned a = .ok gain ∧
    w.collateral.payOut poolAddress a gain = .ok w'.collateral
  rest : w' = { w with pool := w'.pool, coin := w'.coin, collateral := w'.collateral }

theorem Provided.wired {w' : World} {a : Address} {amount : Nat}
    (h : Provided w a amount w') (hw : w.Wired) : w'.Wired := by
  rw [h.rest]
  exact ⟨hw.ledger, hw.keeper, (Stability.Pool.provide_links h.pool).trans hw.pool, hw.escrow⟩

theorem ensures_provide (h : w.Wired) {caller : Address} {amount : Nat} :
    (provide caller amount).Ensures w fun _ => Provided w caller amount := by
  simp only [provide, liftM_eq_ofChecked, ensures_bind, ensures_world,
    ensures_ofChecked, ensures_poolMove h.pool, ensures_onPool, ensures_ite,
    ensures_recordDeposit, Checked.bind_eq_ok, Checked.pure_eq_ok]
  rintro _ hz gain hg left hl coin hc - ⟨total, ht, rfl⟩
  -- a first deposit counts the depositor before it is recorded
  constructor
  · rintro hd - ⟨depositors, hn, rfl⟩ deposit hd'
    refine (ensures_payGain (by exact h.pool)).2 fun pool hp collateral hm =>
      ⟨?_, hc, ⟨gain, hg, hm⟩, rfl⟩
    simp only [Stability.Pool.provide, Stability.Pool.counted, Checked.bind_eq_ok, if_pos hd]
    exact ⟨(), hz, gain, hg, left, hl, total, ht, depositors, hn, deposit, hd', hp⟩
  · rintro hd deposit hd'
    refine (ensures_payGain (by exact h.pool)).2 fun pool hp collateral hm =>
      ⟨?_, hc, ⟨gain, hg, hm⟩, rfl⟩
    simp only [Stability.Pool.provide, Stability.Pool.counted, Checked.bind_eq_ok, if_neg hd]
    exact ⟨(), hz, gain, hg, left, hl, total, ht, w.pool.depositors, rfl, deposit, hd', hp⟩

/-- A deposit taken out, as far as there was any left, and the gain paid. -/
structure Withdrawn (w : World) (a : Address) (amount : Nat) (w' : World) : Prop where
  pool : w.pool.withdraw a amount = .ok w'.pool
  coin : ∃ left, w.pool.remaining a = .ok left ∧
    w.coin.repay a (min amount left) = .ok w'.coin
  collateral : ∃ gain, w.pool.earned a = .ok gain ∧
    w.collateral.payOut poolAddress a gain = .ok w'.collateral
  rest : w' = { w with pool := w'.pool, coin := w'.coin, collateral := w'.collateral }

theorem Withdrawn.wired {w' : World} {a : Address} {amount : Nat}
    (h : Withdrawn w a amount w') (hw : w.Wired) : w'.Wired := by
  rw [h.rest]
  exact ⟨hw.ledger, hw.keeper, (Stability.Pool.withdraw_links h.pool).trans hw.pool, hw.escrow⟩

theorem ensures_withdraw (h : w.Wired) {caller : Address} {amount : Nat} :
    (withdraw caller amount).Ensures w fun _ => Withdrawn w caller amount := by
  simp only [withdraw, liftM_eq_ofChecked, ensures_bind, ensures_world,
    ensures_ofChecked, ensures_poolMove h.pool, ensures_onPool, ensures_ite,
    ensures_recordDeposit, Checked.bind_eq_ok, Checked.pure_eq_ok]
  rintro _ hz gain hg left hl
  have close {total : Nat} {coin : Coin} {pool : Stability.Pool} {collateral : Token}
      (ht : Amount.sub w.pool.total (min amount left) = .ok total)
      (hc : w.coin.repay caller (min amount left) = .ok coin)
      (hp : (Stability.Pool.record
          { w.pool with
            total
            depositors := if left - min amount left = 0 then w.pool.depositors - 1
              else w.pool.depositors }
          caller (left - min amount left)).payGain gain = .ok pool)
      (hm : w.collateral.payOut poolAddress caller gain = .ok collateral) :
      Withdrawn w caller amount { w with coin, pool, collateral } := by
    refine ⟨?_, ⟨left, hl, hc⟩, ⟨gain, hg, hm⟩, rfl⟩
    simp only [Stability.Pool.withdraw, Checked.bind_eq_ok]
    exact ⟨(), hz, gain, hg, left, hl, total, ht, hp⟩
  constructor
  · rintro hn coin hc - ⟨total, ht, rfl⟩
    constructor
    · rintro hd - rfl
      exact (ensures_payGain (by exact h.pool)).2 fun pool hp collateral hm =>
        close ht (by rwa [Coin.repay, if_neg hn]) (by rwa [if_pos hd]) hm
    · intro hd
      exact (ensures_payGain (by exact h.pool)).2 fun pool hp collateral hm =>
        close ht (by rwa [Coin.repay, if_neg hn]) (by rwa [if_neg hd]) hm
  · intro hn
    have hn : min amount left = 0 := Decidable.not_not.1 hn
    have ht : Amount.sub w.pool.total (min amount left) = .ok w.pool.total := by simp [hn]
    constructor
    · rintro hd - rfl
      exact (ensures_payGain (by exact h.pool)).2 fun pool hp collateral hm =>
        close ht (by rw [Coin.repay, if_pos hn]; rfl) (by rwa [if_pos hd]) hm
    · intro hd
      exact (ensures_payGain (by exact h.pool)).2 fun pool hp collateral hm =>
        close ht (by rw [Coin.repay, if_pos hn]; rfl) (by rwa [if_neg hd]) hm

/-! ## The escrow -/

/-- An owner's surplus paid out. -/
structure Claimed (w : World) (owner : Address) (w' : World) : Prop where
  books : ∃ amount, w.escrow.release owner = .ok (w'.escrow, amount) ∧
    w.collateral.move escrowAddress owner amount = .ok w'.collateral
  rest : w' = { w with escrow := w'.escrow, collateral := w'.collateral }

theorem Claimed.wired {w' : World} {owner : Address} (h : Claimed w owner w')
    (hw : w.Wired) : w'.Wired := by
  obtain ⟨amount, hr, -⟩ := h.books
  rw [h.rest]
  exact ⟨hw.ledger, hw.keeper, hw.pool, (Escrow.release_links hr).trans hw.escrow⟩

theorem ensures_claimSurplus (h : w.Wired) {owner : Address} :
    (claimSurplus owner).Ensures w fun _ => Claimed w owner := by
  simp only [claimSurplus, liftM_eq_ofChecked, ensures_bind, ensures_world, ensures_ofChecked,
    ensures_update, ensures_emit]
  rintro ⟨escrow, amount⟩ hr
  simp only [Escrow.release_links hr, h.escrow]
  exact ensures_bind.2 (ensures_pay.2 fun collateral hc =>
    ensures_emit.2 ⟨⟨amount, hr, hc⟩, rfl⟩)

/-! ## Troves -/

/-- A borrower's rewards settled; the trove is listed anew only if there were
any. -/
structure Settled (w : World) (borrower : Address) (s : Accrual.Settlement) (w' : World) :
    Prop where
  active : w.ledger.isActive borrower = true
  settlement : w.ledger.settlement borrower = .ok s
  ledger : w.ledger.settle borrower s = .ok w'.ledger
  list : if s.applied.isZero then w'.list = w.list else
    ∃ ratio, Ratio.nominal s.trove.collateral s.trove.debt = .ok ratio ∧
      w.list.reposition w'.ledger.nominalRatio borrower ratio
        { before? := w.list.prev? borrower, after? := w.list.next? borrower } = .ok w'.list
  rest : w' = { w with ledger := w'.ledger, list := w'.list }

theorem Settled.booked {w' : World} {b : Address} {s : Accrual.Settlement}
    (h : Settled w b s w') : Ledger.SettledIn w.ledger b s w'.ledger :=
  Ledger.settle_ok h.active h.settlement h.ledger

theorem Settled.isActive {w' : World} {b : Address} {s : Accrual.Settlement}
    (h : Settled w b s w') (a : Address) : w'.ledger.isActive a = w.ledger.isActive a :=
  h.booked.isActive h.active h.settlement a

theorem Settled.wired {w' : World} {borrower : Address} {s : Accrual.Settlement}
    (h : Settled w borrower s w') (hw : w.Wired) : w'.Wired := by
  have hk : w'.list.keeper? = w.list.keeper? := by
    have hl := h.list
    split at hl
    · rw [hl]
    · obtain ⟨ratio, -, hl⟩ := hl
      exact TroveList.reposition_keeper hl
  rw [h.rest]
  exact ⟨(Ledger.settle_links h.ledger).trans hw.ledger, hk.trans hw.keeper, hw.pool, hw.escrow⟩

theorem meets_relist (hk : w.list.keeper? = some ledgerAddress) {b : Address} {holding : Holding}
    {E : Fault → Prop} :
    (relist Contract.list.address b holding).Meets w Q E ↔
      (Ratio.nominal holding.collateral holding.debt).Meets (fun ratio =>
        (w.list.reposition w.ledger.nominalRatio b ratio
            { before? := w.list.prev? b, after? := w.list.next? b }).Meets
          (fun list => Q () { w with list }) E) E := by
  simp only [relist, via_address, liftM_eq_ofChecked, meets_bind, meets_world, meets_pure,
    meets_ofChecked, meets_listReposition hk]

theorem meets_settleRewards (h : w.Wired) (hb : w.ledger.isActive b = true)
    {Q : Unit → World → Prop} {E : Fault → Prop} :
    (settleRewards b).Meets w Q E ↔
      (w.ledger.settlement b).Meets (fun s =>
        (w.ledger.settle b s).Meets (fun ledger =>
          if s.applied.isZero then Q () { w with ledger }
          else (Ratio.nominal s.trove.collateral s.trove.debt).Meets (fun ratio =>
            (w.list.reposition ledger.nominalRatio b ratio
                { before? := w.list.prev? b, after? := w.list.next? b }).Meets
              (fun list => Q () { w with ledger, list }) E) E) E) E := by
  simp only [settleRewards, liftM_eq_ofChecked, meets_bind, meets_world, meets_ofChecked,
    meets_require, hb, if_true, meets_ledgerLinks h.ledger, meets_onLedger, Checked.meets_pure]
  cases w.ledger.settlement b with
  | error e => rfl
  | ok s =>
    rw [Checked.meets_ok, Checked.meets_ok, Ledger.settle]
    by_cases hz : s.applied.isZero = true
    · simp [hz]
    · simp only [hz, Bool.not_false, if_true, if_false, Bool.false_eq_true, meets_bind,
        meets_onLedger, Checked.meets_bind, Checked.meets_pure, meets_emit]
      cases Ledger.activate _ s.applied with
      | error e => rfl
      | ok l => exact meets_relist (by exact h.keeper)

theorem ensures_settleRewards (h : w.Wired) {borrower : Address} :
    (settleRewards borrower).Ensures w fun _ w' => ∃ s, Settled w borrower s w' := by
  cases hb : w.ledger.isActive borrower with
  | false => simp [settleRewards, hb]
  | true =>
    rw [ensures_iff_meets, meets_settleRewards h hb, Checked.meets_any]
    intro s hs
    rw [Checked.meets_any]
    intro l hl
    split
    · next hz => exact ⟨s, hb, hs, hl, by rw [if_pos hz], rfl⟩
    · next hz =>
      simp only [Checked.meets_any]
      intro ratio hr list hi
      exact ⟨s, hb, hs, hl, by rw [if_neg hz]; exact ⟨ratio, hr, hi⟩, rfl⟩

/-- A trove opened. -/
structure Opened (w : World) (a : Address) (holding : Holding) (hint : TroveList.Slot)
    (w' : World) : Prop where
  inactive : w.ledger.isActive a = false
  collateral_ne : holding.collateral ≠ 0
  debt_ne : w.ledger.incentive.debtCompensation < holding.debt
  debt_lt : holding.debt < Amount.limit
  enrolled : ∃ enrolled, w.ledger.enroll a holding = .ok enrolled ∧
    ∃ pool, enrolled.activePool.add holding = .ok pool ∧
      w'.ledger = { enrolled with activePool := pool } ∧
    ∃ ratio, Ratio.nominal holding.collateral holding.debt = .ok ratio ∧
      w.list.insert enrolled.nominalRatio a ratio hint = .ok w'.list
  collateral : w.collateral.draw ledgerAddress a ledgerAddress holding.collateral =
    .ok w'.collateral
  coin : ∃ coin, w.coin.command ledgerAddress
      (·.mint a (holding.debt - w.ledger.incentive.debtCompensation)) = .ok coin ∧
    coin.command ledgerAddress
      (·.mint ledgerAddress w.ledger.incentive.debtCompensation) = .ok w'.coin
  rest : ∃ d, w.feed.decideAt w.round? w.quote? w.time = .ok d ∧
    checkOpening w.ledger holding (w.feed.follow d).lastGood = .ok () ∧
    w' = { w with
      feed := w.feed.follow d, ledger := w'.ledger, list := w'.list,
      collateral := w'.collateral, coin := w'.coin }

theorem Opened.wired {w' : World} {a : Address} {holding : Holding} {hint : TroveList.Slot}
    (h : Opened w a holding hint w') (hw : w.Wired) : w'.Wired := by
  obtain ⟨enrolled, he, pool, -, hl, ratio, -, hi⟩ := h.enrolled
  obtain ⟨d, -, -, hr⟩ := h.rest
  rw [hr]
  refine ⟨?_, (TroveList.insert_keeper hi).trans hw.keeper, hw.pool, hw.escrow⟩
  show w'.ledger.links? = _
  rw [hl]
  exact (Ledger.enroll_links he).trans hw.ledger

/-- What is opened goes into the active pool. -/
theorem Opened.pools {w' : World} {a : Address} {holding : Holding} {hint : TroveList.Slot}
    (h : Opened w a holding hint w') (x : Part) :
    w'.ledger.activePool.part x = w.ledger.activePool.part x + holding.part x ∧
      w'.ledger.defaultPool = w.ledger.defaultPool := by
  obtain ⟨l, he, pool, hp, hl, -⟩ := h.enrolled
  have hk := (Ledger.enroll_ok he).kept
  have ha : l.activePool = w.ledger.activePool := by rw [hk]
  have hd : l.defaultPool = w.ledger.defaultPool := by rw [hk]
  rw [hl]
  refine ⟨?_, hd⟩
  rw [← ha]
  exact Holding.part_add hp x

theorem ensures_borrow (h : w.Wired) {caller : Address} {collateral debt : Nat}
    {hint : TroveList.Slot} :
    (borrow caller collateral debt hint).Ensures w fun _ w' =>
      Opened w caller ⟨collateral, debt + w.ledger.incentive.debtCompensation⟩ hint w' := by
  simp only [borrow, liftM_eq_ofChecked, ensures_bind, ensures_world,
    ensures_ofChecked, ensures_ledgerLinks h.ledger]
  rintro _ ha _ hc _ hd
  refine ensures_priceFrom.2 ?_
  intro d hp owed ho _ hk
  rw [Amount.add_eq_ok] at ho
  obtain ⟨ho, rfl⟩ := ho
  refine ensures_drawFrom.2 ?_
  intro t ht _ _
  rw [ensures_onLedger]
  intro enrolled he
  rw [ensures_emit]
  intro ratio hr
  rw [via_list, ensures_listInsert (by exact h.keeper)]
  intro list hi
  rw [ensures_onLedger]
  intro ledger hl
  refine ensures_mint.2 fun coin hm => ensures_mint.2 fun coin' hm' => ensures_emit.2 ?_
  simp only [Checked.bind_eq_ok, Checked.pure_eq_ok] at hl
  obtain ⟨pool, hp', rfl⟩ := hl
  rw [require_eq_ok, Bool.not_eq_true'] at ha
  rw [require_eq_ok, bne_iff_ne] at hc hd
  refine ⟨ha, hc, ?_, ho, ⟨enrolled, he, pool, hp', rfl, ratio, hr, hi⟩, ht, ⟨coin, ?_, hm'⟩,
    d, hp, hk, rfl⟩
  · show w.ledger.incentive.debtCompensation < debt + w.ledger.incentive.debtCompensation
    omega
  · simpa using hm

/-! ## Liquidations -/

/-- A trove taken out of the world, and where its debt and collateral went. -/
structure Liquidated (w : World) (borrower liquidator : Address) (pending : Holding)
    (s : Split) (w' : World) : Prop where
  ledger : w.ledger.liquidate borrower pending s = .ok w'.ledger
  list : w.list.detach borrower = .ok w'.list
  pool : w.pool.takeOffset s.debtToOffset s.collateralToPool = .ok w'.pool
  escrow : w.escrow.setAside borrower s.surplus = .ok w'.escrow
  collateral : w.collateral.settleLiquidation liquidator s = .ok w'.collateral
  coin : w.coin.settleLiquidation w.pool.total liquidator s = .ok w'.coin
  rest : w' = { w with
    ledger := w'.ledger, list := w'.list, pool := w'.pool, escrow := w'.escrow,
    collateral := w'.collateral, coin := w'.coin }

theorem ensures_carryOut (h : w.Wired) {borrower liquidator : Address} {entire : Entire}
    {mode : Mode} {s : Split} :
    (carryOut .usual borrower liquidator entire mode s).Ensures w fun _ =>
      Liquidated w borrower liquidator entire.pending s := by
  simp only [carryOut, ensures_bind, ensures_onLedger, ensures_world, ensures_emit,
    ensures_retire, h.keeper, ensures_offsetDebt, h.pool, ensures_spreadOut,
    ensures_setSurplusAside, h.escrow, ensures_payCaller]
  intro l1 h1 l2 h2 list hlist l3 h3 t1 ht1 pool hpool coin hcoin l4 h4 l5 h5 t2 ht2 escrow
    hescrow l6 h6 l7 h7 t3 ht3 token htoken
  constructor
  · simp [Ledger.liquidate, Ledger.takeOut, *]
  · exact hlist
  · exact hpool
  · exact hescrow
  · simp [Token.settleLiquidation, *]
  · simp [Coin.settleLiquidation, *]
  · rfl

/-- A trove that may be liquidated at a price, and its split. -/
structure Due (w : World) (borrower : Address) (price : Nat) (entire : Entire) (s : Split) :
    Prop where
  active : w.ledger.isActive borrower = true
  position : w.ledger.entire borrower = .ok entire
  split : ∃ total, w.ledger.totalRatio price = .ok total ∧
    Liquidation.split? (Mode.ofTotal total) entire.debt entire.collateral price total
      w.pool.total w.ledger.incentive = .ok (some s)

theorem add_troves {t t' : Totals} {s : Split} (h : t.add s = .ok t') :
    t'.troves = t.troves + 1 := by
  simp only [Totals.add, Checked.bind_eq_ok, Checked.pure_eq_ok] at h
  obtain ⟨_, -, _, -, _, -, _, -, _, -, _, -, _, -, _, -, _, -, rfl⟩ := h
  rfl

/-- The liquidations of one call, one after the other, with the totals. -/
inductive Sweep (price : Nat) (liquidator : Address) :
    World → Totals → World → Totals → Prop where
  | done {w : World} {t : Totals} : Sweep price liquidator w t w t
  | next {w w₁ w' : World} {t t₁ t' : Totals} {borrower : Address} {entire : Entire}
      {s : Split} (due : Due w borrower price entire s)
      (out : Liquidated w borrower liquidator entire.pending s w₁)
      (tally : t.add s = .ok t₁) (rest : Sweep price liquidator w₁ t₁ w' t') :
      Sweep price liquidator w t w' t'

/-- What an attempt to liquidate a trove comes to. -/
def Attempted (price : Nat) (liquidator : Address) (w : World) (b : Address)
    (split? : Option Split) (w₁ : World) : Prop :=
  match split? with
  | none => w₁ = w
  | some s => ∃ entire, Due w b price entire s ∧ Liquidated w b liquidator entire.pending s w₁

theorem ensures_liquidateIfDue (h : w.Wired) {borrower liquidator : Address} {price : Nat} :
    (liquidateIfDue .usual borrower price liquidator).Ensures w
      (Attempted price liquidator w borrower) := by
  simp only [liquidateIfDue, ensures_bind, ensures_world, ensures_ite, liftM_eq_ofChecked,
    ensures_ofChecked, via_pool, ensures_pure]
  refine ⟨fun ha entire he total ht split? hs => ?_, fun _ => rfl⟩
  cases split? with
  | none => exact ensures_pure.2 rfl
  | some s =>
    exact ensures_bind.2 ((ensures_carryOut h).mono fun _ w' hl =>
      ensures_pure.2 ⟨entire, ⟨ha, he, total, ht, hs⟩, hl⟩)

theorem Liquidated.wired {w w' : World} {borrower liquidator : Address} {pending : Holding}
    {s : Split} (h : Liquidated w borrower liquidator pending s w') (hw : w.Wired) :
    w'.Wired := by
  rw [h.rest]
  exact ⟨(Ledger.liquidate_links h.ledger).trans hw.ledger,
    (TroveList.detach_keeper h.list).trans hw.keeper,
    (Stability.Pool.takeOffset_links h.pool).trans hw.pool,
    (Escrow.setAside_links h.escrow).trans hw.escrow⟩

theorem Sweep.wired {w w' : World} {price : Nat} {liquidator : Address} {t t' : Totals}
    (h : Sweep price liquidator w t w' t') (hw : w.Wired) : w'.Wired := by
  induction h with
  | done => exact hw
  | next _ out _ _ ih => exact ih (out.wired hw)

namespace Attempted

variable {w₁ w' : World} {price : Nat} {liquidator b : Address} {split? : Option Split}
  {t t₁ t' : Totals}

theorem wired (h : Attempted price liquidator w b split? w₁) (hw : w.Wired) : w₁.Wired := by
  cases split? with
  | none =>
    cases h
    exact hw
  | some s =>
    obtain ⟨entire, -, out⟩ := h
    exact out.wired hw

/-- An attempt and then the rest. -/
theorem sweep (h : Attempted price liquidator w b split? w₁) (tally : t.tally split? = .ok t₁)
    (rest : Sweep price liquidator w₁ t₁ w' t') : Sweep price liquidator w t w' t' := by
  cases split? with
  | none =>
    cases tally
    cases h
    exact rest
  | some s =>
    obtain ⟨entire, due, out⟩ := h
    exact .next due out tally rest

end Attempted

theorem ensures_liquidateEach (h : w.Wired) {liquidator : Address} {price : Nat}
    {borrowers : List Address} {t : Totals} :
    (liquidateEach .usual price liquidator borrowers t).Ensures w fun t' w' =>
      Sweep price liquidator w t w' t' := by
  induction borrowers generalizing w t with
  | nil => exact ensures_pure.2 .done
  | cons b bs ih =>
    simp only [liquidateEach, ensures_bind, liftM_eq_ofChecked, ensures_ofChecked]
    refine (ensures_liquidateIfDue h).mono fun split? w₁ attempt t₁ tally => ?_
    exact (ih (attempt.wired h)).mono fun _ _ rest => attempt.sweep tally rest

theorem ensures_liquidateFrom (h : w.Wired) {liquidator : Address} {price most : Nat}
    {place? : Option Address} {t : Totals} :
    (liquidateFrom .usual price liquidator most place? t).Ensures w fun t' w' =>
      Sweep price liquidator w t w' t' := by
  induction most generalizing w place? t with
  | zero => exact ensures_pure.2 .done
  | succ n ih =>
    cases place? with
    | none => exact ensures_pure.2 .done
    | some b =>
      simp only [liquidateFrom, via_list, ensures_bind, ensures_world, ensures_pure,
        liftM_eq_ofChecked, ensures_ofChecked, ensures_ite]
      refine fun ratio _ total _ => ⟨fun _ => .done, fun _ => ?_⟩
      refine (ensures_liquidateIfDue h).mono fun split? w₁ attempt t₁ tally => ?_
      exact (ih (attempt.wired h)).mono fun _ _ rest => attempt.sweep tally rest

/-! ## Liquidation calls -/

theorem ensures_conclude {liquidator : Address} {t : Totals} {Q : Totals → World → Prop} :
    (conclude liquidator t).Ensures w Q ↔ (t.troves ≠ 0 → Q t w) := by
  simp [conclude]

/-- The liquidations of one call, at the price the feed gives. -/
structure Cleared (w : World) (liquidator : Address) (t : Totals) (w' : World) : Prop where
  some : t.troves ≠ 0
  sweep : ∃ d, w.feed.decideAt w.round? w.quote? w.time = .ok d ∧
    Sweep (w.feed.follow d).lastGood liquidator { w with feed := w.feed.follow d } {} w' t

theorem Cleared.wired {w' : World} {liquidator : Address} {t : Totals}
    (h : Cleared w liquidator t w') (hw : w.Wired) : w'.Wired := by
  obtain ⟨d, -, hs⟩ := h.sweep
  exact hs.wired (hw.withFeed _)

theorem ensures_liquidateAll (h : w.Wired) {caller : Address} {borrowers : List Address} :
    (liquidateAll caller borrowers).Ensures w fun t => Cleared w caller t := by
  simp only [liquidateAll, ensures_bind, ensures_ledgerLinks h.ledger]
  refine ensures_priceFrom.2 ?_
  intro d hd
  refine (ensures_liquidateEach (h.withFeed _)).mono ?_
  intro t w' hs
  exact ensures_conclude.2 fun ht => ⟨ht, d, hd, hs⟩

theorem ensures_liquidateOne (h : w.Wired) {caller borrower : Address} :
    (liquidateOne caller borrower).Ensures w fun t => Cleared w caller t := by
  simp only [liquidateOne, liftM_eq_ofChecked, ensures_bind, ensures_world, ensures_ofChecked]
  exact fun _ _ => ensures_liquidateAll h

theorem ensures_liquidateRiskiest (h : w.Wired) {caller : Address} {most : Nat} :
    (liquidateRiskiest caller most).Ensures w fun t => Cleared w caller t := by
  simp only [liquidateRiskiest, liftM_eq_ofChecked, ensures_bind, ensures_ofChecked,
    ensures_ledgerLinks h.ledger, via_list]
  refine fun _ _ => ensures_priceFrom.2 fun d hd => ensures_world.2 (ensures_pure.2 ?_)
  refine (ensures_liquidateFrom (h.withFeed _)).mono ?_
  intro t w' hs
  exact ensures_conclude.2 fun ht => ⟨ht, d, hd, hs⟩

end Protocol

end Troves
