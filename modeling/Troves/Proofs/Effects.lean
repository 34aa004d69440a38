/-
# What the requests do to a wired world

Once every contract knows its collaborators, a request acts on each book
separately.  For each book there is one function that says how it changes
(`Token.payOut`, `Coin.command`, `Pool.takeOffset`, `Pool.provide`,
`Pool.withdraw`, `Ledger.spreadOver`, `Ledger.liquidate`).  For each action one
theorem says that it comes out as these functions do, in this order, and leaves
the other books alone; what it ensures is read off it.
-/
import Troves.Deployment
import Troves.Proofs.Outcomes

namespace Troves

/-! ## The usual links -/

/-- The contracts a wired ledger works with. -/
def Ledger.Links.usual : Ledger.Links where
  feed := Contract.feed.address
  list := Contract.list.address
  pool := Contract.stabilityPool.address
  escrow := Contract.escrow.address
  coin := Contract.coin.address
  collateral := Contract.collateralToken.address

/-- The contracts a wired stability pool works with. -/
def Stability.Links.usual : Stability.Links where
  manager := Contract.ledger.address
  coin := Contract.coin.address
  collateral := Contract.collateralToken.address

/-- The contracts a wired escrow works with. -/
def Escrow.Links.usual : Escrow.Links where
  manager := Contract.ledger.address
  collateral := Contract.collateralToken.address

/-- Every contract knows its collaborators. -/
structure World.Wired (w : World) : Prop where
  ledger : w.ledger.links? = some .usual
  keeper : w.list.keeper? = some Protocol.ledgerAddress
  pool : w.pool.links? = some .usual
  escrow : w.escrow.links? = some .usual

/-- Whatever the feed has come to, the contracts know each other. -/
theorem World.Wired.withFeed {w : World} (h : w.Wired) (feed : Price.Feed) :
    World.Wired { w with feed } :=
  ⟨h.ledger, h.keeper, h.pool, h.escrow⟩

/-- A wired list is kept by the ledger's ratios. -/
theorem World.liveRatio_eq {w : World} (h : w.list.keeper? = some Protocol.ledgerAddress) :
    w.liveRatio = w.ledger.nominalRatio := by
  funext owner
  simp only [liveRatio, h, ratioAt, Protocol.ledgerAddress, Contract.locate_address]
  rfl

/-! ## How the books change -/

/-- Moves an amount, if there is any to move. -/
def Token.payOut (t : Token) (source target : Address) (amount : Nat) : Checked Token :=
  if amount = 0 then return t else t.move source target amount

/-- Changes the stablecoin's books for a contract that it obeys. -/
def Coin.command (c : Coin) (caller : Address) (f : Token → Checked Token) : Checked Coin := do
  require (c.obeys caller) .callerNotTrusted
  return { c with token := ← f c.token }

namespace Stability.Pool

/-- Pays a gain out of the collateral held. -/
def payGain (p : Pool) (gain : Nat) : Checked Pool :=
  if gain = 0 then return p else do return { p with collateral := ← Amount.sub p.collateral gain }

/-- The number of depositors with this one among them. -/
def counted (p : Pool) (a : Address) : Checked Nat :=
  if (p.deposit a).amount = 0 then Counter.next p.depositors else return p.depositors

/-- Adds to a deposit and pays its gain. -/
def provide (p : Pool) (a : Address) (amount : Nat) : Checked Pool := do
  require (amount != 0) .zeroAmount
  let gain ← p.earned a
  let left ← p.remaining a
  let total ← Amount.add p.total amount
  let depositors ← p.counted a
  let deposit ← Amount.add left amount
  ({ p with total, depositors }.record a deposit).payGain gain

/-- Takes up to an amount out of a deposit and pays its gain. -/
def withdraw (p : Pool) (a : Address) (amount : Nat) : Checked Pool := do
  require ((p.deposit a).amount != 0) .noDeposit
  let gain ← p.earned a
  let left ← p.remaining a
  let total ← Amount.sub p.total (min amount left)
  let deposit := left - min amount left
  let depositors := if deposit = 0 then p.depositors - 1 else p.depositors
  ({ p with total, depositors }.record a deposit).payGain gain

/-- Takes an offset in; without debt or without deposits nothing happens. -/
def takeOffset (p : Pool) (debt coll : Nat) : Checked Pool :=
  if p.total = 0 ∨ debt = 0 then return p else do
    require (debt ≤ p.total) .offsetExceedsDeposits
    p.absorb debt coll

theorem absorb_links {p q : Pool} {debt coll : Nat} (h : p.absorb debt coll = .ok q) :
    q.links? = p.links? := by
  simp only [absorb, Checked.bind_eq_ok, Checked.pure_eq_ok] at h
  obtain ⟨-, -, -, -, -, -, -, -, -, -, -, -, rfl⟩ := h
  rfl

end Stability.Pool

/-- Burns what an offset cancels, given the deposits there were. -/
def Coin.burnOffset (c : Coin) (deposits debt : Nat) : Checked Coin :=
  if deposits = 0 ∨ debt = 0 then return c
  else c.command Protocol.poolAddress (·.burn Protocol.poolAddress debt)

namespace Ledger

/-- Redistributes an amount, if there is any to redistribute. -/
def spreadOver (l : Ledger) (amount : Holding) : Checked Ledger :=
  if amount.isZero then return l else do l.bookSpread amount (← l.spread? amount)

/-- Settles a borrower's pending rewards in the books. -/
def settle (l : Ledger) (borrower : Address) (s : Accrual.Settlement) :
    Checked Ledger :=
  let l := { l with marks := l.marks.set borrower s.mark }
  if s.applied.isZero then return l
  else do
    let l ← l.activate s.applied
    return { l with troves := l.troves.set borrower s.trove }

/-- Takes out of the active pool what an offset hands over. -/
def releaseOffset (l : Ledger) (s : Liquidation.Split) : Checked Ledger :=
  if s.debtToOffset = 0 then return l
  else l.release { collateral := s.collateralToPool, debt := s.debtToOffset }

/-- Takes an owner's surplus out of the active pool. -/
def releaseSurplus (l : Ledger) (amount : Nat) : Checked Ledger :=
  if amount = 0 then return l else l.release { collateral := amount }

/-- Takes a trove out of the books: its pending rewards leave the default
pool, its stake the total, and the trove is closed. -/
def takeOut (l : Ledger) (borrower : Address) (pending : Holding) : Checked Ledger := do
  let l ← l.activate pending
  let l ← l.dropStake borrower
  return l.close borrower .closedByLiquidation

/-- Everything a liquidation does to the ledger. -/
def liquidate (l : Ledger) (borrower : Address) (pending : Holding) (s : Liquidation.Split) :
    Checked Ledger := do
  let l ← l.takeOut borrower pending
  let l ← l.releaseOffset s
  let l ← l.spreadOver { collateral := s.collateralToSpread, debt := s.debtToSpread }
  let l ← l.releaseSurplus s.surplus
  let l ← l.rebase s.collateralCompensation
  l.release { collateral := s.collateralCompensation }

end Ledger

/-- The collateral that an offset hands over. -/
def Liquidation.Split.handedOver (s : Liquidation.Split) : Nat :=
  if s.debtToOffset = 0 then 0 else s.collateralToPool

/-- Everything a liquidation does to the books of the collateral token. -/
def Token.settleLiquidation (t : Token) (liquidator : Address) (s : Liquidation.Split) :
    Checked Token := do
  let t ← t.payOut Protocol.ledgerAddress Protocol.poolAddress s.handedOver
  let t ← t.payOut Protocol.ledgerAddress Protocol.escrowAddress s.surplus
  t.payOut Protocol.ledgerAddress liquidator s.collateralCompensation

/-- Everything a liquidation does to the stablecoin. -/
def Coin.settleLiquidation (c : Coin) (deposits : Nat) (liquidator : Address)
    (s : Liquidation.Split) : Checked Coin := do
  let c ← c.burnOffset deposits s.debtToOffset
  return { c with
    token := ← c.token.payOut Protocol.ledgerAddress liquidator s.debtCompensation }

/-- Books an owner's surplus, if there is any. -/
def Escrow.setAside (e : Escrow) (owner : Address) (amount : Nat) : Checked Escrow :=
  if amount = 0 then return e else e.book owner amount

namespace Protocol

open Troves.Action
open Liquidation (Split)

variable {w : World} {Q : Unit → World → Prop} {E : Fault → Prop}

/-! ## Collaborators and tokens -/

section Collaborators

variable {α : Type} {entry : String} {act : Action α}

@[simp] theorem via_list : via Ledger.Links.usual.list .list entry act = act :=
  via_address (c := .list)

@[simp] theorem via_pool : via Ledger.Links.usual.pool .stabilityPool entry act = act :=
  via_address (c := .stabilityPool)

@[simp] theorem via_escrow : via Ledger.Links.usual.escrow .escrow entry act = act :=
  via_address (c := .escrow)

@[simp] theorem via_coin : via Stability.Links.usual.coin .coin entry act = act :=
  via_address (c := .coin)

end Collaborators

theorem meets_ledgerLinks {links : Ledger.Links} (h : w.ledger.links? = some links)
    {Q : Ledger.Links → World → Prop} : ledgerLinks.Meets w Q E ↔ Q links w := by
  simp [ledgerLinks, h]

theorem ensures_ledgerLinks {links : Ledger.Links} (h : w.ledger.links? = some links)
    {Q : Ledger.Links → World → Prop} : ledgerLinks.Ensures w Q ↔ Q links w := by
  rw [ensures_iff_meets, meets_ledgerLinks h]

theorem meets_poolLinks {links : Stability.Links} (h : w.pool.links? = some links)
    {Q : Stability.Links → World → Prop} : poolLinks.Meets w Q E ↔ Q links w := by
  simp [poolLinks, h]

theorem ensures_poolLinks {links : Stability.Links} (h : w.pool.links? = some links)
    {Q : Stability.Links → World → Prop} : poolLinks.Ensures w Q ↔ Q links w := by
  rw [ensures_iff_meets, meets_poolLinks h]

theorem meets_command {caller : Address} {f : Token → Checked Token} :
    (do onlyProtocols caller; onCoin f : Action Unit).Meets w Q E ↔
      (w.coin.command caller f).Meets (fun coin => Q () { w with coin }) E := by
  simp only [onlyProtocols, Coin.command, liftM_eq_ofChecked, meets_bind, meets_world,
    meets_ofChecked, meets_onCoin, meets_require, Checked.meets_bind, Checked.meets_pure]

theorem ensures_command {caller : Address} {f : Token → Checked Token} :
    (do onlyProtocols caller; onCoin f : Action Unit).Ensures w Q ↔
      ∀ coin, w.coin.command caller f = .ok coin → Q () { w with coin } := by
  simp only [ensures_iff_meets, meets_command, Checked.meets_any]

theorem meets_transfer {caller target : Address} {amount : Nat} {Q : Bool → World → Prop} :
    (transfer Contract.collateralToken.address caller target amount).Meets w Q E ↔
      (w.collateral.move caller target amount).Meets
        (fun collateral => Q true { w with collateral }) E := by
  simp [transfer]

theorem meets_transferCoin {caller target : Address} {amount : Nat}
    {Q : Bool → World → Prop} :
    (transfer Contract.coin.address caller target amount).Meets w Q E ↔
      (w.coin.token.move caller target amount).Meets
        (fun token => Q true { w with coin := { w.coin with token } }) E := by
  simp [transfer]

theorem ensures_drawFrom {caller owner target : Address} {amount : Nat}
    {Q : Bool → World → Prop} :
    (drawFrom Contract.collateralToken.address caller owner target amount).Ensures w Q ↔
      ∀ collateral, w.collateral.draw caller owner target amount = .ok collateral →
        Q true { w with collateral } := by
  simp [drawFrom]

theorem ensures_mint {caller target : Address} {amount : Nat} :
    (mint Contract.coin.address caller target amount).Ensures w Q ↔
      ∀ coin, w.coin.command caller (·.mint target amount) = .ok coin →
        Q () { w with coin } := by
  simp only [mint, Contract.locate_address, liftM_eq_ofChecked, ensures_bind,
    ensures_ofChecked, Except.ok.injEq, forall_eq']
  exact ensures_command

theorem meets_pay {caller target : Address} {amount : Nat} :
    (pay Contract.collateralToken.address caller target amount).Meets w Q E ↔
      (w.collateral.move caller target amount).Meets
        (fun collateral => Q () { w with collateral }) E := by
  simp [pay, meets_transfer]

theorem ensures_pay {caller target : Address} {amount : Nat} :
    (pay Contract.collateralToken.address caller target amount).Ensures w Q ↔
      ∀ collateral, w.collateral.move caller target amount = .ok collateral →
        Q () { w with collateral } := by
  simp only [ensures_iff_meets, meets_pay, Checked.meets_any]

theorem meets_sendOut {target : Address} {amount : Nat} :
    (sendOut .usual target amount).Meets w Q E ↔
      (w.collateral.payOut ledgerAddress target amount).Meets
        (fun collateral => Q () { w with collateral }) E := by
  by_cases h : amount = 0
  · simp [sendOut, Token.payOut, h]
  · simp only [sendOut, Token.payOut, h, Ledger.Links.usual, ne_eq, not_false_eq_true, if_true,
      if_false]
    exact meets_pay

/-! ## Prices and the list -/

theorem meets_currentPrice {Q : Nat → World → Prop} :
    currentPrice.Meets w Q E ↔
      (w.feed.decideAt w.round? w.quote? w.time).Meets
        (fun d => Q (w.feed.follow d).lastGood { w with feed := w.feed.follow d }) E := by
  simp only [currentPrice, liftM_eq_ofChecked, meets_bind, meets_world, meets_ofChecked,
    meets_update]
  -- what is reported depends on the decision, what is left behind does not
  cases hd : w.feed.decideAt w.round? w.quote? w.time with
  | error e => rfl
  | ok d => cases hp : d.choice.price? <;> simp [hp]

theorem ensures_currentPrice {Q : Nat → World → Prop} :
    currentPrice.Ensures w Q ↔
      ∀ d, w.feed.decideAt w.round? w.quote? w.time = .ok d →
        Q (w.feed.follow d).lastGood { w with feed := w.feed.follow d } := by
  simp only [ensures_iff_meets, meets_currentPrice, Checked.meets_any]

theorem meets_priceFrom {Q : Nat → World → Prop} :
    (priceFrom Contract.feed.address).Meets w Q E ↔
      (w.feed.decideAt w.round? w.quote? w.time).Meets
        (fun d => Q (w.feed.follow d).lastGood { w with feed := w.feed.follow d }) E := by
  rw [priceFrom, via_address]
  exact meets_currentPrice

theorem ensures_priceFrom {Q : Nat → World → Prop} :
    (priceFrom Contract.feed.address).Ensures w Q ↔
      ∀ d, w.feed.decideAt w.round? w.quote? w.time = .ok d →
        Q (w.feed.follow d).lastGood { w with feed := w.feed.follow d } := by
  rw [priceFrom, via_address]
  exact ensures_currentPrice

theorem ensures_listInsert (hk : w.list.keeper? = some ledgerAddress) {id : Address}
    {ratio : Nat} {hint : TroveList.Slot} :
    (listInsert ledgerAddress id ratio hint).Ensures w Q ↔
      ∀ list, w.list.insert w.ledger.nominalRatio id ratio hint = .ok list →
        Q () { w with list } := by
  simp [listInsert, onlyKeeper, hk, World.liveRatio_eq hk]

theorem meets_listRemove (hk : w.list.keeper? = some ledgerAddress) {id : Address} :
    (listRemove ledgerAddress id).Meets w Q E ↔
      (w.list.detach id).Meets (fun list => Q () { w with list }) E := by
  simp [listRemove, onlyKeeper, hk]

theorem meets_listReposition (hk : w.list.keeper? = some ledgerAddress) {id : Address}
    {ratio : Nat} {hint : TroveList.Slot} :
    (listReposition ledgerAddress id ratio hint).Meets w Q E ↔
      (w.list.reposition w.ledger.nominalRatio id ratio hint).Meets
        (fun list => Q () { w with list }) E := by
  simp [listReposition, onlyKeeper, hk, World.liveRatio_eq hk]

/-! ## Offsets, redistributions and surpluses -/

theorem meets_offset (hp : w.pool.links? = some .usual) {debt coll : Nat} :
    (offset ledgerAddress debt coll).Meets w Q E ↔
      (w.pool.takeOffset debt coll).Meets (fun pool =>
        (w.coin.burnOffset w.pool.total debt).Meets (fun coin =>
          Q () { w with pool, coin }) E) E := by
  have hm : (w.pool.links?.map (·.manager) == some ledgerAddress) = true := by
    rw [hp]
    decide
  rw [offset]
  simp only [liftM_eq_ofChecked, meets_bind, meets_world, meets_ofChecked, meets_require, hm,
    if_true]
  by_cases h : w.pool.total = 0 ∨ debt = 0
  · have h' : ¬ (w.pool.total ≠ 0 ∧ debt ≠ 0) := by grind
    simp [Stability.Pool.takeOffset, Coin.burnOffset, h, h']
  · have h' : w.pool.total ≠ 0 ∧ debt ≠ 0 := by grind
    have hb {w : World} {Q : Unit → World → Prop} :
        (burnCoin poolAddress poolAddress debt).Meets w Q E ↔
          (w.coin.command poolAddress (·.burn poolAddress debt)).Meets
            (fun coin => Q () { w with coin }) E := meets_command
    simp only [if_pos h', Stability.Pool.takeOffset, Coin.burnOffset, if_neg h, meets_bind,
      meets_ofChecked, meets_require, meets_onPool, meets_world, meets_emitAll, meets_emit,
      Checked.meets_bind]
    split
    · cases ha : w.pool.absorb debt coll with
      | error e => rfl
      | ok pool =>
        -- the links are read again after the pool has taken the debt in
        have hl : pool.links? = some .usual := (Stability.Pool.absorb_links ha).trans hp
        simp only [Checked.meets_ok, meets_poolLinks (w := { w with pool }) hl, via_coin, hb]
    · rfl

theorem meets_creditSurplus (he : w.escrow.links? = some .usual) {owner : Address}
    {amount : Nat} :
    (creditSurplus ledgerAddress owner amount).Meets w Q E ↔
      (w.escrow.book owner amount).Meets (fun escrow => Q () { w with escrow }) E := by
  simp [creditSurplus, he, Escrow.Links.usual, ledgerAddress]

theorem meets_spreadOut {amount : Holding} :
    (spreadOut amount).Meets w Q E ↔
      (w.ledger.spreadOver amount).Meets (fun ledger => Q () { w with ledger }) E := by
  by_cases h : amount.isZero
  · simp [spreadOut, Ledger.spreadOver, h]
  · simp only [spreadOut, Ledger.spreadOver, h, Bool.not_false, if_true, Bool.false_eq_true,
      if_false, liftM_eq_ofChecked, meets_bind, meets_world, meets_ofChecked, meets_onLedger,
      Checked.meets_bind]
    cases w.ledger.spread? amount with
    | error e => rfl
    | ok spread? => cases spread? <;> simp

theorem ensures_spreadOut {amount : Holding} :
    (spreadOut amount).Ensures w Q ↔
      ∀ ledger, w.ledger.spreadOver amount = .ok ledger → Q () { w with ledger } := by
  simp only [ensures_iff_meets, meets_spreadOut, Checked.meets_any]

theorem meets_offsetDebt (hp : w.pool.links? = some .usual) {s : Split} :
    (offsetDebt .usual s).Meets w Q E ↔
      (w.ledger.releaseOffset s).Meets (fun ledger =>
        (w.collateral.payOut ledgerAddress poolAddress s.handedOver).Meets (fun collateral =>
          (w.pool.takeOffset s.debtToOffset s.collateralToPool).Meets (fun pool =>
            (w.coin.burnOffset w.pool.total s.debtToOffset).Meets (fun coin =>
              Q () { w with ledger, collateral, pool, coin }) E) E) E) E := by
  by_cases h : s.debtToOffset = 0
  · simp [offsetDebt, h, Ledger.releaseOffset, Token.payOut, Stability.Pool.takeOffset,
      Coin.burnOffset, Split.handedOver]
  · simp only [offsetDebt, ne_eq, h, not_false_eq_true, if_true, if_false,
      Ledger.releaseOffset, Split.handedOver, via_pool, meets_bind, meets_onLedger,
      meets_sendOut, meets_offset, hp]
    exact Iff.rfl

theorem ensures_offsetDebt (hp : w.pool.links? = some .usual) {s : Split} :
    (offsetDebt .usual s).Ensures w Q ↔
      ∀ ledger, w.ledger.releaseOffset s = .ok ledger →
      ∀ collateral, w.collateral.payOut ledgerAddress poolAddress s.handedOver = .ok collateral →
      ∀ pool, w.pool.takeOffset s.debtToOffset s.collateralToPool = .ok pool →
      ∀ coin, w.coin.burnOffset w.pool.total s.debtToOffset = .ok coin →
        Q () { w with ledger, collateral, pool, coin } := by
  simp only [ensures_iff_meets, meets_offsetDebt hp, Checked.meets_any]

theorem meets_setSurplusAside (he : w.escrow.links? = some .usual) {owner : Address}
    {amount : Nat} :
    (setSurplusAside .usual owner amount).Meets w Q E ↔
      (w.ledger.releaseSurplus amount).Meets (fun ledger =>
        (w.collateral.payOut ledgerAddress escrowAddress amount).Meets (fun collateral =>
          (w.escrow.setAside owner amount).Meets (fun escrow =>
            Q () { w with ledger, collateral, escrow }) E) E) E := by
  by_cases h : amount = 0
  · simp [setSurplusAside, h, Ledger.releaseSurplus, Token.payOut, Escrow.setAside]
  · simp only [setSurplusAside, ne_eq, h, not_false_eq_true, if_true, if_false,
      Ledger.releaseSurplus, Escrow.setAside, via_escrow, meets_bind, meets_onLedger,
      meets_sendOut, meets_creditSurplus, he]
    exact Iff.rfl

theorem ensures_setSurplusAside (he : w.escrow.links? = some .usual) {owner : Address}
    {amount : Nat} :
    (setSurplusAside .usual owner amount).Ensures w Q ↔
      ∀ ledger, w.ledger.releaseSurplus amount = .ok ledger →
      ∀ collateral, w.collateral.payOut ledgerAddress escrowAddress amount = .ok collateral →
      ∀ escrow, w.escrow.setAside owner amount = .ok escrow →
        Q () { w with ledger, collateral, escrow } := by
  simp only [ensures_iff_meets, meets_setSurplusAside he, Checked.meets_any]

theorem meets_payCaller {liquidator : Address} {s : Split} :
    (payCaller .usual liquidator s).Meets w Q E ↔
      (w.ledger.release { collateral := s.collateralCompensation }).Meets (fun ledger =>
        (w.collateral.payOut ledgerAddress liquidator s.collateralCompensation).Meets
          (fun collateral =>
            (w.coin.token.payOut ledgerAddress liquidator s.debtCompensation).Meets (fun token =>
              Q () { w with ledger, collateral, coin := { w.coin with token } }) E) E) E := by
  by_cases h : s.debtCompensation = 0
  · simp [payCaller, h, Token.payOut, meets_sendOut]
  · have ht {amount : Nat} {Q : Bool → World → Prop} {w : World} :
        (transfer Ledger.Links.usual.coin ledgerAddress liquidator amount).Meets w Q E ↔ _ :=
      meets_transferCoin
    simp [payCaller, h, meets_sendOut, ht, Token.payOut]

theorem ensures_payCaller {liquidator : Address} {s : Split} :
    (payCaller .usual liquidator s).Ensures w Q ↔
      ∀ ledger, w.ledger.release { collateral := s.collateralCompensation } = .ok ledger →
      ∀ collateral,
        w.collateral.payOut ledgerAddress liquidator s.collateralCompensation = .ok collateral →
      ∀ token, w.coin.token.payOut ledgerAddress liquidator s.debtCompensation = .ok token →
        Q () { w with ledger, collateral, coin := { w.coin with token } } := by
  simp only [ensures_iff_meets, meets_payCaller, Checked.meets_any]

theorem meets_retire (hk : w.list.keeper? = some ledgerAddress) {borrower : Address} :
    (retire .usual borrower).Meets w Q E ↔
      (w.list.detach borrower).Meets (fun list =>
        Q () { w with ledger := w.ledger.close borrower .closedByLiquidation, list }) E := by
  simp [retire, meets_listRemove, hk]

theorem ensures_retire (hk : w.list.keeper? = some ledgerAddress) {borrower : Address} :
    (retire .usual borrower).Ensures w Q ↔
      ∀ list, w.list.detach borrower = .ok list →
        Q () { w with ledger := w.ledger.close borrower .closedByLiquidation, list } := by
  simp only [ensures_iff_meets, meets_retire hk, Checked.meets_any]

end Protocol

end Troves
