/-
# Who holds the collateral

The ledger, the stability pool and the escrow each have the collateral that
their books say, and besides only what somebody sent them directly.  Every
movement of tokens comes with one in the books of whoever gives and whoever
takes.  For each owner, what was booked as a surplus was either paid to the
owner or can still be claimed.
-/
import Troves.Proofs.ActivePool
import Troves.Proofs.Closings
import Troves.Proofs.Tokens
import Troves.Proofs.Worth

namespace Troves

open Protocol (poolAddress ledgerAddress escrowAddress Liquidated Due Sweep Swept)
open Liquidation (Split Totals)

/-! ## What turns send and pay -/

/-- What a request sends directly to an address. -/
def Request.sentTo (a : Address) : Request → Nat
  | .collateral r => r.sentTo a
  | .mintCollateral target amount => if target = a then amount else 0
  | _ => 0

/-- Whether a request is for the collateral token itself. -/
def Request.isDirect : Request → Prop
  | .collateral _ | .mintCollateral _ _ => True
  | _ => False

namespace Turn

/-- The collateral that a turn sends directly to an address, not through any
of the protocol's contracts. -/
def sent (t : Turn) (w : World) (a : Address) : Nat :=
  match t with
  | call caller request =>
    match request.perform caller w with
    | .ok _ => request.sentTo a
    | .error _ => 0
  | wait _ => 0

/-- What the escrow pays an owner in a turn. -/
def claimed (t : Turn) (w : World) (a : Address) : Nat :=
  match t with
  | call _ (.claimSurplus owner) =>
    if owner = a then (t.take w).1.collateral.balance a - w.collateral.balance a else 0
  | _ => 0

theorem claimed_of_idle {t : Turn} {w : World} {a : Address} (h : (t.take w).1 = w) :
    t.claimed w a = 0 := by
  unfold claimed
  split
  · rw [h, Nat.sub_self, ite_self]
  · rfl

theorem claimed_of_ne {caller a : Address} {r : Request} {w : World}
    (h : ∀ owner, r ≠ .claimSurplus owner) : (call caller r).claimed w a = 0 := by
  unfold claimed
  split
  · next he => exact absurd (Turn.call.inj he).2 (h _)
  · rfl

end Turn

/-- What the turns of a run come to, each in the world in which it is taken. -/
def World.totalOf (f : Turn → World → Nat) (w : World) : List Turn → Nat
  | [] => 0
  | t :: ts => f t w + totalOf f (t.take w).1 ts

/-! ## The books -/

/-- The collateral that a ledger has on its books. -/
def Ledger.held (l : Ledger) : Nat := l.activePool.collateral + l.defaultPool.collateral

/-- What is opened goes on the books. -/
theorem Protocol.Opened.held {w w' : World} {a : Address} {holding : Holding}
    {hint : TroveList.Slot} (h : Protocol.Opened w a holding hint w') :
    w'.ledger.held = w.ledger.held + holding.collateral := by
  obtain ⟨ha, hd⟩ := h.pools .collateral
  simp only [Holding.part] at ha
  rw [Ledger.held, Ledger.held, ha, hd]
  omega

/-- What can be claimed adds up. -/
def Escrow.Sound (e : Escrow) : Prop := (e.balances.sum fun _ n => n) = e.total

/-- Troves and surpluses belong to nobody but those outside the contracts. -/
structure World.Private (w : World) : Prop where
  troves : ∀ a, w.ledger.isActive a = true → Contract.find? a = none
  surpluses : ∀ a, w.escrow.balance a ≠ 0 → Contract.find? a = none

/-- The collateral is where the books say, except for what was sent. -/
structure World.Custody (w : World) (sent : Address → Nat) : Prop where
  owners : w.Private
  ledger : w.collateral.Holds ledgerAddress (w.ledger.held + sent ledgerAddress)
  pool : w.collateral.Holds poolAddress (w.pool.collateral + sent poolAddress)
  escrow : w.collateral.Holds escrowAddress (w.escrow.total + sent escrowAddress)
  sound : w.escrow.Sound

namespace Escrow

variable {e e' : Escrow} {a b : Address} {amount : Nat}

theorem balance_set (e : Escrow) (a b : Address) (n : Nat) :
    (e.balances.set a n).getD b 0 = if a = b then n else e.balance b :=
  Table.getD_set e.balances a b n 0

theorem setAside_ok (h : e.setAside a amount = .ok e') :
    e'.total = e.total + amount ∧ (e.Sound → e'.Sound) ∧
      ∀ b, e'.balance b = e.balance b + if a = b then amount else 0 := by
  rw [setAside] at h
  split at h
  · next hz =>
    cases h
    subst hz
    exact ⟨rfl, id, fun b => by simp⟩
  · simp only [book, Checked.bind_eq_ok, Checked.pure_eq_ok, Amount.add_eq_ok] at h
    obtain ⟨_, ⟨-, rfl⟩, _, ⟨-, rfl⟩, rfl⟩ := h
    refine ⟨rfl, fun hs => ?_, fun b => ?_⟩
    · have hsum := e.balances.sum_set a (e.balance a + amount) fun _ n => n
      simp only [Option.map_id'] at hsum
      have hold : (e.balances.get? a).getD 0 = e.balance a := rfl
      rw [Sound] at hs ⊢
      dsimp only
      omega
    · rw [balance, balance_set]
      split
      · next hab => rw [hab]
      · rfl

theorem release_ok (h : e.release a = .ok (e', amount)) :
    amount = e.balance a ∧ amount ≠ 0 ∧ e.total = e'.total + amount ∧ (e.Sound → e'.Sound) ∧
      ∀ b, e'.balance b = if a = b then 0 else e.balance b := by
  simp only [release, Checked.bind_eq_ok, Checked.pure_eq_ok, Amount.sub_eq_ok, require_eq_ok,
    bne_iff_ne, Prod.mk.injEq] at h
  obtain ⟨_, hne, _, ⟨hle, rfl⟩, rfl, rfl⟩ := h
  refine ⟨rfl, hne, (Nat.sub_add_cancel hle).symm, fun hs => ?_, fun b => balance_set e a b 0⟩
  have hsum := e.balances.sum_set a 0 fun _ n => n
  simp only [Option.map_id'] at hsum
  have hold : (e.balances.get? a).getD 0 = e.balance a := rfl
  rw [Sound] at hs ⊢
  dsimp only
  omega

end Escrow

/-- The pool gives up as many deposits as it cancels debt, and books the
collateral that it is handed. -/
theorem Stability.Pool.takeOffset_books {p q : Pool} {s : Split}
    (hd : s.debtToOffset ≤ p.total)
    (h : p.takeOffset s.debtToOffset s.collateralToPool = .ok q) :
    p.total = q.total + s.debtToOffset ∧ q.collateral = p.collateral + s.handedOver := by
  rw [takeOffset] at h
  rw [Split.handedOver]
  split at h
  · next hz =>
    cases h
    have hz : s.debtToOffset = 0 := by omega
    rw [if_pos hz, hz]
    exact ⟨rfl, rfl⟩
  · next hz =>
    simp only [Checked.bind_eq_ok] at h
    obtain ⟨_, -, h⟩ := h
    obtain ⟨_, r, -, ha⟩ := absorb_ok h
    rw [if_neg (fun hn => hz (.inr hn))]
    exact ⟨ha.total, ha.collateral⟩

namespace World

variable {w w' : World} {sent : Address → Nat}

/-! ## Liquidations -/

theorem Private.liquidated {b liquidator : Address} {price : Nat} {e : Entire} {s : Split}
    (hw : w.Private) (due : Due w b price e s) (h : Liquidated w b liquidator e.pending s w') :
    w'.Private := by
  obtain ⟨l₁, ht, htroves, -⟩ := Ledger.liquidate_records h.ledger
  have ht := Ledger.takeOut_ok ht
  obtain ⟨-, -, hbal⟩ := Escrow.setAside_ok h.escrow
  refine ⟨fun a ha => ?_, fun a ha => ?_⟩
  · have ha' : l₁.isActive a = true := by
      rw [← ha]
      simp only [Ledger.isActive, Ledger.trove, htroves]
    rw [ht.isActive] at ha'
    exact hw.troves a (by by_cases hab : a = b <;> simp_all)
  · rw [hbal a] at ha
    by_cases hb : b = a
    · exact hb ▸ hw.troves b due.active
    · rw [if_neg hb, Nat.add_zero] at ha
      exact hw.surpluses a ha

/-- The ledger hands out what it takes off its books, and the pool and the
escrow take it on theirs. -/
theorem Custody.liquidated {b liquidator : Address} {price : Nat} {e : Entire} {s : Split}
    (hw : w.Custody sent) (outside : Contract.find? liquidator = none)
    (due : Due w b price e s) (h : Liquidated w b liquidator e.pending s w') :
    w'.Custody sent := by
  have hcoll := h.collateral
  simp only [Token.settleLiquidation, Checked.bind_eq_ok] at hcoll
  obtain ⟨t₁, h₁, t₂, h₂, h₃⟩ := hcoll
  have h₁ := Token.payOut_passed h₁
  have h₂ := Token.payOut_passed h₂
  have h₃ := Token.payOut_passed h₃
  have hl := Request.ne_contract outside .ledger
  have hp := Request.ne_contract outside .stabilityPool
  have he := Request.ne_contract outside .escrow
  have hheld : w.ledger.held =
      w'.ledger.held + s.collateralCompensation + s.surplus + s.handedOver := by
    obtain ⟨ha, hd⟩ := Ledger.liquidate_pools h.ledger .collateral
    have hout : s.outgoing.part .collateral =
        s.handedOver + s.surplus + s.collateralCompensation := rfl
    simp only [Holding.part] at ha hd hout
    simp only [Ledger.held]
    omega
  obtain ⟨htotal, hsound, -⟩ := Escrow.setAside_ok h.escrow
  refine ⟨hw.owners.liquidated due h, ?_, ?_, ?_, hsound hw.sound⟩
  · have hk : w.collateral.Holds ledgerAddress (w'.ledger.held + sent ledgerAddress +
        s.collateralCompensation + s.surplus + s.handedOver) := by
      have hk := hw.ledger
      rw [hheld] at hk
      convert hk using 1
      omega
    exact ((hk.loses h₁ (by decide)).loses h₂ (by decide)).loses h₃ hl.symm
  · have hk := ((hw.pool.gains h₁ (by decide)).passed h₂ (by decide) (by decide)).passed h₃
      (by decide) hp.symm
    convert hk using 1
    have := (Stability.Pool.takeOffset_books due.exact.covered h.pool).2
    omega
  · have hk := ((hw.escrow.passed h₁ (by decide) (by decide)).gains h₂ (by decide)).passed h₃
      (by decide) he.symm
    convert hk using 1
    omega

theorem Custody.sweep {price : Nat} {liquidator : Address} {t t' : Totals}
    (hw : w.Custody sent) (outside : Contract.find? liquidator = none)
    (h : Sweep price liquidator w t w' t') : w'.Custody sent := by
  induction h with
  | done => exact hw
  | next due out _ _ ih => exact ih (hw.liquidated outside due out)

/-! ## Turns -/

/-- A visitor of the pool is paid what the pool takes off its books. -/
theorem Custody.visited {a : Address} {gain gain' left amount : Nat} {token : Token}
    {pool : Stability.Pool} {coin : Coin} (hw : w.Custody sent)
    (outside : Contract.find? a = none) (hv : w.pool.Visited a gain left amount pool)
    (hg : w.pool.earned a = .ok gain')
    (hp : w.collateral.payOut poolAddress a gain' = .ok token) :
    Custody { w with pool, coin, collateral := token } sent := by
  have hsame : gain' = gain := Except.ok.inj (hg.symm.trans hv.paid)
  subst hsame
  have hp := Token.payOut_passed hp
  have hl := Request.ne_contract outside .ledger
  have hpool := Request.ne_contract outside .stabilityPool
  have he := Request.ne_contract outside .escrow
  refine ⟨⟨hw.owners.troves, hw.owners.surpluses⟩, hw.ledger.passed hp (by decide) hl.symm, ?_,
    hw.escrow.passed hp (by decide) he.symm, hw.sound⟩
  have hk : w.collateral.Holds poolAddress (pool.collateral + sent poolAddress + gain') := by
    have hk := hw.pool
    rw [hv.collateral] at hk
    convert hk using 1
    omega
  exact hk.loses hp hpool.symm

/-- A claim takes off the escrow's books what the owner is paid, and the owner
is nobody who keeps books. -/
theorem Custody.claimed {owner : Address} (hw : w.Custody sent)
    (h : Protocol.Claimed w owner w') : w'.Custody sent := by
  obtain ⟨amount, hr, hm⟩ := h.books
  obtain ⟨ham, hne, htotal, hsound, hbal⟩ := Escrow.release_ok hr
  have outside := hw.owners.surpluses owner (ham ▸ hne)
  have hm := (Token.move_ok hm).passed
  have hl := Request.ne_contract outside .ledger
  have hp := Request.ne_contract outside .stabilityPool
  have he := Request.ne_contract outside .escrow
  rw [h.rest]
  refine ⟨⟨hw.owners.troves, fun a ha => ?_⟩, hw.ledger.passed hm (by decide) hl.symm,
    hw.pool.passed hm (by decide) hp.symm, ?_, hsound hw.sound⟩
  · dsimp only at ha
    rw [hbal a] at ha
    by_cases hoa : owner = a
    · exact hoa ▸ outside
    · exact hw.owners.surpluses a (by rwa [if_neg hoa] at ha)
  · have hk : w.collateral.Holds escrowAddress
        (w'.escrow.total + sent escrowAddress + amount) := by
      have hk := hw.escrow
      rw [htotal] at hk
      convert hk using 1
      omega
    exact hk.loses hm he.symm

/-- Whoever opens a trove hands in the collateral that goes on the books. -/
theorem Custody.opened {a : Address} {holding : Holding} {hint : TroveList.Slot}
    (hw : w.Custody sent) (outside : Contract.find? a = none)
    (h : Protocol.Opened w a holding hint w') : w'.Custody sent := by
  obtain ⟨l, he, pool, -, hl, -⟩ := h.enrolled
  obtain ⟨d, -, -, hr⟩ := h.rest
  have he := Ledger.enroll_ok he
  have hheld := h.held
  obtain ⟨-, hd⟩ := Token.draw_ok h.collateral
  have hne (c : Contract) : a ≠ c.address := Request.ne_contract outside c
  have hledger := (hw.ledger.approve (hne .ledger)).gains hd (hne .ledger).symm
  have hpool := (hw.pool.approve (hne .stabilityPool)).passed hd (hne .stabilityPool).symm
    (by decide)
  have hescrow := (hw.escrow.approve (hne .escrow)).passed hd (hne .escrow).symm (by decide)
  have hactive (b : Address) : w'.ledger.isActive b = l.isActive b := by
    rw [hl]
    rfl
  have hpoolEq : w'.pool = w.pool := by rw [hr]
  have hescrowEq : w'.escrow = w.escrow := by rw [hr]
  refine ⟨⟨fun b hb => ?_, fun b hb => ?_⟩, ?_, ?_, ?_, ?_⟩
  · rw [hactive, he.isActive] at hb
    by_cases hba : b = a
    · exact hba ▸ outside
    · exact hw.owners.troves b (by rwa [if_neg hba] at hb)
  · rw [hescrowEq] at hb
    exact hw.owners.surpluses b hb
  · rw [hheld]
    convert hledger using 1
    omega
  · rw [hpoolEq]
    exact hpool
  · rw [hescrowEq]
    exact hescrow
  · rw [hescrowEq]
    exact hw.sound

theorem Custody.settled {b : Address} {s : Accrual.Settlement} (hw : w.Custody sent)
    (h : Protocol.Settled w b s w') : w'.Custody sent := by
  have hl := h.booked
  have hheld : w'.ledger.held = w.ledger.held := by
    have ha := hl.activePool .collateral
    obtain ⟨hle, hd⟩ := Holding.part_sub hl.defaultPool .collateral
    simp only [Holding.part] at ha hle hd
    simp only [Ledger.held]
    omega
  have hledger := hw.ledger
  rw [← hheld] at hledger
  rw [h.rest]
  exact ⟨⟨fun a ha => hw.owners.troves a (by rwa [← h.isActive a]), hw.owners.surpluses⟩, hledger,
    hw.pool, hw.escrow, hw.sound⟩

/-- No turn but a direct request to the token parts the collateral from the
books. -/
theorem Custody.step {caller : Address} {r : Request} {k : Nat} (hw : w.Custody sent)
    (outside : Contract.find? caller = none) (direct : ¬ r.isDirect)
    (h : Step w (.call caller r) k w') : w'.Custody sent := by
  cases h with
  | collateral => exact absurd trivial direct
  | faucet => exact absurd trivial direct
  | provide h =>
    obtain ⟨gain, left, hv⟩ := Stability.Pool.provide_ok h.pool
    obtain ⟨gain', hg, hp⟩ := h.collateral
    rw [h.rest]
    exact hw.visited outside hv hg hp
  | withdraw h =>
    obtain ⟨gain, left, hv⟩ := Stability.Pool.withdraw_ok h.pool
    obtain ⟨gain', hg, hp⟩ := h.collateral
    rw [h.rest]
    exact hw.visited outside hv hg hp
  | claim h => exact hw.claimed h
  | borrow h => exact hw.opened outside h
  | settle h => exact hw.settled h
  | liquidate _ h =>
    obtain ⟨d, -, hs⟩ := h.sweep
    refine sweep (w := { w with feed := w.feed.follow d }) ?_ outside hs
    exact ⟨⟨hw.owners.troves, hw.owners.surpluses⟩, hw.ledger, hw.pool, hw.escrow, hw.sound⟩
  | _ => exact ⟨⟨hw.owners.troves, hw.owners.surpluses⟩, hw.ledger, hw.pool, hw.escrow, hw.sound⟩

/-- A change to the token that adds to what the contracts have. -/
theorem Custody.direct {token : Token} {more : Address → Nat} (hw : w.Custody sent)
    (h : ∀ c : Contract, ∀ n, w.collateral.Holds c.address n →
      token.Holds c.address (n + more c.address)) :
    Custody { w with collateral := token } fun a => sent a + more a := by
  refine ⟨⟨hw.owners.troves, hw.owners.surpluses⟩, ?_, ?_, ?_, hw.sound⟩
  · rw [← Nat.add_assoc]
    exact h .ledger _ hw.ledger
  · rw [← Nat.add_assoc]
    exact h .stabilityPool _ hw.pool
  · rw [← Nat.add_assoc]
    exact h .escrow _ hw.escrow

theorem Custody.take {t : Turn} (hw : w.Custody sent) (wired : w.Wired) (outside : t.outside) :
    (t.take w).1.Custody fun a => sent a + t.sent w a := by
  cases t with
  | wait milliseconds =>
    obtain ⟨time, h⟩ := Turn.take_wait (w := w)
    rw [h]
    exact ⟨⟨hw.owners.troves, hw.owners.surpluses⟩, hw.ledger, hw.pool, hw.escrow, hw.sound⟩
  | call caller r =>
    cases h : r.perform caller w with
    | error e =>
      simp only [Turn.take, Turn.sent, h]
      exact hw
    | ok o =>
      simp only [Turn.take, Turn.sent, h]
      have hne (c : Contract) : caller ≠ c.address := Request.ne_contract outside c
      cases r with
      | collateral q =>
        have hc : ((Request.collateral q).perform caller).Ensures w fun _ w' =>
            w'.Custody fun a => sent a + q.sentTo a := by
          simp only [Request.perform, Action.ensures_bind, Protocol.ensures_onCollateral,
            Action.ensures_pure]
          exact fun token ht => hw.direct fun c n hn => hn.request (hne c) ht
        exact hc o h
      | mintCollateral target n =>
        have hc : ((Request.mintCollateral target n).perform caller).Ensures w fun _ w' =>
            w'.Custody fun a => sent a + if target = a then n else 0 := by
          simp only [Request.perform, Request.ensures_silent, Protocol.ensures_onCollateral]
          exact fun token ht => hw.direct fun c m hm => hm.mint ht
        exact hc o h
      | _ => exact hw.step outside id (Request.ensures_perform wired outside _ o h)

/-! ## Surpluses -/

/-- What a sweep closes is booked for its owners. -/
theorem swept_surplus {price : Nat} {liquidator : Address} {cs : List Closing}
    (h : Swept price liquidator w cs w') (a : Address) :
    w'.escrow.balance a = w.escrow.balance a + Closing.surplusOf a cs := by
  induction h with
  | done => rfl
  | next _ out _ ih =>
    obtain ⟨-, -, hbal⟩ := Escrow.setAside_ok out.escrow
    rw [ih, hbal a, Closing.surplusOf, Nat.add_assoc]

/-- What the escrow takes off its books in a claim reaches the owner. -/
theorem Custody.claimed_balance {owner : Address} (hw : w.Custody sent)
    (h : Protocol.Claimed w owner w') (a : Address) :
    w'.escrow.balance a +
        (if owner = a then w'.collateral.balance a - w.collateral.balance a else 0) =
      w.escrow.balance a := by
  obtain ⟨amount, hr, hm⟩ := h.books
  obtain ⟨ham, hne, -, -, hbal⟩ := Escrow.release_ok hr
  have he := Request.ne_contract (hw.owners.surpluses owner (ham ▸ hne)) .escrow
  have hpaid := (Token.move_ok hm).balance owner
  rw [if_neg (show escrowAddress ≠ owner from he.symm), if_pos rfl, Nat.add_zero] at hpaid
  rw [hbal a]
  by_cases hoa : owner = a
  · subst hoa
    rw [if_pos rfl, if_pos rfl, hpaid]
    omega
  · rw [if_neg hoa, if_neg hoa]
    rfl

theorem escrow_of_step {caller : Address} {r : Request} {k : Nat}
    (h : Step w (.call caller r) k w') (hl : ¬ r.isLiquidation)
    (hc : ∀ owner, r ≠ .claimSurplus owner) : w'.escrow = w.escrow := by
  cases h with
  | provide h => rw [h.rest]
  | withdraw h => rw [h.rest]
  | claim h => exact absurd rfl (hc _)
  | borrow h =>
    obtain ⟨d, -, -, hr⟩ := h.rest
    rw [hr]
  | settle h => rw [h.rest]
  | liquidate hr _ => exact absurd hr hl
  | _ => rfl

/-- An owner's claimable surplus grows by what a turn books and shrinks by what
it pays the owner. -/
theorem Custody.surplus_turn {t : Turn} (hw : w.Custody sent) (wired : w.Wired)
    (outside : t.outside) (a : Address) :
    (t.take w).1.escrow.balance a + t.claimed w a =
      w.escrow.balance a + Closing.surplusOf a (t.closings w) := by
  cases t with
  | wait milliseconds =>
    obtain ⟨time, h⟩ := Turn.take_wait (w := w)
    rw [h]
    rfl
  | call caller r =>
    cases h : r.perform caller w with
    | error e =>
      -- nothing was done, so nothing was paid or closed
      have htake : ((Turn.call caller r).take w).1 = w := by simp only [Turn.take, h]
      have hclaimed := Turn.claimed_of_idle (a := a) htake
      have hclosings : (Turn.call caller r).closings w = [] := by simp only [Turn.closings, h]
      rw [htake, hclaimed, hclosings]
      rfl
    | ok o =>
      have htake : ((Turn.call caller r).take w).1 = o.world := by simp only [Turn.take, h]
      by_cases hl : r.isLiquidation
      · obtain ⟨d, -, hs⟩ := Turn.swept_closings wired hl h
        have hne : ∀ owner, r ≠ .claimSurplus owner := by
          rintro owner rfl
          exact hl
        have hclaimed : (Turn.call caller r).claimed w a = 0 := Turn.claimed_of_ne hne
        rw [htake, hclaimed, swept_surplus hs a]
        rfl
      · rw [Turn.closings_of_not_liquidation hl, htake]
        by_cases hc : ∃ owner, r = .claimSurplus owner
        · obtain ⟨owner, rfl⟩ := hc
          have hclaim : ((Request.claimSurplus owner).perform caller).Ensures w fun _ =>
              Protocol.Claimed w owner :=
            Request.ensures_silent.2 (Protocol.ensures_claimSurplus wired)
          have hb := hw.claimed_balance (hclaim o h) a
          rw [Turn.claimed, htake]
          exact hb
        · have hne : ∀ owner, r ≠ .claimSurplus owner := fun owner he => hc ⟨owner, he⟩
          have hclaimed : (Turn.call caller r).claimed w a = 0 := Turn.claimed_of_ne hne
          rw [escrow_of_step (Request.ensures_perform wired outside r o h) hl hne, hclaimed]
          rfl

/-! ## Runs -/

/-- Over a run, what was sent adds up, and so does what was booked and
claimed. -/
theorem Custody.after {ts : List Turn} (hw : w.Custody sent) (wired : w.Wired)
    (outside : ∀ t ∈ ts, t.outside) :
    (w.after ts).Custody (fun a => sent a + w.totalOf (fun t w => t.sent w a) ts) ∧
      ∀ a, (w.after ts).escrow.balance a + w.totalOf (fun t w => t.claimed w a) ts =
        w.escrow.balance a + w.totalOf (fun t w => Closing.surplusOf a (t.closings w)) ts := by
  induction ts generalizing w sent with
  | nil => exact ⟨hw, fun a => rfl⟩
  | cons t ts ih =>
    have ht := outside t List.mem_cons_self
    obtain ⟨hc, hb⟩ := ih (hw.take wired ht) ((Turn.step wired ht).wired wired)
      fun u hu => outside u (List.mem_cons_of_mem t hu)
    refine ⟨?_, fun a => ?_⟩
    · simp only [totalOf, ← Nat.add_assoc]
      exact hc
    · have hturn := hw.surplus_turn wired ht a
      have hrest := hb a
      simp only [totalOf, after_cons]
      omega

end World

theorem Deployment.Ready.custody {d : Deployment} {w : World} (h : d.Ready w) :
    w.Custody fun _ => 0 := by
  obtain ⟨i, hi⟩ := h.ledger
  have hholds (a : Address) : w.collateral.Holds a 0 := by
    rw [h.collateral]
    exact ⟨Token.sound_new, rfl, fun _ => rfl⟩
  refine ⟨⟨fun a ha => ?_, fun a ha => ?_⟩, ?_, ?_, ?_, ?_⟩
  · rw [hi] at ha
    cases ha
  · rw [h.escrow] at ha
    exact absurd rfl ha
  · rw [hi]
    exact hholds _
  · rw [h.pool]
    exact hholds _
  · rw [h.escrow]
    exact hholds _
  · rw [h.escrow]
    rfl

/-- The collateral tokens of the ledger, the pool and the escrow are those on
their books and those that were sent to them directly, in every state of every
run.  What can be claimed from the escrow adds up to its total, and for each
owner it is what was ever booked less what the owner was ever paid. -/
theorem Deployment.collateral_in_custody {d : Deployment}
    {incentive? : Option Liquidation.Incentive} {o : Outcome Unit}
    (start : d.start (some { incentive? }) = .ok o) {ts : List Turn}
    (outside : ∀ t ∈ ts, t.outside) :
    let w := o.world.after ts
    let sent (c : Address) := o.world.totalOf (fun t w => t.sent w c) ts
    w.collateral.balance ledgerAddress =
        w.ledger.activePool.collateral + w.ledger.defaultPool.collateral + sent ledgerAddress ∧
      w.collateral.balance poolAddress = w.pool.collateral + sent poolAddress ∧
      w.collateral.balance escrowAddress = w.escrow.total + sent escrowAddress ∧
      (w.escrow.balances.sum fun _ n => n) = w.escrow.total ∧
      ∀ a, o.world.totalOf (fun t w => Closing.surplusOf a (t.closings w)) ts =
        o.world.totalOf (fun t w => t.claimed w a) ts + w.escrow.balance a := by
  have hr := start_ready start
  obtain ⟨hc, hb⟩ := hr.custody.after hr.wired outside
  simp only [Nat.zero_add] at hc
  refine ⟨hc.ledger.balance, hc.pool.balance, hc.escrow.balance, hc.sound, fun a => ?_⟩
  have hstart : o.world.escrow.balance a = 0 := by
    rw [hr.escrow]
    rfl
  have h := hb a
  rw [hstart] at h
  omega

/-- A trove is liquidated at the cap, its owner claims the surplus, and somebody
sends collateral to the ledger. -/
def Deployment.surplusClaimed : List Turn :=
  Turn.opening (.account 1) (22 * Amount.one) (2000 * Amount.one) ++
  Turn.opening (.account 2) (5 * Amount.one) (400 * Amount.one) ++
  [.call (.account 1) (.provide (1000 * Amount.one)), .pricing 14000000000,
   .call (.account 3) (.liquidateOne (.account 2)),
   .call (.account 3) (.claimSurplus (.account 2)),
   .call (.account 3) (.mintCollateral ledgerAddress 7)]

theorem Deployment.collateral_in_custody_surplusClaimed :
    ∃ o, plain.start (some { incentive? := none }) = .ok o ∧
      (∀ t ∈ surplusClaimed, t.outside) ∧
      o.world.totalOf (fun t w => t.claimed w (.account 2)) surplusClaimed =
        285714285714285715 ∧
      let w := o.world.after surplusClaimed
      w.collateral.balance ledgerAddress =
          w.ledger.activePool.collateral + w.ledger.defaultPool.collateral +
            o.world.totalOf (fun t w => t.sent w ledgerAddress) surplusClaimed ∧
        o.world.totalOf (fun t w => Closing.surplusOf (.account 2) (t.closings w))
          surplusClaimed =
          o.world.totalOf (fun t w => t.claimed w (.account 2)) surplusClaimed +
            w.escrow.balance (.account 2) := by
  obtain ⟨o, ho, hc⟩ : ∃ o, plain.start (some { incentive? := none }) = .ok o ∧
      o.world.totalOf (fun t w => t.claimed w (.account 2)) surplusClaimed =
        285714285714285715 := Checked.exists_ok (by decide +kernel)
  have hout : ∀ t ∈ surplusClaimed, t.outside := by decide +kernel
  obtain ⟨hl, -, -, -, hs⟩ := collateral_in_custody ho hout
  exact ⟨o, ho, hout, hc, hl, hs (.account 2)⟩

end Troves
