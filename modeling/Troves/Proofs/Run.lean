/-
# Runs of the wired system

A turn is a request by somebody outside the contracts, or time passing.  A
request that fails changes nothing.  `Step` lists what one turn can do to a
wired world, book by book; whatever is shown of every run is shown of a step
first and then lifted by `World.after_induction`.
-/
import Troves.Proofs.Requests

namespace Troves

open Troves.Action
open Liquidation (Totals)

/-! ## Turns -/

/-- A request with its caller, or a pause. -/
inductive Turn where
  | call (caller : Address) (request : Request)
  | wait (milliseconds : Nat)

/-- How many settlements an answered request made: one for a trove whose
rewards were settled, one for every trove liquidated. -/
def Request.settlements (r : Request) : Reply → Nat
  | .totals t => t.troves
  | _ =>
    match r with
    | .settleRewards _ => 1
    | _ => 0

/-- Whether a request is for liquidations. -/
def Request.isLiquidation : Request → Prop
  | .liquidateOne _ | .liquidateRiskiest _ | .liquidateAll _ => True
  | _ => False

namespace Turn

/-- Whether a turn is taken by somebody outside the contracts. -/
def outside : Turn → Prop
  | call caller _ => Contract.find? caller = none
  | wait _ => True

instance (t : Turn) : Decidable t.outside := by
  cases t <;> unfold outside <;> infer_instance

/-- The world after a turn, with the settlements the turn made. -/
def take (t : Turn) (w : World) : World × Nat :=
  match t with
  | call caller request =>
    match request.perform caller w with
    | .ok o => (o.world, request.settlements o.value)
    | .error _ => (w, 0)
  | wait milliseconds =>
    match w.advance milliseconds with
    | .ok w' => (w', 0)
    | .error _ => (w, 0)

end Turn

namespace World

/-- The world after some turns. -/
def after (w : World) : List Turn → World
  | [] => w
  | t :: ts => (t.take w).1.after ts

/-- How many settlements some turns make. -/
def settlements (w : World) : List Turn → Nat
  | [] => 0
  | t :: ts => (t.take w).2 + (t.take w).1.settlements ts

@[simp] theorem after_nil (w : World) : w.after [] = w := rfl

@[simp] theorem after_cons (w : World) (t : Turn) (ts : List Turn) :
    w.after (t :: ts) = (t.take w).1.after ts := rfl

theorem after_append (w : World) (ts us : List Turn) :
    w.after (ts ++ us) = (w.after ts).after us := by
  induction ts generalizing w with
  | nil => rfl
  | cons t ts ih => exact ih _

end World

/-! ## What one turn can do -/

/-- What a turn does to a wired world, with the settlements it makes. -/
inductive Step (w : World) : Turn → Nat → World → Prop where
  /-- Only the surroundings change: the clock, what the oracles and the board
  say, the feed. -/
  | around {t : Turn} {time : Nat} {round? : Option Price.Round} {quote? : Option Price.Quote}
      {feed : Price.Feed} {board : Table Address Nat} {hollowAnswer : Bool} :
      Step w t 0 { w with time, round?, quote?, feed, board, hollowAnswer }
  | collateral {caller : Address} {r : TokenRequest} {token : Token}
      (h : r.apply caller w.collateral = .ok token) :
      Step w (.call caller (.collateral r)) 0 { w with collateral := token }
  | faucet {caller target : Address} {amount : Nat} {token : Token}
      (h : w.collateral.mint target amount = .ok token) :
      Step w (.call caller (.mintCollateral target amount)) 0 { w with collateral := token }
  | coin {caller : Address} {r : TokenRequest} {token : Token}
      (h : r.apply caller w.coin.token = .ok token) :
      Step w (.call caller (.coin r)) 0 { w with coin := { w.coin with token } }
  /-- Somebody the stablecoin obeys mints, burns or moves. -/
  | command {caller : Address} {r : Request} {f : Token → Checked Token} {coin : Coin}
      (h : w.coin.command caller f = .ok coin) :
      Step w (.call caller r) 0 { w with coin }
  | grant {contract : Address} :
      Step w (.call w.admin (.grant contract)) 0 { w with coin := w.coin.grant contract }
  | revoke {contract : Address} :
      Step w (.call w.admin (.revoke contract)) 0 { w with coin := w.coin.revoke contract }
  | incentive {i : Liquidation.Incentive} (unused : w.ledger.owners = [])
      (debt : w.ledger.systemDebt = .ok 0) (divisor : i.collateralDivisor ≠ 0) :
      Step w (.call w.admin (.setIncentive i)) 0
        { w with ledger := { w.ledger with incentive := i } }
  | provide {caller : Address} {amount : Nat} {w' : World}
      (h : Protocol.Provided w caller amount w') : Step w (.call caller (.provide amount)) 0 w'
  | withdraw {caller : Address} {amount : Nat} {w' : World}
      (h : Protocol.Withdrawn w caller amount w') :
      Step w (.call caller (.withdraw amount)) 0 w'
  | claim {caller owner : Address} {w' : World} (h : Protocol.Claimed w owner w') :
      Step w (.call caller (.claimSurplus owner)) 0 w'
  | borrow {caller : Address} {collateral debt : Nat} {hint : TroveList.Slot} {w' : World}
      (h : Protocol.Opened w caller
        ⟨collateral, debt + w.ledger.incentive.debtCompensation⟩ hint w') :
      Step w (.call caller (.borrow collateral debt hint)) 0 w'
  | settle {caller borrower : Address} {s : Accrual.Settlement} {w' : World}
      (h : Protocol.Settled w borrower s w') :
      Step w (.call caller (.settleRewards borrower)) 1 w'
  | liquidate {caller : Address} {r : Request} {t : Totals} {w' : World}
      (request : r.isLiquidation) (h : Protocol.Cleared w caller t w') :
      Step w (.call caller r) t.troves w'

theorem Step.idle {w : World} {t : Turn} : Step w t 0 w :=
  .around

/-- What a turn does to the ledger: it opens a trove, settles one or liquidates
some, or it sets what liquidations pay at most. -/
inductive Step.OnLedger (w w' : World) : Turn → Nat → Prop where
  | kept {t : Turn} {i : Liquidation.Incentive} (h : w'.ledger = { w.ledger with incentive := i }) :
      OnLedger w w' t 0
  | opened {a : Address} {collateral debt : Nat} {hint : TroveList.Slot}
      (h : Protocol.Opened w a ⟨collateral, debt + w.ledger.incentive.debtCompensation⟩ hint w') :
      OnLedger w w' (.call a (.borrow collateral debt hint)) 0
  | settled {a b : Address} {s : Accrual.Settlement} (h : Protocol.Settled w b s w') :
      OnLedger w w' (.call a (.settleRewards b)) 1
  | cleared {a : Address} {r : Request} {t : Totals} (h : Protocol.Cleared w a t w') :
      OnLedger w w' (.call a r) t.troves

theorem Step.onLedger {w w' : World} {t : Turn} {k : Nat} (h : Step w t k w') :
    Step.OnLedger w w' t k := by
  cases h with
  | incentive => exact .kept rfl
  | provide h => exact .kept (by rw [h.rest])
  | withdraw h => exact .kept (by rw [h.rest])
  | claim h => exact .kept (by rw [h.rest])
  | borrow h => exact .opened h
  | settle h => exact .settled h
  | liquidate _ h => exact .cleared h
  | _ => exact .kept rfl

namespace Request

variable {w : World} {Q : Reply → World → Prop}

@[simp] theorem ensures_silent {act : Action Unit} :
    (silent act).Ensures w Q ↔ act.Ensures w fun _ w' => Q .done w' := by
  simp [silent]

theorem ensures_onlyAdmin {caller : Address} {Q : Unit → World → Prop} :
    (Protocol.onlyAdmin caller).Ensures w Q ↔ (caller = w.admin → Q () w) := by
  simp [Protocol.onlyAdmin]

/-- Somebody outside the contracts is none of them. -/
theorem ne_contract {caller : Address} (hc : Contract.find? caller = none) (c : Contract) :
    caller ≠ c.address := by
  rintro rfl
  simp at hc

/-- Whatever somebody outside asks of a wired world and gets done is one of
the steps. -/
theorem ensures_perform (hw : w.Wired) {caller : Address}
    (hc : Contract.find? caller = none) (r : Request) :
    (r.perform caller).Ensures w fun reply w' =>
      Step w (.call caller r) (r.settlements reply) w' := by
  have hl : ¬ Contract.ledger.address = caller := (ne_contract hc .ledger).symm
  have hk : ¬ Protocol.ledgerAddress = caller := hl
  cases r with
  | reportRound round? => exact ensures_silent.2 (ensures_update.2 .around)
  | reportQuote quote? => exact ensures_silent.2 (ensures_update.2 .around)
  | collateral r =>
    simp only [perform, ensures_bind, Protocol.ensures_onCollateral, ensures_pure]
    intro _ h
    exact .collateral h
  | mintCollateral target amount =>
    simp only [perform, ensures_silent, Protocol.ensures_onCollateral]
    intro _ h
    exact .faucet h
  | coin r =>
    simp only [perform, ensures_bind, Protocol.ensures_onCoin, ensures_pure]
    intro _ h
    exact .coin h
  | mintCoin target amount =>
    exact ensures_silent.2 (Protocol.ensures_command.2 fun _ h => .command h)
  | burnCoin source amount =>
    exact ensures_silent.2 (Protocol.ensures_command.2 fun _ h => .command h)
  | moveCoin source target amount =>
    exact ensures_silent.2 (Protocol.ensures_command.2 fun _ h => .command h)
  | grant c =>
    simp only [perform, Protocol.changeProtocols, ensures_silent, ensures_bind,
      ensures_onlyAdmin, ensures_update]
    rintro rfl
    exact .grant
  | revoke c =>
    simp only [perform, Protocol.changeProtocols, ensures_silent, ensures_bind,
      ensures_onlyAdmin, ensures_update]
    rintro rfl
    exact .revoke
  | currentPrice =>
    exact ensures_bind.2 (Protocol.ensures_currentPrice.2 fun _ _ => ensures_pure.2 .around)
  | configureFeed settings =>
    simp only [perform, Protocol.configureFeed, ensures_silent, ensures_bind,
      ensures_onlyAdmin, liftM_eq_ofChecked, ensures_require, ensures_update]
    intro _ _
    exact .around
  | wireList keeper =>
    simp [perform, Protocol.wireList, ensures_onlyAdmin, hw.keeper]
  | listInsert id ratio hint =>
    simp [perform, Protocol.listInsert, Protocol.onlyKeeper, hw.keeper, hk]
  | listRemove id =>
    simp [perform, Protocol.listRemove, Protocol.onlyKeeper, hw.keeper, hk]
  | listReposition id ratio hint =>
    simp [perform, Protocol.listReposition, Protocol.onlyKeeper, hw.keeper, hk]
  | wirePool links =>
    simp [perform, Protocol.wirePool, ensures_onlyAdmin, hw.pool]
  | provide amount =>
    exact ensures_silent.2 ((Protocol.ensures_provide hw).mono fun _ _ h => .provide h)
  | withdraw amount =>
    exact ensures_silent.2 ((Protocol.ensures_withdraw hw).mono fun _ _ h => .withdraw h)
  | offset debt coll =>
    simp [perform, Protocol.offset, hw.pool, Stability.Links.usual, hl]
  | wireEscrow links =>
    simp [perform, Protocol.wireEscrow, ensures_onlyAdmin, hw.escrow]
  | creditSurplus owner amount =>
    simp [perform, Protocol.creditSurplus, hw.escrow, Escrow.Links.usual, hl]
  | claimSurplus owner =>
    exact ensures_silent.2 ((Protocol.ensures_claimSurplus hw).mono fun _ _ h => .claim h)
  | wireLedger links =>
    simp [perform, Protocol.wireLedger, ensures_onlyAdmin, hw.ledger]
  | setIncentive i =>
    simp only [perform, Protocol.setIncentive, ensures_silent, ensures_bind,
      ensures_onlyAdmin, liftM_eq_ofChecked, ensures_world, Protocol.ensures_onLedger,
      ensures_ofChecked, require_eq_ok, Checked.pure_eq_ok, List.isEmpty_iff, beq_iff_eq,
      bne_iff_ne]
    rintro rfl _ ho _ hz _ rfl _ hd _ rfl
    exact .incentive ho hz hd
  | borrow coll debt hint =>
    exact ensures_silent.2 ((Protocol.ensures_borrow hw).mono fun _ _ h => .borrow h)
  | settleRewards borrower =>
    refine ensures_silent.2 ((Protocol.ensures_settleRewards hw).mono ?_)
    rintro _ _ ⟨_, h⟩
    exact .settle h
  | liquidateOne borrower =>
    exact ensures_bind.2 ((Protocol.ensures_liquidateOne hw).mono fun _ _ h =>
      ensures_pure.2 (.liquidate trivial h))
  | liquidateRiskiest most =>
    exact ensures_bind.2 ((Protocol.ensures_liquidateRiskiest hw).mono fun _ _ h =>
      ensures_pure.2 (.liquidate trivial h))
  | liquidateAll borrowers =>
    exact ensures_bind.2 ((Protocol.ensures_liquidateAll hw).mono fun _ _ h =>
      ensures_pure.2 (.liquidate trivial h))
  | postRatio owner ratio => exact ensures_silent.2 (ensures_update.2 .around)
  | setHollowAnswer answer => exact ensures_silent.2 (ensures_update.2 .around)

/-- What is opened, if an opening goes through. -/
theorem borrow_opened (hw : w.Wired) {caller : Address} {collateral debt : Nat}
    {hint : TroveList.Slot} {o : Outcome Reply}
    (h : (borrow collateral debt hint).perform caller w = .ok o) :
    Protocol.Opened w caller ⟨collateral, debt + w.ledger.incentive.debtCompensation⟩ hint
      o.world := by
  have hborrow : ((borrow collateral debt hint).perform caller).Ensures w fun _ =>
      Protocol.Opened w caller ⟨collateral, debt + w.ledger.incentive.debtCompensation⟩ hint :=
    ensures_silent.2 (Protocol.ensures_borrow hw)
  exact hborrow o h

end Request

/-! ## From steps to runs -/

/-- A step leaves the world wired. -/
theorem Step.wired {w w' : World} {t : Turn} {n : Nat} (h : Step w t n w') (hw : w.Wired) :
    w'.Wired := by
  cases h with
  | provide h => exact h.wired hw
  | withdraw h => exact h.wired hw
  | claim h => exact h.wired hw
  | borrow h => exact h.wired hw
  | settle h => exact h.wired hw
  | liquidate _ h => exact h.wired hw
  | _ => exact ⟨hw.ledger, hw.keeper, hw.pool, hw.escrow⟩

/-- Waiting moves the clock at most. -/
theorem Turn.take_wait {w : World} {n : Nat} :
    ∃ time, (wait n).take w = ({ w with time }, 0) := by
  by_cases h : w.time + n < Counter.limit
  · simp only [take, World.advance, if_pos h]
    exact ⟨w.time + n, rfl⟩
  · simp only [take, World.advance, if_neg h]
    exact ⟨w.time, rfl⟩

/-- What an action ensures holds of the turn, unless the turn changes nothing. -/
theorem Turn.take_call {w : World} {x : Address} {r : Request} {P : World → Prop}
    (h : (r.perform x).Ensures w fun _ w' => P w') :
    ((call x r).take w).1 = w ∨ P ((call x r).take w).1 := by
  cases hr : r.perform x w with
  | error e =>
    left
    simp only [take, hr]
  | ok o =>
    right
    simp only [take, hr]
    exact h o hr

theorem Turn.step {w : World} (hw : w.Wired) {t : Turn} (ht : t.outside) :
    Step w t (t.take w).2 (t.take w).1 := by
  cases t with
  | call caller request =>
    cases h : request.perform caller w with
    | error e =>
      simp only [take, h]
      exact .idle
    | ok o =>
      simp only [take, h]
      exact Request.ensures_perform hw ht request o h
  | wait milliseconds =>
    obtain ⟨time, h⟩ := take_wait (w := w)
    rw [h]
    exact .around

namespace World

/-- What every step preserves, with the settlements counted along, holds
after every run. -/
theorem after_induction {P : World → Nat → Prop} {w : World} {n : Nat} {ts : List Turn}
    (hw : w.Wired) (outside : ∀ t ∈ ts, t.outside)
    (step : ∀ t ∈ ts, ∀ {w w' n k}, w.Wired → Step w t k w' → P w n → P w' (n + k))
    (h : P w n) : (w.after ts).Wired ∧ P (w.after ts) (n + w.settlements ts) := by
  induction ts generalizing w n with
  | nil => exact ⟨hw, h⟩
  | cons t ts ih =>
    have ht := Turn.step hw (outside t List.mem_cons_self)
    rw [settlements, ← Nat.add_assoc]
    exact ih (ht.wired hw) (fun u hu => outside u (List.mem_cons_of_mem t hu))
      (fun u hu => step u (List.mem_cons_of_mem t hu)) (step t List.mem_cons_self hw ht h)

theorem Wired.after {w : World} (hw : w.Wired) {ts : List Turn}
    (outside : ∀ t ∈ ts, t.outside) : (w.after ts).Wired :=
  (after_induction (n := 0) (P := fun _ _ => True) hw outside
    (fun _ _ _ _ _ _ _ _ _ => trivial) trivial).1

/-- What every step preserves from the worlds in which `S` holds holds after
every run that never leaves them. -/
theorem after_induction_within {S P : World → Prop} {w : World} {ts : List Turn}
    (hw : w.Wired) (outside : ∀ t ∈ ts, t.outside) (within : ∀ us, us <+: ts → S (w.after us))
    (step : ∀ t ∈ ts, ∀ {w w' k}, w.Wired → S w → Step w t k w' → P w → P w') (h : P w) :
    (w.after ts).Wired ∧ P (w.after ts) := by
  induction ts generalizing w with
  | nil => exact ⟨hw, h⟩
  | cons t ts ih =>
    have ht := Turn.step hw (outside t List.mem_cons_self)
    exact ih (ht.wired hw) (fun u hu => outside u (List.mem_cons_of_mem t hu))
      (fun us hus => within (t :: us) (List.cons_prefix_cons.2 ⟨rfl, hus⟩))
      (fun u hu => step u (List.mem_cons_of_mem t hu))
      (step t List.mem_cons_self hw (within [] List.nil_prefix) ht h)

end World

/-! ## The beginning -/

namespace Deployment

/-- A world as it comes out of the usual wiring. -/
structure Ready (d : Deployment) (w : World) : Prop where
  admin : w.admin = d.deployer
  ledger : ∃ i, w.ledger = { links? := some .usual, incentive := i }
  list : w.list = { keeper? := some Protocol.ledgerAddress, capacity := d.capacity }
  pool : w.pool = { links? := some .usual }
  escrow : w.escrow = { links? := some .usual }
  collateral : w.collateral = {}
  coin : w.coin = { protocols := [Protocol.ledgerAddress, Protocol.poolAddress] }

theorem start_ready {d : Deployment} {i? : Option Liquidation.Incentive} {o : Outcome Unit}
    (h : d.start (some { incentive? := i? }) = .ok o) : d.Ready o.world := by
  simp only [start, deploy, Checked.bind_eq_ok, Checked.pure_eq_ok] at h
  obtain ⟨w, ⟨feed, -, -, -, rfl⟩, o', ho, rfl⟩ := h
  revert ho
  generalize hw : World.mk .. = w
  suffices hs : (Request.performAll d.deployer
      (Wiring.requests { incentive? := i? })).Ensures w fun _ w' => d.Ready w' from hs o'
  subst hw
  simp only [Wiring.requests, List.cons_append, List.nil_append, Request.performAll,
    ensures_bind, ensures_discard, Request.perform, Request.ensures_silent,
    Protocol.wireLedger, Protocol.wireList, Protocol.wirePool, Protocol.wireEscrow,
    Protocol.changeProtocols, Request.ensures_onlyAdmin, liftM_eq_ofChecked, ensures_world,
    ensures_ofChecked, Protocol.ensures_onLedger, Protocol.ensures_onList,
    Protocol.ensures_onPool, Protocol.ensures_onEscrow, ensures_update, Checked.pure_eq_ok]
  rintro - _ - _ rfl - _ - _ rfl - _ - _ rfl - _ - _ rfl - -
  cases i? with
  | none => exact ensures_pure.2 ⟨rfl, ⟨{}, rfl⟩, rfl, rfl, rfl, rfl, rfl⟩
  | some i =>
    simp only [Option.toList, List.map, Request.performAll, ensures_bind, ensures_discard,
      Request.perform, Protocol.setIncentive, Request.ensures_silent,
      Request.ensures_onlyAdmin, liftM_eq_ofChecked, ensures_world, ensures_ofChecked,
      Protocol.ensures_onLedger, Checked.pure_eq_ok, ensures_pure]
    rintro - _ - _ - _ - _ - _ rfl
    exact ⟨rfl, ⟨i, rfl⟩, rfl, rfl, rfl, rfl, rfl⟩

theorem Ready.wired {d : Deployment} {w : World} (h : d.Ready w) : w.Wired := by
  obtain ⟨i, hi⟩ := h.ledger
  exact ⟨by rw [hi], by rw [h.list], by rw [h.pool], by rw [h.escrow]⟩

/-- A deployment with nothing unusual about it. -/
def plain : Deployment where
  deployer := .account 0
  time := 1000000
  feedId := ""
  round? := some { answer := 20000000000, decimals := 8, updatedAt := 1000000 }
  quote? := none
  capacity := 8

end Deployment

namespace Turn

/-- The turns by which somebody comes by collateral and opens a trove. -/
def opening (a : Address) (collateral debt : Nat) : List Turn :=
  [call a (.mintCollateral a collateral),
   call a (.collateral (.approve Protocol.ledgerAddress collateral)),
   call a (.borrow collateral debt {})]

/-- The turn by which the primary source reports a price, with eight decimal
places and at the time of the plain deployment. -/
def pricing (answer : Int64) : Turn :=
  call (.account 0) (.reportRound (some { answer, decimals := 8, updatedAt := 1000000 }))

end Turn

/-- Two troves are opened, one of them is liquidated, and the pool takes a part
of its debt. -/
def Deployment.partlyOffset : List Turn :=
  Turn.opening (.account 1) (10 * Amount.one) (500 * Amount.one) ++
  Turn.opening (.account 2) (5 * Amount.one) (400 * Amount.one) ++
  [.call (.account 1) (.provide (100 * Amount.one)), .pricing 12000000000,
   .call (.account 3) (.liquidateOne (.account 2))]

/-- Why a computation does not go through, if it does not. -/
def Checked.fault? {α : Type} : Checked α → Option Fault
  | .ok _ => none
  | .error e => some e

theorem Checked.fault?_eq_some {α : Type} {x : Checked α} {f : Fault} :
    x.fault? = some f ↔ x = .error f := by
  cases x <;> simp [fault?]

theorem Checked.fault?_eq_none {α : Type} {x : Checked α} :
    x.fault? = none ↔ ∃ a, x = .ok a := by
  cases x <;> simp [fault?]

/-- A computation that goes through, with a fact about its result that can be
computed as well. -/
theorem Checked.exists_ok {α : Type} {x : Checked α} {p : α → Prop} [DecidablePred p]
    (h : (match x with | .ok a => decide (p a) | .error _ => false) = true) :
    ∃ a, x = .ok a ∧ p a := by
  cases x with
  | error e => simp at h
  | ok a => exact ⟨a, rfl, by simpa using h⟩

end Troves
