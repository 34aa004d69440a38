/-
# Consulting the feed

Nothing but the administrator sets the feed, and nothing but the oracles
changes what it reads.  Every other action only consults it: whatever the
contracts are wired to, the clock and the reports stay as they are, and the
feed stays as it is or follows the decision it makes of the reports.

A feed that follows its decision makes the same decision again, so consulting
it twice is consulting it once.  Hence one lemma for each way of building an
action is enough, and the lemmas on the single actions only put these together.
-/
import Troves.Proofs.Effects
import Troves.Proofs.Repricing
import Troves.Request

namespace Troves

/-- The reports and the clock are as they were, and the feed has been consulted
or left alone. -/
structure World.Consulted (w w' : World) : Prop where
  time : w'.time = w.time
  round : w'.round? = w.round?
  quote : w'.quote? = w.quote?
  feed : w'.feed = w.feed ∨
    ∃ d, w.feed.decideAt w.round? w.quote? w.time = .ok d ∧ w'.feed = w.feed.follow d

namespace World.Consulted

variable {w w₁ w' : World}

/-- Whatever else changes, a feed that is left alone counts as consulted. -/
@[grind ←] theorem untouched (time : w'.time = w.time) (round : w'.round? = w.round?)
    (quote : w'.quote? = w.quote?) (feed : w'.feed = w.feed) : w.Consulted w' :=
  ⟨time, round, quote, .inl feed⟩

theorem refl : w.Consulted w :=
  untouched rfl rfl rfl rfl

theorem trans (h : w.Consulted w₁) (h' : w₁.Consulted w') : w.Consulted w' := by
  obtain ⟨ht, hr, hq, hf⟩ := h
  obtain ⟨ht', hr', hq', hf'⟩ := h'
  refine ⟨ht'.trans ht, hr'.trans hr, hq'.trans hq, ?_⟩
  rw [hr, hq, ht] at hf'
  rcases hf with hf | ⟨d, hd, hf⟩
  · rwa [hf] at hf'
  · refine .inr ⟨d, hd, ?_⟩
    rcases hf' with hf' | ⟨d', hd', hf'⟩
    · rw [hf', hf]
    · -- the second decision is the first one again
      rw [hf, Price.Feed.decideAt_again hd] at hd'
      cases hd'
      rw [hf', hf, Price.Feed.follow_again]

end World.Consulted

namespace Action

variable {α β : Type}

/-- Whenever the action goes through, it has done no more than consult the feed,
as far as the feed and what it reads are concerned. -/
def Consults (x : Action α) : Prop :=
  ∀ w, x.Ensures w fun _ w' => w.Consulted w'

namespace Consults

@[grind ←] theorem pure (a : α) : (Pure.pure a : Action α).Consults := fun _ =>
  ensures_pure.2 .refl

@[grind ←] theorem bind {x : Action α} {f : α → Action β} (hx : x.Consults)
    (hf : ∀ a, (f a).Consults) : (x >>= f).Consults := fun w =>
  ensures_bind.2 ((hx w).mono fun a w' h => (hf a w').mono fun _ _ h' => h.trans h')

@[grind ←] theorem lift (x : Checked α) : (liftM x : Action α).Consults := fun _ =>
  ensures_ofChecked.2 fun _ _ => .refl

@[grind ←] theorem monadLift (x : Checked α) : (MonadLift.monadLift x : Action α).Consults :=
  lift x

@[grind ←] theorem discard {x : Action α} (hx : x.Consults) :
    (Functor.discard x).Consults :=
  bind hx fun _ => pure ()

@[grind ←] theorem world : Action.world.Consults := fun _ => ensures_world.2 .refl

@[grind ←] theorem update {f : World → World} (hf : ∀ w : World, w.Consulted (f w)) :
    (Action.update f).Consults := fun w =>
  ensures_update.2 (hf w)

@[grind ←] theorem emit (e : Event) : (Action.emit e).Consults := fun _ => ensures_emit.2 .refl

@[grind ←] theorem emitAll (es : List Event) : (Action.emitAll es).Consults := fun _ =>
  ensures_emitAll.2 .refl

end Consults

end Action

namespace Protocol

open Troves.Action

/-! ## Reaching contracts -/

section Access

variable {α : Type} {address : Address} {expected : Contract} {entry : String} {act : Action α}
  {caller : Address}

@[grind ←] theorem consults_via (h : act.Consults) :
    (via address expected entry act).Consults := by
  unfold via noEntryPoint
  grind

@[grind ←] theorem consults_onlyAdmin : (onlyAdmin caller).Consults := by
  unfold onlyAdmin
  grind

@[grind ←] theorem consults_onLedger (f : Ledger → Checked Ledger) : (onLedger f).Consults := by
  unfold onLedger
  grind

@[grind ←] theorem consults_onList (f : TroveList → Checked TroveList) : (onList f).Consults := by
  unfold onList
  grind

@[grind ←] theorem consults_onPool (f : Stability.Pool → Checked Stability.Pool) :
    (onPool f).Consults := by
  unfold onPool
  grind

@[grind ←] theorem consults_onEscrow (f : Escrow → Checked Escrow) : (onEscrow f).Consults := by
  unfold onEscrow
  grind

@[grind ←] theorem consults_onCollateral (f : Token → Checked Token) :
    (onCollateral f).Consults := by
  unfold onCollateral
  grind

@[grind ←] theorem consults_onCoin (f : Token → Checked Token) : (onCoin f).Consults := by
  unfold onCoin
  grind

end Access

/-! ## Prices -/

section Pricing

variable {feed : Address}

@[grind ←] theorem consults_currentPrice : currentPrice.Consults := by
  intro w
  exact ensures_currentPrice.2 fun d hd => ⟨rfl, rfl, rfl, .inr ⟨d, hd, rfl⟩⟩

@[grind ←] theorem consults_priceFrom : (priceFrom feed).Consults := by
  unfold priceFrom
  grind

end Pricing

/-! ## Tokens -/

section Tokens

variable {token caller owner source target : Address} {amount : Nat}

@[grind ←] theorem consults_onlyProtocols : (onlyProtocols caller).Consults := by
  unfold onlyProtocols
  grind

@[grind ←] theorem consults_mintCoin : (mintCoin caller target amount).Consults := by
  unfold mintCoin
  grind

@[grind ←] theorem consults_burnCoin : (burnCoin caller source amount).Consults := by
  unfold burnCoin
  grind

@[grind ←] theorem consults_moveCoin : (moveCoin caller source target amount).Consults := by
  unfold moveCoin
  grind

@[grind ←] theorem consults_changeProtocols (f : Coin → Coin) :
    (changeProtocols caller f).Consults := by
  unfold changeProtocols
  grind

@[grind ←] theorem consults_transfer : (transfer token caller target amount).Consults := by
  unfold transfer
  grind

@[grind ←] theorem consults_drawFrom : (drawFrom token caller owner target amount).Consults := by
  unfold drawFrom
  grind

@[grind ←] theorem consults_mint : (mint token caller target amount).Consults := by
  unfold mint
  grind

@[grind ←] theorem consults_pay : (pay token caller target amount).Consults := by
  unfold pay
  grind

end Tokens

/-! ## The list -/

section Listing

variable {caller keeper id : Address} {ratio : Nat} {hint : TroveList.Slot}

@[grind ←] theorem consults_onlyKeeper : (onlyKeeper caller).Consults := by
  unfold onlyKeeper
  grind

@[grind ←] theorem consults_wireList : (wireList caller keeper).Consults := by
  unfold wireList
  grind

@[grind ←] theorem consults_listInsert : (listInsert caller id ratio hint).Consults := by
  unfold listInsert
  grind

@[grind ←] theorem consults_listRemove : (listRemove caller id).Consults := by
  unfold listRemove
  grind

@[grind ←] theorem consults_listReposition : (listReposition caller id ratio hint).Consults := by
  unfold listReposition
  grind

end Listing

/-! ## The ledger -/

section Borrowing

variable {caller list borrower : Address} {links : Ledger.Links}
  {incentive : Liquidation.Incentive} {collateral debt : Nat} {hint : TroveList.Slot}
  {holding : Holding}

@[grind ←] theorem consults_wireLedger : (wireLedger caller links).Consults := by
  unfold wireLedger
  grind

@[grind ←] theorem consults_setIncentive : (setIncentive caller incentive).Consults := by
  unfold setIncentive
  grind

@[grind ←] theorem consults_ledgerLinks : ledgerLinks.Consults := by
  unfold ledgerLinks
  grind

/-- The longer actions are taken apart up to where the rest can be put together
again at once. -/
@[grind ←] theorem consults_borrow : (borrow caller collateral debt hint).Consults := by
  unfold borrow
  refine .bind .world fun _ => .bind (.lift _) fun _ => .bind (.lift _) fun _ =>
    .bind (.lift _) fun _ => ?_
  refine .bind consults_ledgerLinks fun _ => .bind consults_priceFrom fun _ =>
    .bind .world fun _ => .bind (.lift _) fun _ => .bind (.lift _) fun _ => ?_
  refine .bind consults_drawFrom fun _ => .bind (.lift _) fun _ =>
    .bind (consults_onLedger _) fun _ => .bind .world fun _ => ?_
  grind

@[grind ←] theorem consults_relist : (relist list borrower holding).Consults := by
  unfold relist
  grind

@[grind ←] theorem consults_settleRewards : (settleRewards borrower).Consults := by
  unfold settleRewards
  refine .bind .world fun _ => .bind (.lift _) fun _ => .bind consults_ledgerLinks fun _ =>
    .bind .world fun _ => .bind (.lift _) fun _ => ?_
  grind

end Borrowing

/-! ## The stability pool -/

section Deposits

variable {caller source target depositor : Address} {links : Stability.Links}
  {amount gain loss debt coll : Nat}

@[grind ←] theorem consults_wirePool : (wirePool caller links).Consults := by
  unfold wirePool
  grind

@[grind ←] theorem consults_poolLinks : poolLinks.Consults := by
  unfold poolLinks
  grind

@[grind ←] theorem consults_poolMove : (poolMove source target amount).Consults := by
  unfold poolMove
  grind

@[grind ←] theorem consults_payGain : (payGain depositor gain loss).Consults := by
  unfold payGain
  grind

@[grind ←] theorem consults_recordDeposit : (recordDeposit depositor amount).Consults := by
  unfold recordDeposit
  grind

@[grind ←] theorem consults_provide : (provide caller amount).Consults := by
  unfold provide
  refine .bind (.lift _) fun _ => .bind .world fun _ => .bind (.lift _) fun _ =>
    .bind (.lift _) fun _ => ?_
  grind

@[grind ←] theorem consults_withdraw : (withdraw caller amount).Consults := by
  unfold withdraw
  refine .bind .world fun _ => .bind (.lift _) fun _ => .bind (.lift _) fun _ =>
    .bind (.lift _) fun _ => ?_
  grind

@[grind ←] theorem consults_offset : (offset caller debt coll).Consults := by
  unfold offset
  refine .bind .world fun _ => .bind (.lift _) fun _ => ?_
  grind

end Deposits

/-! ## The escrow -/

section Escrowing

variable {caller owner : Address} {links : Escrow.Links} {amount : Nat}

@[grind ←] theorem consults_wireEscrow : (wireEscrow caller links).Consults := by
  unfold wireEscrow
  grind

@[grind ←] theorem consults_creditSurplus : (creditSurplus caller owner amount).Consults := by
  unfold creditSurplus
  grind

@[grind ←] theorem consults_claimSurplus : (claimSurplus owner).Consults := by
  unfold claimSurplus
  grind

end Escrowing

/-! ## Liquidations -/

section Liquidating

open Liquidation (Split Totals Mode)

variable {links : Ledger.Links} {target borrower owner liquidator caller : Address}
  {amount price most : Nat} {spread : Holding} {entire : Entire} {mode : Mode} {s : Split}
  {t : Totals} {borrowers : List Address} {b? : Option Address}

@[grind ←] theorem consults_sendOut : (sendOut links target amount).Consults := by
  unfold sendOut
  grind

@[grind ←] theorem consults_retire : (retire links borrower).Consults := by
  unfold retire
  grind

@[grind ←] theorem consults_offsetDebt : (offsetDebt links s).Consults := by
  unfold offsetDebt
  grind

@[grind ←] theorem consults_spreadOut : (spreadOut spread).Consults := by
  unfold spreadOut
  grind

@[grind ←] theorem consults_setSurplusAside : (setSurplusAside links owner amount).Consults := by
  unfold setSurplusAside
  grind

@[grind ←] theorem consults_payCaller : (payCaller links liquidator s).Consults := by
  unfold payCaller
  grind

@[grind ←] theorem consults_carryOut :
    (carryOut links borrower liquidator entire mode s).Consults := by
  unfold carryOut
  refine .bind (consults_onLedger _) fun _ => .bind (consults_onLedger _) fun _ =>
    .bind .world fun _ => .bind (.emit _) fun _ => .bind consults_retire fun _ => ?_
  grind

@[grind ←] theorem consults_liquidateIfDue :
    (liquidateIfDue links borrower price liquidator).Consults := by
  unfold liquidateIfDue
  refine .bind .world fun _ => ?_
  dsimp only
  split
  · refine .bind (.lift _) fun _ => .bind (.lift _) fun _ => ?_
    grind
  · grind

@[grind ←] theorem consults_liquidateEach :
    (liquidateEach links price liquidator borrowers t).Consults := by
  induction borrowers generalizing t with
  | nil =>
    unfold liquidateEach
    grind
  | cons b bs ih =>
    unfold liquidateEach
    grind

@[grind ←] theorem consults_liquidateFrom :
    (liquidateFrom links price liquidator most b? t).Consults := by
  induction most generalizing b? t with
  | zero =>
    unfold liquidateFrom
    grind
  | succ n ih =>
    cases b? <;> unfold liquidateFrom <;> grind

@[grind ←] theorem consults_conclude : (conclude liquidator t).Consults := by
  unfold conclude
  grind

@[grind ←] theorem consults_liquidateAll : (liquidateAll caller borrowers).Consults := by
  unfold liquidateAll
  grind

@[grind ←] theorem consults_liquidateOne : (liquidateOne caller borrower).Consults := by
  unfold liquidateOne
  grind

@[grind ←] theorem consults_liquidateRiskiest : (liquidateRiskiest caller most).Consults := by
  unfold liquidateRiskiest
  grind

end Liquidating

end Protocol

/-! ## Requests -/

namespace Request

open Troves.Action

/-- Whether a request sets the feed or what it reads. -/
def setsFeed : Request → Prop
  | reportRound _ | reportQuote _ | configureFeed _ => True
  | _ => False

@[grind ←] theorem consults_silent {act : Action Unit} (h : act.Consults) :
    (silent act).Consults := by
  unfold silent
  grind

/-- Any other request consults the feed at most. -/
theorem consults_perform {caller : Address} {r : Request} (h : ¬ r.setsFeed) :
    (r.perform caller).Consults := by
  cases r with
  | reportRound _ => exact absurd trivial h
  | reportQuote _ => exact absurd trivial h
  | configureFeed _ => exact absurd trivial h
  | _ =>
    unfold perform
    grind

end Request

end Troves
