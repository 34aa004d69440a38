/-
# What nobody else can take

An account owns its coins, its deposit, and its collateral together with the
surplus it can claim.  Every request moves tokens from its caller or from a
contract, so nothing of this becomes less through a request of somebody else's.
The one exception is a draw, which needs an allowance and uses it up.

| who gives | when |
|---|---|
| the caller | transfers, provisions, openings |
| the pool | withdrawals and gains, burns |
| the ledger | what a liquidation hands over and pays |
| the escrow | surpluses, to their owner |
| the owner of an allowance | draws |
-/
import Troves.Proofs.Backing
import Troves.Proofs.Movements
import Troves.Proofs.Positions

namespace Troves

open Protocol (poolAddress ledgerAddress escrowAddress Liquidated Sweep)
open Liquidation (Split Totals)

/-! ## Tokens -/

namespace Token

variable {t t' : Token} {source target a : Address} {amount : Nat}

/-- Who does not give has no less afterwards. -/
theorem Passed.balance_ge (h : t.Passed source target amount t') (ha : source ≠ a) :
    t.balance a ≤ t'.balance a := by
  have hb := h.balance a
  rw [if_neg ha, Nat.add_zero] at hb
  rw [hb]
  exact Nat.le_add_right _ _

theorem draw_balance_ge {spender owner : Address} (h : t.draw spender owner target amount = .ok t')
    (ha : owner ≠ a) : t.balance a ≤ t'.balance a :=
  (draw_ok h).2.balance_ge ha

/-- A spender drew an amount of an owner's tokens, within the allowance and at
its expense. -/
structure Drawn (t : Token) (owner spender : Address) (amount : Nat) (t' : Token) : Prop where
  allowed : amount ≤ t.allowance owner spender
  balance : t.balance owner ≤ t'.balance owner + amount
  allowance : t'.allowance owner spender + amount = t.allowance owner spender

theorem allowance_approve (t : Token) (owner spender : Address) (amount : Nat) :
    (t.approve owner spender amount).allowance owner spender = amount := by
  rw [allowance, approve, Table.getD_set, if_pos rfl]

theorem draw_drawn {spender owner : Address} (h : t.draw spender owner target amount = .ok t') :
    t.Drawn owner spender amount t' := by
  obtain ⟨allowed, passed⟩ := draw_ok h
  refine ⟨allowed, ?_, ?_⟩
  · have hb := passed.balance owner
    rw [if_pos rfl] at hb
    exact (Nat.le_add_right _ _).trans hb.ge
  · have ha : t'.allowance owner spender = t.allowance owner spender - amount := by
      rw [allowance, passed.allowances]
      exact allowance_approve t owner spender _
    rw [ha]
    exact Nat.sub_add_cancel allowed

end Token

/-- Whether a holder's request draws on an owner. -/
def TokenRequest.drawsOn (u : Address) : TokenRequest → Prop
  | .drawFrom owner _ _ => owner = u
  | _ => False

/-- A holder's own request leaves everybody else's tokens alone. -/
theorem TokenRequest.balance_ge {r : TokenRequest} {caller u : Address} {t t' : Token}
    (h : r.apply caller t = .ok t') (hc : caller ≠ u) (hr : ¬ r.drawsOn u) :
    t.balance u ≤ t'.balance u := by
  cases r with
  | transfer target amount => exact (Token.move_ok h).passed.balance_ge hc
  | approve spender amount =>
    cases h
    exact le_rfl
  | drawFrom owner target amount => exact Token.draw_balance_ge h hr

/-! ## What an account owns -/

/-- Nothing that an account owns becomes less. -/
structure World.Leaves (w w' : World) (u : Address) : Prop where
  coins : w.coin.token.balance u ≤ w'.coin.token.balance u
  deposit : w'.pool.deposit u = w.pool.deposit u
  collateral : w.collateral.balance u + w.escrow.balance u ≤
    w'.collateral.balance u + w'.escrow.balance u

namespace World.Leaves

variable {w w₁ w' : World} {u : Address}

theorem refl (w : World) (u : Address) : w.Leaves w u := ⟨le_rfl, rfl, le_rfl⟩

theorem trans (h : w.Leaves w₁ u) (h' : w₁.Leaves w' u) : w.Leaves w' u :=
  ⟨h.coins.trans h'.coins, h'.deposit.trans h.deposit, h.collateral.trans h'.collateral⟩

end World.Leaves

/-! ## What the contracts give

The contracts give out of what they hold themselves, so no account has less
coins or collateral afterwards. -/

section Contracts

variable {u : Address} (account : Contract.find? u = none)

include account

theorem Token.payOut_balance_ge {t t' : Token} {c : Contract} {target : Address} {amount : Nat}
    (h : t.payOut c.address target amount = .ok t') : t.balance u ≤ t'.balance u :=
  (Token.payOut_passed h).balance_ge (Request.ne_contract account c).symm

theorem Token.settleLiquidation_balance_ge {t t' : Token} {liquidator : Address} {s : Split}
    (h : t.settleLiquidation liquidator s = .ok t') : t.balance u ≤ t'.balance u := by
  simp only [Token.settleLiquidation, Checked.bind_eq_ok] at h
  obtain ⟨t₁, h₁, t₂, h₂, h₃⟩ := h
  exact ((payOut_balance_ge account (c := .ledger) h₁).trans
    (payOut_balance_ge account (c := .ledger) h₂)).trans
    (payOut_balance_ge account (c := .ledger) h₃)

theorem Coin.repay_balance_ge {c c' : Coin} {a : Address} {amount : Nat}
    (h : c.repay a amount = .ok c') : c.token.balance u ≤ c'.token.balance u := by
  rw [repay] at h
  split at h
  · cases h
    exact le_rfl
  · exact (Token.move_ok (command_ok h).2.1).passed.balance_ge
      (Request.ne_contract account .stabilityPool).symm

theorem Coin.burnOffset_balance {c c' : Coin} {deposits debt : Nat}
    (h : c.burnOffset deposits debt = .ok c') : c'.token.balance u = c.token.balance u := by
  rw [burnOffset] at h
  split at h
  · cases h
    rfl
  · exact Token.burn_balance_other (command_ok h).2.1 (Request.ne_contract account .stabilityPool)

theorem Coin.settleLiquidation_balance_ge {c c' : Coin} {deposits : Nat} {liquidator : Address}
    {s : Split} (h : c.settleLiquidation deposits liquidator s = .ok c') :
    c.token.balance u ≤ c'.token.balance u := by
  simp only [Coin.settleLiquidation, Checked.bind_eq_ok, Checked.pure_eq_ok] at h
  obtain ⟨c₁, burnt, token, paid, rfl⟩ := h
  rw [← burnOffset_balance account burnt]
  exact Token.payOut_balance_ge account (c := .ledger) paid

end Contracts

theorem Stability.Pool.takeOffset_deposit {p q : Pool} {debt coll : Nat}
    (h : p.takeOffset debt coll = .ok q) (u : Address) : q.deposit u = p.deposit u := by
  rcases takeOffset_ok h with rfl | absorbed
  · rfl
  · obtain ⟨_, _, -, absorbed⟩ := absorb_ok absorbed
    exact absorbed.deposit_eq u

/-- A claim brings the owner in collateral what the escrow takes off its books. -/
theorem Escrow.release_worth {e e' : Escrow} {t t' : Token} {owner u : Address} {amount : Nat}
    (account : Contract.find? u = none) (released : e.release owner = .ok (e', amount))
    (paid : t.move escrowAddress owner amount = .ok t') :
    t.balance u + e.balance u ≤ t'.balance u + e'.balance u := by
  obtain ⟨rfl, -, -, -, left⟩ := release_ok released
  have hb := (Token.move_ok paid).passed.balance u
  have he : escrowAddress ≠ u := (Request.ne_contract account .escrow).symm
  rw [if_neg he, Nat.add_zero] at hb
  rw [hb, left u]
  split
  · next hu => rw [hu, Nat.add_zero]
  · omega

/-! ## Liquidations -/

namespace Protocol

variable {w w' : World} {u liquidator : Address}

theorem Liquidated.leaves {b : Address} {pending : Holding} {s : Split}
    (h : Liquidated w b liquidator pending s w') (account : Contract.find? u = none) :
    w.Leaves w' u := by
  refine ⟨Coin.settleLiquidation_balance_ge account h.coin,
    Stability.Pool.takeOffset_deposit h.pool u,
    Nat.add_le_add (Token.settleLiquidation_balance_ge account h.collateral) ?_⟩
  obtain ⟨-, -, surplus⟩ := Escrow.setAside_ok h.escrow
  rw [surplus u]
  exact Nat.le_add_right _ _

theorem Sweep.leaves {price : Nat} {t t' : Totals} (h : Sweep price liquidator w t w' t')
    (account : Contract.find? u = none) : w.Leaves w' u := by
  induction h with
  | done => exact .refl _ u
  | next _ out _ _ ih => exact (out.leaves account).trans ih

end Protocol

/-! ## One turn -/

/-- Whether a request draws on an owner's coins or collateral. -/
def Request.drawsOn (u : Address) : Request → Prop
  | .coin r | .collateral r => r.drawsOn u
  | _ => False

/-- A request of somebody else's that does not draw on an account leaves it all
that it owns. -/
theorem Step.leaves {w w' : World} {x u : Address} {r : Request} {k : Nat}
    (h : Step w (.call x r) k w') (confined : w.coin.Confined)
    (caller : Contract.find? x = none) (account : Contract.find? u = none) (hx : x ≠ u)
    (hr : ¬ r.drawsOn u) : w.Leaves w' u := by
  cases h with
  | collateral h => exact ⟨le_rfl, rfl, Nat.add_le_add_right (TokenRequest.balance_ge h hx hr) _⟩
  | faucet h => exact ⟨le_rfl, rfl, Nat.add_le_add_right (Token.mint_balance_ge h u) _⟩
  | coin h => exact ⟨TokenRequest.balance_ge h hx hr, rfl, le_rfl⟩
  | command h => exact absurd h (confined.not_commanded caller)
  | grant =>
    refine ⟨?_, rfl, le_rfl⟩
    show _ ≤ (w.coin.grant _).token.balance u
    rw [Coin.grant]
    split <;> exact le_rfl
  | provide h =>
    obtain ⟨gain, left, visited⟩ := Stability.Pool.provide_ok h.pool
    obtain ⟨gain', -, paid⟩ := h.collateral
    have coins := (Token.move_ok (Coin.command_ok h.coin).2.1).passed.balance_ge hx
    have collateral := Token.payOut_balance_ge account (c := .stabilityPool) paid
    rw [h.rest]
    exact ⟨coins, visited.deposit_other hx.symm, Nat.add_le_add_right collateral _⟩
  | withdraw h =>
    obtain ⟨gain, left, visited⟩ := Stability.Pool.withdraw_ok h.pool
    obtain ⟨gain', -, paid⟩ := h.collateral
    obtain ⟨left', -, repaid⟩ := h.coin
    have coins := Coin.repay_balance_ge account repaid
    have collateral := Token.payOut_balance_ge account (c := .stabilityPool) paid
    rw [h.rest]
    exact ⟨coins, visited.deposit_other hx.symm, Nat.add_le_add_right collateral _⟩
  | claim h =>
    obtain ⟨amount, released, paid⟩ := h.books
    have collateral := Escrow.release_worth account released paid
    rw [h.rest]
    exact ⟨le_rfl, rfl, collateral⟩
  | borrow h =>
    obtain ⟨c, minted, setAside⟩ := h.coin
    have coins := (Token.mint_balance_ge (Coin.command_ok minted).2.1 u).trans
      (Token.mint_balance_ge (Coin.command_ok setAside).2.1 u)
    have collateral := Token.draw_balance_ge h.collateral hx
    obtain ⟨d, -, -, rest⟩ := h.rest
    rw [rest]
    exact ⟨coins, rfl, Nat.add_le_add_right collateral _⟩
  | settle h =>
    rw [h.rest]
    exact ⟨le_rfl, rfl, le_rfl⟩
  | liquidate _ h =>
    obtain ⟨d, -, sweep⟩ := h.sweep
    have leaves := sweep.leaves account
    exact ⟨leaves.coins, leaves.deposit, leaves.collateral⟩
  | _ => exact ⟨le_rfl, rfl, le_rfl⟩

namespace Request

variable {w : World} {x u target : Address} {amount : Nat}

/-- A draw on coins changes nothing but the books it draws on. -/
theorem ensures_drawCoins : ((Request.coin (.drawFrom u target amount)).perform x).Ensures w
    fun _ w' => w.coin.token.Drawn u x amount w'.coin.token ∧
      w' = { w with coin := { w.coin with token := w'.coin.token } } := by
  simp only [perform, Action.ensures_bind, Protocol.ensures_onCoin, Action.ensures_pure]
  exact fun _ h => ⟨Token.draw_drawn h, trivial⟩

/-- A draw on collateral changes nothing but the books it draws on. -/
theorem ensures_drawCollateral :
    ((Request.collateral (.drawFrom u target amount)).perform x).Ensures w
      fun _ w' => w.collateral.Drawn u x amount w'.collateral ∧
        w' = { w with collateral := w'.collateral } := by
  simp only [perform, Action.ensures_bind, Protocol.ensures_onCollateral, Action.ensures_pure]
  exact fun _ h => ⟨Token.draw_drawn h, trivial⟩

end Request

/-- Nobody can take what another account owns.

In every reachable state in which the stablecoin obeys nobody but the ledger and
the pool, whatever somebody else asks of whichever contract leaves an account
all its coins, its deposit as it is, and all its collateral together with its
claimable surplus, unless the request draws on the account's tokens.  Such a
draw is refused and changes nothing, or it is within the allowance that the
account gave its caller, takes no more than it asks for, uses up as much of the
allowance, and touches nothing but the books of that one token. -/
theorem Deployment.possessions_kept {d : Deployment} {incentive? : Option Liquidation.Incentive}
    {o : Outcome Unit} (start : d.start (some { incentive? }) = .ok o) {ts : List Turn}
    (outside : ∀ t ∈ ts, t.outside) (confined : (o.world.after ts).coin.Confined)
    {x u : Address} (caller : Contract.find? x = none) (account : Contract.find? u = none)
    (other : x ≠ u) (r : Request) :
    let w := o.world.after ts
    let w' := ((Turn.call x r).take w).1
    (¬ r.drawsOn u → w.Leaves w' u) ∧
      (∀ target amount, r = .coin (.drawFrom u target amount) → w' = w ∨
        w.coin.token.Drawn u x amount w'.coin.token ∧
          w' = { w with coin := { w.coin with token := w'.coin.token } }) ∧
      ∀ target amount, r = .collateral (.drawFrom u target amount) → w' = w ∨
        w.collateral.Drawn u x amount w'.collateral ∧
          w' = { w with collateral := w'.collateral } := by
  have wired := (start_ready start).wired.after outside
  have step := Turn.step wired (t := .call x r) caller
  refine ⟨fun hr => step.leaves confined caller account other hr, ?_, ?_⟩
  · rintro target amount rfl
    exact Turn.take_call Request.ensures_drawCoins
  · rintro target amount rfl
    exact Turn.take_call Request.ensures_drawCollateral

/-- An account whose trove was liquidated at the cap has a surplus to claim and
lets somebody draw on its coins. -/
def Deployment.surplusAndAllowance : List Turn :=
  mixedModes ++
  [.call (.account 9) (.liquidateOne (.account 2)),
   .call (.account 2) (.coin (.approve (.account 9) (100 * Amount.one)))]

theorem Deployment.possessions_kept_surplusAndAllowance :
    ∃ o, plain.start (some { incentive? := none }) = .ok o ∧
      (∀ t ∈ surplusAndAllowance, t.outside) ∧
      let w := o.world.after surplusAndAllowance
      let x := Address.account 9
      let u := Address.account 2
      w.coin.Confined ∧ Contract.find? x = none ∧ Contract.find? u = none ∧ x ≠ u ∧
        w.coin.token.balance u = 400 * Amount.one ∧ w.escrow.balance u = 111111111111111112 ∧
        (let w' := ((Turn.call x (.coin (.drawFrom u x (40 * Amount.one)))).take w).1
        w'.coin.token.balance u = 360 * Amount.one ∧
          w.coin.token.Drawn u x (40 * Amount.one) w'.coin.token) ∧
        let w' := ((Turn.call x (.claimSurplus u)).take w).1
        w'.escrow.balance u = 0 ∧ w.Leaves w' u := by
  obtain ⟨o, ho, hp, hcoins, hsurplus, hdrawn, hclaimed⟩ : ∃ o,
      plain.start (some { incentive? := none }) = .ok o ∧
      let w := o.world.after surplusAndAllowance
      let x := Address.account 9
      let u := Address.account 2
      w.coin.protocols = [ledgerAddress, poolAddress] ∧
        w.coin.token.balance u = 400 * Amount.one ∧ w.escrow.balance u = 111111111111111112 ∧
        ((Turn.call x (.coin (.drawFrom u x (40 * Amount.one)))).take w).1.coin.token.balance u =
          360 * Amount.one ∧
        ((Turn.call x (.claimSurplus u)).take w).1.escrow.balance u = 0 :=
    Checked.exists_ok (by decide +kernel)
  have hout : ∀ t ∈ surplusAndAllowance, t.outside := by decide +kernel
  have hconf := Coin.confined_of_protocols hp
  have hx : Contract.find? (.account 9) = none := rfl
  have hu : Contract.find? (.account 2) = none := rfl
  have hne : Address.account 9 ≠ .account 2 := by decide
  refine ⟨o, ho, hout, hconf, hx, hu, hne, hcoins, hsurplus, ⟨hdrawn, ?_⟩, hclaimed, ?_⟩
  · obtain ⟨-, hdraw, -⟩ := possessions_kept ho hout hconf hx hu hne
      (.coin (.drawFrom (.account 2) (.account 9) (40 * Amount.one)))
    rcases hdraw _ _ rfl with hsame | ⟨hdraw, -⟩
    · rw [hsame, hcoins] at hdrawn
      exact absurd hdrawn (by decide)
    · exact hdraw
  · exact (possessions_kept ho hout hconf hx hu hne (.claimSurplus (.account 2))).1 id

end Troves
