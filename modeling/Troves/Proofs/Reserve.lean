/-
# Earmarked coins

The stability pool has the coins that are deposited in it, and the ledger has
set aside what a liquidator of each open trove is to be paid.  As long as only
these two command the stablecoin, both have exactly that and what somebody
sent them directly.
-/
import Troves.Proofs.Backing
import Troves.Proofs.Custody

namespace Troves

open Protocol (poolAddress ledgerAddress Liquidated Due Sweep)
open Liquidation (Split Totals)

/-! ## How many troves are open -/

namespace Ledger

variable {l l' : Ledger} {a b : Address}

/-- Every open trove has a slot, and nobody else does. -/
def Counted (l : Ledger) : Prop := l.owners.length = l.openTroves.card

theorem close_owners {st : Trove.Status} (h : l.owners ≠ []) :
    (l.close b st).owners.length = l.owners.length - 1 := by
  show (l.vacate (l.trove b).slot).owners.length = _
  rw [vacate]
  split
  · exact List.length_dropLast
  · split
    · next hn => exact absurd (List.getLast?_eq_none_iff.1 hn) h
    · simp

theorem Counted.enroll {holding : Holding} (h : l.Counted) (ha : l.isActive a = false)
    (hl : l.enroll a holding = .ok l') : l'.Counted := by
  have hn : a ∉ l.openTroves := by simp [ha]
  rw [Counted, (enroll_ok hl).openTroves, Finset.card_insert_of_notMem hn, ← h, enroll_owners hl,
    List.length_append, List.length_singleton]

theorem Counted.takeOut {pending : Holding} (h : l.Counted) (hb : l.isActive b = true)
    (hl : l.takeOut b pending = .ok l') :
    l'.Counted ∧ l.owners.length = l'.owners.length + 1 := by
  have hcard := Finset.card_erase_add_one (mem_openTroves.2 hb)
  have hne : l.owners ≠ [] := by
    intro hn
    rw [Counted, hn, List.length_nil] at h
    omega
  have hopen := (takeOut_ok hl).openTroves
  have hlen : l'.owners.length = l.owners.length - 1 := by
    simp only [Ledger.takeOut, dropStake, Checked.bind_eq_ok, Checked.pure_eq_ok] at hl
    obtain ⟨l₁, h₁, l₂, ⟨stakes, -, hl₂⟩, rfl⟩ := hl
    obtain ⟨d, p, -, rfl, -⟩ := activate_ok h₁
    subst hl₂
    exact close_owners (by exact hne)
  rw [Counted] at h ⊢
  rw [hopen]
  omega

theorem Counted.congr (h : l.Counted) (ht : l'.troves = l.troves) (ho : l'.owners = l.owners) :
    l'.Counted := by
  have hopen : l'.openTroves = l.openTroves := by
    ext a
    rw [mem_openTroves, mem_openTroves, isActive, isActive, trove, trove, ht]
  rw [Counted, hopen, ho]
  exact h

theorem Counted.liquidate {pending : Holding} {s : Split} (h : l.Counted)
    (hb : l.isActive b = true) (hl : l.liquidate b pending s = .ok l') :
    l'.Counted ∧ l.owners.length = l'.owners.length + 1 := by
  obtain ⟨l₁, h₁, ht, ho, -⟩ := liquidate_records hl
  obtain ⟨hc, hlen⟩ := h.takeOut hb h₁
  exact ⟨hc.congr ht ho, by rw [ho]; exact hlen⟩

theorem Counted.settle {s : Accrual.Settlement} (h : l.Counted) (hb : l.isActive b = true)
    (hs : l.settlement b = .ok s) (ht : SettledIn l b s l') :
    l'.Counted ∧ l'.owners = l.owners := by
  have ho : l'.owners = l.owners := by rw [ht.kept]
  have hopen := ht.openTroves hb hs
  refine ⟨?_, ho⟩
  rw [Counted, hopen, ho]
  exact h

/-- The coins set aside for the liquidators of all open troves. -/
def reserve (l : Ledger) : Nat := l.owners.length * l.incentive.debtCompensation

/-- A trove opened has its liquidator's payment set aside. -/
theorem reserve_enroll {holding : Holding} (hl : l.enroll a holding = .ok l') :
    l'.reserve = l.reserve + l.incentive.debtCompensation := by
  have hi : l'.incentive = l.incentive := by rw [(enroll_ok hl).kept]
  rw [reserve, reserve, enroll_owners hl, hi, List.length_append, List.length_singleton,
    Nat.add_mul, Nat.one_mul]

/-- A trove liquidated gives it back. -/
theorem reserve_liquidate {pending : Holding} {s : Split} (h : l.Counted)
    (hb : l.isActive b = true) (hl : l.liquidate b pending s = .ok l') :
    l.reserve = l'.reserve + l.incentive.debtCompensation := by
  obtain ⟨l₁, h₁, -, -, -, hi⟩ := liquidate_records hl
  have hi : l'.incentive = l.incentive := by rw [hi, (takeOut_ok h₁).kept]
  rw [reserve, reserve, (h.liquidate hb hl).2, hi, Nat.add_mul, Nat.one_mul]

theorem reserve_settle {s : Accrual.Settlement} (h : l.Counted) (hb : l.isActive b = true)
    (hs : l.settlement b = .ok s) (ht : SettledIn l b s l') : l'.reserve = l.reserve := by
  have hi : l'.incentive = l.incentive := by rw [ht.kept]
  rw [reserve, reserve, (h.settle hb hs ht).2, hi]

end Ledger

/-! ## Coins on the books -/

/-- What a request sends directly of the stablecoin. -/
def Request.coinsTo (a : Address) : Request → Nat
  | .coin r => r.sentTo a
  | _ => 0

/-- The stablecoin that a turn sends directly to an address. -/
def Turn.sentCoins (t : Turn) (w : World) (a : Address) : Nat :=
  match t with
  | .call caller request =>
    match request.perform caller w with
    | .ok _ => request.coinsTo a
    | .error _ => 0
  | .wait _ => 0

/-- The coins are where the books say, except for what was sent. -/
structure World.Reserved (w : World) (sent : Address → Nat) : Prop where
  counted : w.ledger.Counted
  pool : w.coin.token.Holds poolAddress (w.pool.total + sent poolAddress)
  ledger : w.coin.token.Holds ledgerAddress (w.ledger.reserve + sent ledgerAddress)

namespace World.Reserved

variable {w w' : World} {sent : Address → Nat}

/-- What an offset burns is the pool's, and without deposits nothing is burnt. -/
theorem burnt {c : Coin} {deposits debt m n : Nat} (hp : w.coin.token.Holds poolAddress (n + debt))
    (hl : w.coin.token.Holds ledgerAddress m) (covered : debt ≤ deposits)
    (h : w.coin.burnOffset deposits debt = .ok c) :
    c.token.Holds poolAddress n ∧ c.token.Holds ledgerAddress m := by
  rw [Coin.burnOffset] at h
  split at h
  · next hz =>
    cases h
    have hz : debt = 0 := by omega
    rw [hz] at hp
    exact ⟨hp, hl⟩
  · obtain ⟨-, hb, -⟩ := Coin.command_ok h
    exact ⟨hp.burn hb, hl.burnOther hb (by decide)⟩

/-- A liquidation burns the coins that it takes off the pool's books and pays
out what was set aside for the trove. -/
theorem liquidated {b liquidator : Address} {price : Nat} {e : Entire} {s : Split}
    (hw : w.Reserved sent) (outside : Contract.find? liquidator = none)
    (due : Due w b price e s) (h : Liquidated w b liquidator e.pending s w') :
    w'.Reserved sent := by
  have hcoin := h.coin
  simp only [Coin.settleLiquidation, Checked.bind_eq_ok, Checked.pure_eq_ok] at hcoin
  obtain ⟨c, hb, t, ht, hc⟩ := hcoin
  have ht := Token.payOut_passed ht
  obtain ⟨htotal, -⟩ := Stability.Pool.takeOffset_books due.exact.covered h.pool
  have hcomp : s.debtCompensation = w.ledger.incentive.debtCompensation := by
    obtain ⟨total, -, hs⟩ := due.split
    exact (Liquidation.split?_whole hs).2.2
  have hreserve : w.ledger.reserve = w'.ledger.reserve + s.debtCompensation := by
    rw [hcomp]
    exact Ledger.reserve_liquidate hw.counted due.active h.ledger
  have hpool : w.coin.token.Holds poolAddress
      (w'.pool.total + sent poolAddress + s.debtToOffset) := by
    convert hw.pool using 1
    omega
  obtain ⟨hpool, hledger⟩ := burnt hpool hw.ledger due.exact.covered hb
  have hledger : c.token.Holds ledgerAddress
      (w'.ledger.reserve + sent ledgerAddress + s.debtCompensation) := by
    convert hledger using 1
    omega
  have htoken : w'.coin.token = t := by rw [← hc]
  have hl := Request.ne_contract outside .ledger
  have hp := Request.ne_contract outside .stabilityPool
  refine ⟨(hw.counted.liquidate due.active h.ledger).1, ?_, ?_⟩
  · rw [htoken]
    exact hpool.passed ht (by decide) hp.symm
  · rw [htoken]
    exact hledger.loses ht hl.symm

theorem sweep {price : Nat} {liquidator : Address} {t t' : Totals} (hw : w.Reserved sent)
    (outside : Contract.find? liquidator = none)
    (h : Sweep price liquidator w t w' t') : w'.Reserved sent := by
  induction h with
  | done => exact hw
  | next due out _ _ ih => exact ih (hw.liquidated outside due out)

/-- Whoever opens a trove has the compensation of its liquidator set aside. -/
theorem opened {a : Address} {holding : Holding} {hint : TroveList.Slot}
    (hw : w.Reserved sent) (outside : Contract.find? a = none)
    (h : Protocol.Opened w a holding hint w') : w'.Reserved sent := by
  obtain ⟨l, he, pool, -, hl, -⟩ := h.enrolled
  obtain ⟨d, -, -, hr⟩ := h.rest
  obtain ⟨c, hm, hm'⟩ := h.coin
  obtain ⟨-, hm, -⟩ := Coin.command_ok hm
  obtain ⟨-, hm', -⟩ := Coin.command_ok hm'
  have hp : a ≠ poolAddress := Request.ne_contract outside .stabilityPool
  have hg : a ≠ ledgerAddress := Request.ne_contract outside .ledger
  have hreserve : w'.ledger.reserve =
      w.ledger.reserve + w.ledger.incentive.debtCompensation := by
    rw [hl, ← Ledger.reserve_enroll he]
    rfl
  refine ⟨?_, ?_, ?_⟩
  · rw [hl]
    exact (hw.counted.enroll h.inactive he).congr rfl rfl
  · have hk := (hw.pool.mint hm).mint hm'
    rw [if_neg hp, if_neg (by decide)] at hk
    have hpool : w'.pool = w.pool := by rw [hr]
    rw [hpool]
    exact hk
  · have hk := (hw.ledger.mint hm).mint hm'
    rw [if_neg hg, if_pos rfl] at hk
    rw [hreserve]
    convert hk using 1
    omega

/-- A deposit comes with its coins. -/
theorem provided {a : Address} {amount : Nat} (hw : w.Reserved sent)
    (outside : Contract.find? a = none) (h : Protocol.Provided w a amount w') :
    w'.Reserved sent := by
  obtain ⟨-, hm, -⟩ := Coin.command_ok h.coin
  have hm := (Token.move_ok hm).passed
  obtain ⟨gain, left, hv⟩ := Stability.Pool.provide_ok h.pool
  have ht := hv.total
  have hp := Request.ne_contract outside .stabilityPool
  have hl := Request.ne_contract outside .ledger
  have hk : w'.coin.token.Holds poolAddress (w'.pool.total + sent poolAddress) := by
    convert hw.pool.gains hm hp.symm using 1
    omega
  rw [h.rest]
  exact ⟨hw.counted, hk, hw.ledger.passed hm hl.symm (by decide)⟩

/-- A withdrawal takes coins and books them out. -/
theorem withdrawn {a : Address} {amount : Nat} (hw : w.Reserved sent)
    (outside : Contract.find? a = none) (h : Protocol.Withdrawn w a amount w') :
    w'.Reserved sent := by
  obtain ⟨left, hl, hc⟩ := h.coin
  obtain ⟨gain, left', hv⟩ := Stability.Pool.withdraw_ok h.pool
  have hsame : left' = left := Except.ok.inj (hv.found.symm.trans hl)
  subst hsame
  have ht := hv.total
  have hp := Request.ne_contract outside .stabilityPool
  have hg := Request.ne_contract outside .ledger
  have hk : w.coin.token.Holds poolAddress
      (w'.pool.total + sent poolAddress + min amount left') := by
    convert hw.pool using 1
    omega
  rw [h.rest]
  rw [Coin.repay] at hc
  split at hc
  · next hz =>
    rw [← Except.ok.inj hc]
    rw [hz] at hk
    exact ⟨hw.counted, hk, hw.ledger⟩
  · obtain ⟨-, hm, -⟩ := Coin.command_ok hc
    have hm := (Token.move_ok hm).passed
    exact ⟨hw.counted, hk.loses hm hp.symm, hw.ledger.passed hm (by decide) hg.symm⟩

theorem settled {b : Address} {s : Accrual.Settlement} (hw : w.Reserved sent)
    (h : Protocol.Settled w b s w') : w'.Reserved sent := by
  have hl := h.booked
  have hk := hw.ledger
  rw [← Ledger.reserve_settle hw.counted h.active h.settlement hl] at hk
  rw [h.rest]
  exact ⟨(hw.counted.settle h.active h.settlement hl).1, hw.pool, hk⟩

/-- The payment only changes while there is nobody to set it aside for. -/
theorem repriced {i : Liquidation.Incentive} (hw : w.Reserved sent)
    (unused : w.ledger.owners = []) :
    Reserved { w with ledger := { w.ledger with incentive := i } } sent := by
  refine ⟨hw.counted.congr rfl rfl, hw.pool, ?_⟩
  have hk := hw.ledger
  rw [Ledger.reserve, unused, List.length_nil, Nat.zero_mul] at hk
  show w.coin.token.Holds ledgerAddress (w.ledger.owners.length * _ + sent ledgerAddress)
  rw [unused, List.length_nil, Nat.zero_mul]
  exact hk

/-- No turn but a direct request to the stablecoin parts the coins from the
books. -/
theorem step {caller : Address} {r : Request} {k : Nat} (hw : w.Reserved sent)
    (confined : w.coin.Confined) (outside : Contract.find? caller = none)
    (direct : ∀ q, r ≠ .coin q) (h : Step w (.call caller r) k w') : w'.Reserved sent := by
  cases h with
  | coin => exact absurd rfl (direct _)
  | command h => exact absurd h (confined.not_commanded outside)
  | grant =>
    dsimp only [Coin.grant]
    split
    · exact ⟨hw.counted, hw.pool, hw.ledger⟩
    · exact ⟨hw.counted, hw.pool, hw.ledger⟩
  | incentive unused => exact hw.repriced unused
  | provide h => exact hw.provided outside h
  | withdraw h => exact hw.withdrawn outside h
  | claim h =>
    rw [h.rest]
    exact ⟨hw.counted, hw.pool, hw.ledger⟩
  | borrow h => exact hw.opened outside h
  | settle h => exact hw.settled h
  | liquidate _ h =>
    obtain ⟨d, -, hs⟩ := h.sweep
    exact sweep (w := { w with feed := w.feed.follow d }) ⟨hw.counted, hw.pool, hw.ledger⟩
      outside hs
  | _ => exact ⟨hw.counted, hw.pool, hw.ledger⟩

/-- A turn leaves on the side what it sends directly. -/
theorem take {t : Turn} (hw : w.Reserved sent) (confined : w.coin.Confined) (wired : w.Wired)
    (outside : t.outside) : (t.take w).1.Reserved fun a => sent a + t.sentCoins w a := by
  cases t with
  | wait milliseconds =>
    obtain ⟨time, h⟩ := Turn.take_wait (w := w)
    rw [h]
    exact ⟨hw.counted, hw.pool, hw.ledger⟩
  | call caller r =>
    cases h : r.perform caller w with
    | error e =>
      simp only [Turn.take, Turn.sentCoins, h]
      exact hw
    | ok o =>
      simp only [Turn.take, Turn.sentCoins, h]
      cases r with
      | coin q =>
        have hc : ((Request.coin q).perform caller).Ensures w fun _ w' =>
            w'.Reserved fun a => sent a + q.sentTo a := by
          simp only [Request.perform, Action.ensures_bind, Protocol.ensures_onCoin,
            Action.ensures_pure]
          intro token ht
          refine ⟨hw.counted, ?_, ?_⟩
          · rw [← Nat.add_assoc]
            exact hw.pool.request (Request.ne_contract outside .stabilityPool) ht
          · rw [← Nat.add_assoc]
            exact hw.ledger.request (Request.ne_contract outside .ledger) ht
        exact hc o h
      | _ =>
        exact hw.step confined outside (fun _ he => by cases he)
          (Request.ensures_perform wired outside _ o h)

theorem after {ts : List Turn} (hw : w.Reserved sent) (wired : w.Wired)
    (outside : ∀ t ∈ ts, t.outside) (confined : ∀ us, us <+: ts → (w.after us).coin.Confined) :
    (w.after ts).Reserved fun a => sent a + w.totalOf (fun t w => t.sentCoins w a) ts := by
  induction ts generalizing w sent with
  | nil => exact hw
  | cons t ts ih =>
    have ht := outside t List.mem_cons_self
    have hfirst := hw.take (confined [] List.nil_prefix) wired ht
    simp only [totalOf, ← Nat.add_assoc]
    exact ih hfirst ((Turn.step wired ht).wired wired)
      (fun u hu => outside u (List.mem_cons_of_mem t hu))
      (fun us hus => confined (t :: us) (List.cons_prefix_cons.2 ⟨rfl, hus⟩))

end World.Reserved

theorem Deployment.Ready.reserved {d : Deployment} {w : World} (h : d.Ready w) :
    w.Reserved fun _ => 0 := by
  obtain ⟨i, hi⟩ := h.ledger
  have hholds (a : Address) : w.coin.token.Holds a 0 := by
    rw [h.coin]
    exact ⟨Token.sound_new, rfl, fun _ => rfl⟩
  have hreserve : w.ledger.reserve = 0 := by
    rw [hi]
    exact Nat.zero_mul _
  refine ⟨?_, ?_, ?_⟩
  · rw [hi]
    rfl
  · rw [h.pool]
    exact hholds _
  · rw [hreserve]
    exact hholds _

/-! ## What the balances are -/

/-- Whether a turn asks for coins to be sent directly to an address. -/
def Turn.sendsCoins (a : Address) : Turn → Prop
  | .call _ r => r.coinsTo a ≠ 0
  | .wait _ => False

instance : (t : Turn) → (a : Address) → Decidable (t.sendsCoins a)
  | .call _ r, a => inferInstanceAs (Decidable (¬ r.coinsTo a = 0))
  | .wait _, _ => instDecidableFalse

theorem Turn.sentCoins_eq_zero {t : Turn} {w : World} {a : Address} (h : ¬ t.sendsCoins a) :
    t.sentCoins w a = 0 := by
  cases t with
  | wait => rfl
  | call caller r =>
    have hz : r.coinsTo a = 0 := Decidable.not_not.1 h
    rw [sentCoins]
    split
    · exact hz
    · rfl

/-- A run comes to nothing if none of its turns does, whatever the world. -/
theorem World.totalOf_eq_zero {f : Turn → World → Nat} {w : World} {ts : List Turn}
    (h : ∀ t ∈ ts, ∀ w, f t w = 0) : w.totalOf f ts = 0 := by
  induction ts generalizing w with
  | nil => rfl
  | cons t ts ih =>
    rw [totalOf, h t List.mem_cons_self, Nat.zero_add]
    exact ih fun u hu => h u (List.mem_cons_of_mem t hu)

/-- The pool has the coins that are deposited in it and the ledger those that
liquidators are to be paid, in every state of a run in which the stablecoin
never obeys anybody but these two.  What they have beyond that was sent to
them directly, so if nobody sends them any, they have no more. -/
theorem Deployment.coins_earmarked {d : Deployment} {incentive? : Option Liquidation.Incentive}
    {o : Outcome Unit} (start : d.start (some { incentive? }) = .ok o) {ts : List Turn}
    (outside : ∀ t ∈ ts, t.outside)
    (confined : ∀ us, us <+: ts → (o.world.after us).coin.Confined) :
    let w := o.world.after ts
    let sent (a : Address) := o.world.totalOf (fun t w => t.sentCoins w a) ts
    let pay := w.ledger.incentive.debtCompensation * w.ledger.owners.length
    w.pool.total ≤ w.coin.token.balance poolAddress ∧
      pay ≤ w.coin.token.balance ledgerAddress ∧
      w.coin.token.balance poolAddress = w.pool.total + sent poolAddress ∧
      w.coin.token.balance ledgerAddress = pay + sent ledgerAddress ∧
      ((∀ t ∈ ts, ¬ t.sendsCoins poolAddress) →
        w.coin.token.balance poolAddress = w.pool.total) ∧
      ((∀ t ∈ ts, ¬ t.sendsCoins ledgerAddress) →
        w.coin.token.balance ledgerAddress = pay) := by
  intro w sent pay
  have hr := start_ready start
  have h := hr.reserved.after hr.wired outside confined
  simp only [Nat.zero_add] at h
  have hpool : w.coin.token.balance poolAddress = w.pool.total + sent poolAddress :=
    h.pool.balance
  have hledger : w.coin.token.balance ledgerAddress = pay + sent ledgerAddress := by
    have hb := h.ledger.balance
    rwa [Ledger.reserve, Nat.mul_comm] at hb
  have unsent {a : Address} (hn : ∀ t ∈ ts, ¬ t.sendsCoins a) : sent a = 0 :=
    World.totalOf_eq_zero fun t ht _ => Turn.sentCoins_eq_zero (hn t ht)
  refine ⟨by omega, by omega, hpool, hledger, fun hn => ?_, fun hn => ?_⟩
  · rw [hpool, unsent hn, Nat.add_zero]
  · rw [hledger, unsent hn, Nat.add_zero]

/-- The payment of liquidators is set to nothing, the only trove is liquidated
and the payment set again; then a trove is opened, and its owner deposits coins
and sends some to the ledger. -/
def Deployment.repriced : List Turn :=
  [.call (.account 0) (.setIncentive { debtCompensation := 0 })] ++
  Turn.opening (.account 1) (5 * Amount.one) (500 * Amount.one) ++
  [.call (.account 1) (.provide (500 * Amount.one)), .pricing 10900000000,
   .call (.account 3) (.liquidateOne (.account 1)),
   .call (.account 0) (.setIncentive { debtCompensation := 50 * Amount.one })] ++
  Turn.opening (.account 2) (10 * Amount.one) (500 * Amount.one) ++
  [.call (.account 2) (.provide (100 * Amount.one)),
   .call (.account 2) (.coin (.transfer ledgerAddress 7))]

theorem Deployment.coins_earmarked_repriced :
    ∃ o, plain.start (some { incentive? := none }) = .ok o ∧
      (∀ t ∈ repriced, t.outside) ∧
      (∀ us, us <+: repriced → (o.world.after us).coin.Confined) ∧
      (∀ t ∈ repriced, ¬ t.sendsCoins poolAddress) ∧
      let w := o.world.after repriced
      o.world.totalOf (fun t w => t.sentCoins w ledgerAddress) repriced = 7 ∧
        w.ledger.owners = [.account 2] ∧
        w.coin.token.balance poolAddress = w.pool.total ∧
        w.coin.token.balance ledgerAddress =
          w.ledger.incentive.debtCompensation * w.ledger.owners.length +
            o.world.totalOf (fun t w => t.sentCoins w ledgerAddress) repriced := by
  obtain ⟨o, ho, hs⟩ : ∃ o, plain.start (some { incentive? := none }) = .ok o ∧
      o.world.totalOf (fun t w => t.sentCoins w ledgerAddress) repriced = 7 ∧
      (o.world.after repriced).ledger.owners = [.account 2] :=
    Checked.exists_ok (by decide +kernel)
  have hout : ∀ t ∈ repriced, t.outside := by decide +kernel
  have hrights : ∀ t ∈ repriced, t.keepsRights := by decide +kernel
  have hconf : ∀ us, us <+: repriced → (o.world.after us).coin.Confined := fun us hus =>
    Coin.confined_of_protocols ((start_ready ho).coinsKept_after hout hrights hus).protocols
  have hunsent : ∀ t ∈ repriced, ¬ t.sendsCoins poolAddress := by decide +kernel
  obtain ⟨-, -, -, hledger, hpool, -⟩ := coins_earmarked ho hout hconf
  exact ⟨o, ho, hout, hconf, hunsent, hs.1, hs.2, hpool hunsent, hledger⟩

end Troves
