/-
# Token books

Balances add up to the supply, so an amount that a holder has can always be
moved; and a holder who lets nobody draw, and gives nothing away itself,
never loses anything.
-/
import Troves.Proofs.Effects
import Mathlib.Order.Nat

namespace Troves

theorem Table.le_sum {κ : Type} [DecidableEq κ] (t : Table κ Nat) (k : κ) :
    t.getD k 0 ≤ t.sum fun _ n => n := by
  have h := t.sum_set k 0 fun _ n => n
  simp only [Option.map_id', Nat.add_zero] at h
  rw [getD]
  omega

/-- What a holder's request sends to an address. -/
def TokenRequest.sentTo (a : Address) : TokenRequest → Nat
  | .transfer target n | .drawFrom _ target n => if target = a then n else 0
  | .approve _ _ => 0

namespace Token

variable {t t' : Token}

/-- Balances add up to the supply, and the supply is an amount. -/
structure Sound (t : Token) : Prop where
  supply : (t.balances.sum fun _ n => n) = t.supply
  supply_lt : t.supply < Amount.limit

theorem sound_new : Sound {} := ⟨rfl, by decide⟩

theorem balance_setBalance (t : Token) (a b : Address) (n : Nat) :
    (t.setBalance a n).balance b = if a = b then n else t.balance b :=
  Table.getD_set t.balances a b n 0

theorem sum_setBalance (t : Token) (a : Address) (n : Nat) :
    ((t.setBalance a n).balances.sum fun _ n => n) + t.balance a =
      (t.balances.sum fun _ n => n) + n := by
  have h := t.balances.sum_set a n fun _ n => n
  simp only [Option.map_id'] at h
  exact h

theorem balance_le_sum (t : Token) (a : Address) :
    t.balance a ≤ t.balances.sum fun _ n => n :=
  Table.le_sum t.balances a

/-! ## Moving -/

/-- What a move leaves behind. -/
structure Moved (t : Token) (source target : Address) (amount : Nat) (t' : Token) : Prop where
  covered : amount ≤ t.balance source
  after : t' = (t.setBalance source (t.balance source - amount)).setBalance target
    ((t.setBalance source (t.balance source - amount)).balance target + amount)

variable {source target a : Address} {amount : Nat}

theorem move_ok (h : t.move source target amount = .ok t') : Moved t source target amount t' := by
  simp only [move, Checked.bind_eq_ok, require_eq_ok, decide_eq_true_eq, Amount.add_eq_ok,
    Checked.pure_eq_ok] at h
  obtain ⟨_, hc, _, ⟨-, rfl⟩, rfl⟩ := h
  exact ⟨hc, rfl⟩

namespace Moved

theorem sound (h : Moved t source target amount t') (ht : t.Sound) : t'.Sound := by
  have h₁ := sum_setBalance t source (t.balance source - amount)
  have h₂ := sum_setBalance (t.setBalance source (t.balance source - amount)) target
    ((t.setBalance source (t.balance source - amount)).balance target + amount)
  rw [← h.after] at h₂
  have hs : t'.supply = t.supply := by
    rw [h.after]
    rfl
  have hc := h.covered
  have hsum := ht.supply
  refine ⟨?_, hs ▸ ht.supply_lt⟩
  rw [hs]
  omega

/-- Who does not give keeps at least what it had. -/
theorem balance_ge (h : Moved t source target amount t') (ha : a ≠ source) :
    t.balance a ≤ t'.balance a := by
  rw [h.after, balance_setBalance, balance_setBalance, balance_setBalance,
    if_neg ha.symm]
  split
  · next hta =>
    rw [if_neg (hta ▸ ha.symm), hta]
    exact Nat.le_add_right _ _
  · exact le_rfl

theorem balance_target (h : Moved t source target amount t') (hne : target ≠ source) :
    t'.balance target = t.balance target + amount := by
  rw [h.after, balance_setBalance, if_pos rfl, balance_setBalance, if_neg hne.symm]

/-- Who gives keeps at least the rest. -/
theorem balance_source_ge (h : Moved t source target amount t') :
    t.balance source - amount ≤ t'.balance source := by
  rw [h.after, balance_setBalance, balance_setBalance, balance_setBalance, if_pos rfl]
  split
  · next hts =>
    rw [if_pos hts.symm]
    exact Nat.le_add_right _ _
  · exact le_rfl

theorem allowances (h : Moved t source target amount t') : t'.allowances = t.allowances := by
  rw [h.after]
  rfl

theorem supply (h : Moved t source target amount t') : t'.supply = t.supply := by
  rw [h.after]
  rfl

/-- What one loses the other gains, and a move to oneself changes nothing. -/
theorem balance (h : Moved t source target amount t') (a : Address) :
    t'.balance a + (if source = a then amount else 0) =
      t.balance a + (if target = a then amount else 0) := by
  have hc := h.covered
  rw [h.after]
  simp only [balance_setBalance]
  by_cases hs : source = a
  · subst hs
    by_cases ht : target = source
    · subst ht
      simp only [if_pos]
      omega
    · simp only [if_pos, if_neg ht]
      omega
  · by_cases ht : target = a
    · subst ht
      simp only [if_pos, if_neg hs]
      omega
    · simp only [if_neg hs, if_neg ht]

end Moved

/-- Only who holds what has changed. -/
structure Reshuffled (t t' : Token) : Prop where
  sound : t.Sound → t'.Sound
  supply : t'.supply = t.supply

/-- An amount passed on from one holder to another. -/
structure Passed (t : Token) (source target : Address) (amount : Nat) (t' : Token) : Prop
    extends Reshuffled t t' where
  balance : ∀ a, t'.balance a + (if source = a then amount else 0) =
    t.balance a + (if target = a then amount else 0)
  allowances : t'.allowances = t.allowances

theorem Moved.passed (h : Moved t source target amount t') : Passed t source target amount t' :=
  ⟨⟨h.sound, h.supply⟩, h.balance, h.allowances⟩

theorem payOut_passed (h : t.payOut source target amount = .ok t') :
    Passed t source target amount t' := by
  rw [Token.payOut] at h
  split at h
  · next hn =>
    cases h
    subst hn
    exact ⟨⟨id, rfl⟩, fun a => by simp, rfl⟩
  · exact (move_ok h).passed

theorem approve_reshuffled (owner spender : Address) :
    Reshuffled t (t.approve owner spender amount) :=
  ⟨fun ht => ⟨ht.supply, ht.supply_lt⟩, rfl⟩

/-- Who draws has the allowance, and it is used up first. -/
theorem draw_ok {spender owner : Address} (h : t.draw spender owner target amount = .ok t') :
    amount ≤ t.allowance owner spender ∧
      Passed (t.approve owner spender (t.allowance owner spender - amount)) owner target amount
        t' := by
  simp only [draw, Checked.bind_eq_ok, require_eq_ok, decide_eq_true_eq] at h
  obtain ⟨_, hle, hm⟩ := h
  exact ⟨hle, (move_ok hm).passed⟩

theorem request_reshuffled {r : TokenRequest} {caller : Address}
    (h : r.apply caller t = .ok t') : Reshuffled t t' := by
  cases r with
  | transfer target n => exact (move_ok h).passed.toReshuffled
  | approve spender n =>
    cases h
    exact approve_reshuffled caller spender
  | drawFrom owner target n =>
    have hp := (draw_ok h).2
    exact ⟨fun ht => hp.sound ⟨ht.supply, ht.supply_lt⟩, hp.supply⟩

/-- An amount that the source has can be moved. -/
theorem move_succeeds (ht : t.Sound) (target : Address) (h : amount ≤ t.balance source) :
    ∃ t', t.move source target amount = .ok t' := by
  have h₁ := sum_setBalance t source (t.balance source - amount)
  have hle := balance_le_sum (t.setBalance source (t.balance source - amount)) target
  have hs := ht.supply
  have hl := ht.supply_lt
  have hfit : (t.setBalance source (t.balance source - amount)).balance target + amount <
      Amount.limit := by omega
  refine ⟨(t.setBalance source (t.balance source - amount)).setBalance target
    ((t.setBalance source (t.balance source - amount)).balance target + amount), ?_⟩
  simp only [move, Checked.bind_eq_ok, require_eq_ok, decide_eq_true_eq, Amount.add_eq_ok,
    Checked.pure_eq_ok]
  exact ⟨(), h, _, ⟨hfit, rfl⟩, rfl⟩

/-! ## Minting and burning -/

theorem mint_ok (h : t.mint target amount = .ok t') :
    t.supply + amount < Amount.limit ∧
      t' = { t.setBalance target (t.balance target + amount) with
        supply := t.supply + amount } := by
  simp only [mint, Checked.bind_eq_ok, Amount.add_eq_ok, Checked.pure_eq_ok] at h
  obtain ⟨_, ⟨-, rfl⟩, _, ⟨hl, rfl⟩, rfl⟩ := h
  exact ⟨hl, rfl⟩

theorem mint_sound (h : t.mint target amount = .ok t') (ht : t.Sound) : t'.Sound := by
  obtain ⟨hl, rfl⟩ := mint_ok h
  have hsum := sum_setBalance t target (t.balance target + amount)
  have hs := ht.supply
  exact ⟨by dsimp only; omega, hl⟩

theorem mint_balance_ge (h : t.mint target amount = .ok t') (a : Address) :
    t.balance a ≤ t'.balance a := by
  obtain ⟨-, rfl⟩ := mint_ok h
  show _ ≤ (t.setBalance target (t.balance target + amount)).balance a
  rw [balance_setBalance]
  split
  · next hta =>
    rw [hta]
    exact Nat.le_add_right _ _
  · exact le_rfl

theorem mint_allowances (h : t.mint target amount = .ok t') :
    t'.allowances = t.allowances := by
  obtain ⟨-, rfl⟩ := mint_ok h
  rfl

theorem burn_ok (h : t.burn source amount = .ok t') :
    amount ≤ t.balance source ∧ amount ≤ t.supply ∧
      t' = { t.setBalance source (t.balance source - amount) with
        supply := t.supply - amount } := by
  simp only [burn, Checked.bind_eq_ok, require_eq_ok, decide_eq_true_eq, Amount.sub_eq_ok,
    Checked.pure_eq_ok] at h
  obtain ⟨_, hc, _, ⟨hl, rfl⟩, rfl⟩ := h
  exact ⟨hc, hl, rfl⟩

theorem burn_sound (h : t.burn source amount = .ok t') (ht : t.Sound) : t'.Sound := by
  obtain ⟨hc, hle, rfl⟩ := burn_ok h
  have hsum := sum_setBalance t source (t.balance source - amount)
  have hs := ht.supply
  have hl := ht.supply_lt
  exact ⟨by dsimp only; omega, by dsimp only; omega⟩

theorem burn_balance (h : t.burn source amount = .ok t') :
    t'.balance source = t.balance source - amount := by
  obtain ⟨-, -, rfl⟩ := burn_ok h
  show (t.setBalance source (t.balance source - amount)).balance source = _
  rw [balance_setBalance, if_pos rfl]

theorem burn_allowances (h : t.burn source amount = .ok t') :
    t'.allowances = t.allowances := by
  obtain ⟨-, -, rfl⟩ := burn_ok h
  rfl

/-! ## Safekeeping -/

/-- A holder keeps at least so much, and nobody may draw on it. -/
structure Keeps (t : Token) (a : Address) (amount : Nat) : Prop where
  sound : t.Sound
  balance : amount ≤ t.balance a
  guarded : ∀ spender, t.allowance a spender = 0

namespace Keeps

variable {n : Nat}

theorem weaken (h : t.Keeps a amount) (hn : n ≤ amount) : t.Keeps a n :=
  ⟨h.sound, hn.trans h.balance, h.guarded⟩

theorem guarded_of_eq (h : t.Keeps a amount) (he : t'.allowances = t.allowances) (s : Address) :
    t'.allowance a s = 0 := by
  rw [allowance, he]
  exact h.guarded s

theorem move (h : t.Keeps a amount) (hm : Moved t source target n t') (ha : a ≠ source) :
    t'.Keeps a amount :=
  ⟨hm.sound h.sound, h.balance.trans (hm.balance_ge ha), h.guarded_of_eq hm.allowances⟩

theorem receive (h : t.Keeps a amount) (hm : Moved t source a n t') (ha : a ≠ source) :
    t'.Keeps a (amount + n) :=
  ⟨hm.sound h.sound, hm.balance_target ha ▸ Nat.add_le_add_right h.balance n,
    h.guarded_of_eq hm.allowances⟩

theorem give (h : t.Keeps a amount) (hm : Moved t a target n t') : t'.Keeps a (amount - n) :=
  ⟨hm.sound h.sound, (Nat.sub_le_sub_right h.balance n).trans hm.balance_source_ge,
    h.guarded_of_eq hm.allowances⟩

theorem mint (h : t.Keeps a amount) (hm : t.mint target n = .ok t') : t'.Keeps a amount :=
  ⟨mint_sound hm h.sound, h.balance.trans (mint_balance_ge hm a),
    h.guarded_of_eq (mint_allowances hm)⟩

theorem burn (h : t.Keeps a amount) (hb : t.burn a n = .ok t') : t'.Keeps a (amount - n) :=
  ⟨burn_sound hb h.sound, burn_balance hb ▸ Nat.sub_le_sub_right h.balance n,
    h.guarded_of_eq (burn_allowances hb)⟩

theorem approve (h : t.Keeps a amount) {owner spender : Address}
    (ho : owner = a → n = 0) : (t.approve owner spender n).Keeps a amount := by
  refine ⟨⟨h.sound.supply, h.sound.supply_lt⟩, h.balance, ?_⟩
  intro s
  rw [allowance, Token.approve, Table.getD_set]
  split
  · next hk => exact ho (Prod.mk.inj hk).1
  · exact h.guarded s

/-- Drawing on others does not touch the holder, and on the holder nothing can
be drawn. -/
theorem draw (h : t.Keeps a amount) {owner spender : Address}
    (hd : t.draw spender owner target n = .ok t') : t'.Keeps a amount := by
  simp only [Token.draw, Checked.bind_eq_ok, require_eq_ok, decide_eq_true_eq] at hd
  obtain ⟨_, hle, hm⟩ := hd
  have hm := move_ok hm
  by_cases ho : owner = a
  · subst ho
    rw [h.guarded] at hle hm
    have hn : n = 0 := Nat.le_zero.1 hle
    subst hn
    exact (h.approve fun _ => rfl).give hm
  · exact (h.approve fun e => absurd e ho).move hm (Ne.symm ho)

theorem request (h : t.Keeps a amount) {r : TokenRequest} {caller : Address}
    (hc : caller ≠ a) (hr : r.apply caller t = .ok t') : t'.Keeps a amount := by
  cases r with
  | transfer target n => exact h.move (move_ok hr) hc.symm
  | approve spender n =>
    cases hr
    exact h.approve fun e => absurd e hc
  | drawFrom owner target n => exact h.draw hr

theorem payOut (h : t.Keeps a amount) (hp : t.payOut source target n = .ok t')
    (ha : a ≠ source) : t'.Keeps a amount := by
  rw [Token.payOut] at hp
  split at hp
  · cases hp
    exact h
  · exact h.move (move_ok hp) ha

theorem receiveOut (h : t.Keeps a amount) (hp : t.payOut source a n = .ok t')
    (ha : a ≠ source) : t'.Keeps a (amount + n) := by
  rw [Token.payOut] at hp
  split at hp
  · next hn =>
    cases hp
    exact h.weaken (by omega)
  · exact h.receive (move_ok hp) ha

theorem giveOut (h : t.Keeps a amount) (hp : t.payOut a target n = .ok t') :
    t'.Keeps a (amount - n) := by
  rw [Token.payOut] at hp
  split at hp
  · cases hp
    exact h.weaken (by omega)
  · exact h.give (move_ok hp)

/-- What the holder keeps can be paid out. -/
theorem payOut_succeeds (h : t.Keeps a amount) (target : Address) (hn : n ≤ amount) :
    ∃ t', t.payOut a target n = .ok t' := by
  rw [Token.payOut]
  split
  · exact ⟨t, rfl⟩
  · exact move_succeeds h.sound target (hn.trans h.balance)

end Keeps

/-! ## Exact holdings -/

/-- A holder has just so much, and nobody may draw on it. -/
structure Holds (t : Token) (a : Address) (amount : Nat) : Prop where
  sound : t.Sound
  balance : t.balance a = amount
  guarded : ∀ spender, t.allowance a spender = 0

namespace Holds

variable {n : Nat}

theorem keeps (h : t.Holds a amount) : t.Keeps a amount :=
  ⟨h.sound, h.balance.ge, h.guarded⟩

/-- What others pass on among themselves does not matter. -/
theorem passed (h : t.Holds a amount) (hp : Passed t source target n t') (hs : a ≠ source)
    (ht : a ≠ target) : t'.Holds a amount := by
  have hb := hp.balance a
  rw [if_neg hs.symm, if_neg ht.symm, h.balance] at hb
  exact ⟨hp.sound h.sound, hb, h.keeps.guarded_of_eq hp.allowances⟩

theorem gains (h : t.Holds a amount) (hp : Passed t source a n t') (hs : a ≠ source) :
    t'.Holds a (amount + n) := by
  have hb := hp.balance a
  rw [if_neg hs.symm, if_pos rfl, h.balance] at hb
  exact ⟨hp.sound h.sound, hb, h.keeps.guarded_of_eq hp.allowances⟩

theorem loses (h : t.Holds a (amount + n)) (hp : Passed t a target n t') (ht : a ≠ target) :
    t'.Holds a amount := by
  have hb := hp.balance a
  rw [if_pos rfl, if_neg ht.symm, h.balance] at hb
  exact ⟨hp.sound h.sound, Nat.add_right_cancel hb, h.keeps.guarded_of_eq hp.allowances⟩

/-- Somebody else's approval lets nobody draw on the holder. -/
theorem approve (h : t.Holds a amount) {owner spender : Address} (ho : owner ≠ a) :
    (t.approve owner spender n).Holds a amount :=
  have hk : (t.approve owner spender n).Keeps a amount := h.keeps.approve fun e => absurd e ho
  ⟨hk.sound, h.balance, hk.guarded⟩

theorem mint (h : t.Holds a amount) (hm : t.mint target n = .ok t') :
    t'.Holds a (amount + if target = a then n else 0) := by
  refine ⟨mint_sound hm h.sound, ?_, h.keeps.guarded_of_eq (mint_allowances hm)⟩
  obtain ⟨-, rfl⟩ := mint_ok hm
  show (t.setBalance target (t.balance target + n)).balance a = _
  rw [balance_setBalance]
  split
  · next hta => rw [hta, h.balance]
  · exact h.balance

theorem burn (h : t.Holds a (amount + n)) (hb : t.burn a n = .ok t') : t'.Holds a amount := by
  refine ⟨burn_sound hb h.sound, ?_, h.keeps.guarded_of_eq (burn_allowances hb)⟩
  rw [burn_balance hb, h.balance, Nat.add_sub_cancel]

theorem burnOther (h : t.Holds a amount) (hb : t.burn source n = .ok t') (hs : a ≠ source) :
    t'.Holds a amount := by
  refine ⟨burn_sound hb h.sound, ?_, h.keeps.guarded_of_eq (burn_allowances hb)⟩
  obtain ⟨-, -, rfl⟩ := burn_ok hb
  show (t.setBalance source (t.balance source - n)).balance a = _
  rw [balance_setBalance, if_neg hs.symm, h.balance]

/-- Nobody else's request takes anything from the holder; it may send
something to it. -/
theorem request (h : t.Holds a amount) {r : TokenRequest} {caller : Address}
    (hc : caller ≠ a) (hr : r.apply caller t = .ok t') :
    t'.Holds a (amount + r.sentTo a) := by
  have hk := h.keeps.request hc hr
  refine ⟨hk.sound, ?_, hk.guarded⟩
  cases r with
  | transfer target n =>
    have hb := (move_ok hr).balance a
    rw [if_neg hc, h.balance] at hb
    exact hb
  | approve spender n =>
    cases hr
    exact h.balance
  | drawFrom owner target n =>
    obtain ⟨hle, hp⟩ := draw_ok hr
    have hb : t'.balance a + (if owner = a then n else 0) =
        t.balance a + (if target = a then n else 0) := hp.balance a
    -- on the holder itself nothing can be drawn
    have hn : (if owner = a then n else 0) = 0 := by
      split
      · next ho =>
        rw [ho, h.guarded] at hle
        exact Nat.le_zero.1 hle
      · rfl
    rw [hn, h.balance] at hb
    exact hb

end Holds

end Token

end Troves
