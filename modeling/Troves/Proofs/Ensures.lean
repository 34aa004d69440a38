/-
# What an action ensures

`x.Ensures w Q`: whenever `x` goes through from the world `w`, the answer
and the world it leaves satisfy `Q`.  The reports do not matter here; no
action ever reads them.

Each way of building an action has one equivalence below, so `simp` turns a
statement about a whole action into one about the computations it makes.
`x.Succeeds w Q` says in addition that the action does go through; it is
shown step by step, each computation with the result it has.
-/
import Troves.Protocol.Access

namespace Troves

namespace Action

variable {α β : Type}

/-- Whatever the action leaves behind, if it goes through, satisfies `Q`. -/
def Ensures (x : Action α) (w : World) (Q : α → World → Prop) : Prop :=
  ∀ o, x w = .ok o → Q o.value o.world

theorem Ensures.mono {x : Action α} {w : World} {P Q : α → World → Prop}
    (h : x.Ensures w P) (hPQ : ∀ a w', P a w' → Q a w') : x.Ensures w Q :=
  fun o ho => hPQ _ _ (h o ho)

@[simp] theorem ensures_pure {a : α} {w : World} {Q : α → World → Prop} :
    (pure a : Action α).Ensures w Q ↔ Q a w := by
  simp [Ensures]

@[simp] theorem ensures_bind {x : Action α} {f : α → Action β} {w : World}
    {Q : β → World → Prop} :
    (x >>= f).Ensures w Q ↔ x.Ensures w fun a w' => (f a).Ensures w' Q := by
  constructor
  · intro h r hr t ht
    exact h ⟨t.value, t.world, r.events ++ t.events⟩ (bind_eq_ok.2 ⟨r, hr, t, ht, rfl⟩)
  · intro h s hs
    obtain ⟨r, hr, t, ht, rfl⟩ := bind_eq_ok.1 hs
    exact h r hr t ht

@[simp] theorem ensures_map {x : Action α} {f : α → β} {w : World} {Q : β → World → Prop} :
    (f <$> x).Ensures w Q ↔ x.Ensures w fun a w' => Q (f a) w' := by
  rw [map_eq_pure_bind, ensures_bind]
  simp only [ensures_pure]

@[simp] theorem ensures_discard {x : Action α} {w : World} {Q : Unit → World → Prop} :
    (discard x).Ensures w Q ↔ x.Ensures w fun _ w' => Q () w' :=
  ensures_map

@[simp] theorem ensures_ofChecked {x : Checked α} {w : World} {Q : α → World → Prop} :
    (ofChecked x).Ensures w Q ↔ ∀ a, x = .ok a → Q a w := by
  cases x <;> simp [Ensures]

@[simp high] theorem ensures_require {c : Bool} {r : Refusal} {w : World}
    {Q : Unit → World → Prop} :
    (ofChecked (require c r)).Ensures w Q ↔ (c = true → Q () w) := by
  cases c with
  | false => simp [require, refuse]
  | true => exact ⟨fun h _ => h ⟨(), w, []⟩ rfl, fun h o ho => by cases ho; exact h rfl⟩

@[simp] theorem ensures_world {w : World} {Q : World → World → Prop} :
    world.Ensures w Q ↔ Q w w := by
  simp [Ensures]

@[simp] theorem ensures_update {f : World → World} {w : World} {Q : Unit → World → Prop} :
    (update f).Ensures w Q ↔ Q () (f w) := by
  simp [Ensures]

@[simp] theorem ensures_emit {e : Event} {w : World} {Q : Unit → World → Prop} :
    (emit e).Ensures w Q ↔ Q () w := by
  simp [Ensures]

@[simp] theorem ensures_emitAll {es : List Event} {w : World} {Q : Unit → World → Prop} :
    (emitAll es).Ensures w Q ↔ Q () w := by
  simp [Ensures]

@[simp] theorem ensures_ite {c : Prop} [Decidable c] {x y : Action α} {w : World}
    {Q : α → World → Prop} :
    (if c then x else y).Ensures w Q ↔
      (c → x.Ensures w Q) ∧ (¬ c → y.Ensures w Q) := by
  by_cases h : c <;> simp [h]

/-! ## Going through -/

/-- The action goes through, and what it leaves behind satisfies `Q`. -/
def Succeeds (x : Action α) (w : World) (Q : α → World → Prop) : Prop :=
  ∃ o, x w = .ok o ∧ Q o.value o.world

theorem Succeeds.mono {x : Action α} {w : World} {P Q : α → World → Prop}
    (h : x.Succeeds w P) (hPQ : ∀ a w', P a w' → Q a w') : x.Succeeds w Q :=
  let ⟨o, ho, hP⟩ := h
  ⟨o, ho, hPQ _ _ hP⟩

theorem succeeds_pure {a : α} {w : World} {Q : α → World → Prop} (h : Q a w) :
    (pure a : Action α).Succeeds w Q :=
  ⟨_, rfl, h⟩

theorem succeeds_bind {x : Action α} {f : α → Action β} {w : World} {Q : β → World → Prop}
    (h : x.Succeeds w fun a w' => (f a).Succeeds w' Q) : (x >>= f).Succeeds w Q := by
  obtain ⟨r, hr, t, ht, hQ⟩ := h
  exact ⟨_, bind_eq_ok.2 ⟨r, hr, t, ht, rfl⟩, hQ⟩

theorem succeeds_ofChecked {x : Checked α} {w : World} {Q : α → World → Prop} {a : α}
    (hx : x = .ok a) (h : Q a w) : (ofChecked x).Succeeds w Q := by
  subst hx
  exact ⟨_, rfl, h⟩

theorem succeeds_world {w : World} {Q : World → World → Prop} (h : Q w w) :
    world.Succeeds w Q :=
  ⟨_, rfl, h⟩

theorem succeeds_update {f : World → World} {w : World} {Q : Unit → World → Prop}
    (h : Q () (f w)) : (update f).Succeeds w Q :=
  ⟨_, rfl, h⟩

theorem succeeds_emit {e : Event} {w : World} {Q : Unit → World → Prop} (h : Q () w) :
    (emit e).Succeeds w Q :=
  ⟨_, rfl, h⟩

end Action

namespace Protocol

variable {w : World} {Q : Unit → World → Prop}

@[simp] theorem ensures_onLedger {f : Ledger → Checked Ledger} :
    (onLedger f).Ensures w Q ↔
      ∀ ledger, f w.ledger = .ok ledger → Q () { w with ledger } := by
  simp [onLedger]

@[simp] theorem ensures_onList {f : TroveList → Checked TroveList} :
    (onList f).Ensures w Q ↔ ∀ list, f w.list = .ok list → Q () { w with list } := by
  simp [onList]

@[simp] theorem ensures_onPool {f : Stability.Pool → Checked Stability.Pool} :
    (onPool f).Ensures w Q ↔ ∀ pool, f w.pool = .ok pool → Q () { w with pool } := by
  simp [onPool]

@[simp] theorem ensures_onEscrow {f : Escrow → Checked Escrow} :
    (onEscrow f).Ensures w Q ↔ ∀ escrow, f w.escrow = .ok escrow → Q () { w with escrow } := by
  simp [onEscrow]

@[simp] theorem ensures_onCollateral {f : Token → Checked Token} :
    (onCollateral f).Ensures w Q ↔
      ∀ collateral, f w.collateral = .ok collateral → Q () { w with collateral } := by
  simp [onCollateral]

@[simp] theorem ensures_onCoin {f : Token → Checked Token} :
    (onCoin f).Ensures w Q ↔
      ∀ token, f w.coin.token = .ok token →
        Q () { w with coin := { w.coin with token } } := by
  simp [onCoin]

/-- A call to the right contract is the call itself. -/
@[simp] theorem via_address {α : Type} {c : Contract} {entry : String} {act : Action α} :
    via c.address c entry act = act := by
  have h : (liftM (Contract.locate c.address) : Action Contract) = pure c := by
    rw [Contract.locate_address]
    rfl
  rw [via]
  rw [h, pure_bind, if_pos rfl]

end Protocol

end Troves
