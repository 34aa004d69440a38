/-
# How an action comes out

`x.Meets w Q E`: from the world `w` the action `x` either goes through and
leaves behind what `Q` says, or fails for a reason that `E` allows.  With any
reason allowed this is what an action ensures; with none it is success.

As for what is ensured, there is one equivalence for each way of building an
action.  They keep the order of the parts, so they also tell which of them
fails first.
-/
import Troves.Proofs.Ensures

namespace Troves

namespace Checked

variable {α β : Type} {Q : α → Prop} {E : Fault → Prop}

/-- The result satisfies `Q`, or the fault is one that `E` allows. -/
def Meets (x : Checked α) (Q : α → Prop) (E : Fault → Prop) : Prop :=
  match x with
  | .ok a => Q a
  | .error e => E e

@[simp] theorem meets_ok {a : α} : Meets (.ok a) Q E ↔ Q a := Iff.rfl

@[simp] theorem meets_error {e : Fault} : Meets (.error e : Checked α) Q E ↔ E e := Iff.rfl

@[simp] theorem meets_pure {a : α} : (pure a : Checked α).Meets Q E ↔ Q a := Iff.rfl

@[simp] theorem meets_bind {x : Checked α} {f : α → Checked β} {Q : β → Prop} :
    (x >>= f).Meets Q E ↔ x.Meets (fun a => (f a).Meets Q E) E := by
  cases x <;> rfl

@[simp] theorem meets_map {x : Checked α} {f : α → β} {Q : β → Prop} :
    Meets (x.map f) Q E ↔ x.Meets (fun a => Q (f a)) E := by
  cases x <;> rfl

@[simp] theorem meets_fmap {x : Checked α} {f : α → β} {Q : β → Prop} :
    Meets (f <$> x) Q E ↔ x.Meets (fun a => Q (f a)) E := by
  cases x <;> rfl

@[simp] theorem meets_ite {c : Prop} [Decidable c] {x y : Checked α} :
    (if c then x else y).Meets Q E ↔ if c then x.Meets Q E else y.Meets Q E := by
  split <;> rfl

theorem meets_of_ok {x : Checked α} {a : α} (h : x = .ok a) (hQ : Q a) : x.Meets Q E := by
  rw [h]
  exact hQ

/-- With any fault allowed only the result counts. -/
theorem meets_any {x : Checked α} : (x.Meets Q fun _ => True) ↔ ∀ a, x = .ok a → Q a := by
  cases x <;> simp

theorem Meets.of_eq_ok {x : Checked α} {a : α} (h : x.Meets Q E) (ha : x = .ok a) : Q a := by
  rwa [ha] at h

theorem Meets.mono {x : Checked α} {P : α → Prop} {D : Fault → Prop} (h : x.Meets P D)
    (hQ : ∀ a, x = .ok a → P a → Q a) (hE : ∀ e, D e → E e) : x.Meets Q E := by
  cases x with
  | ok a => exact hQ a rfl h
  | error e => exact hE e h

/-- With no fault allowed there is a result. -/
theorem Meets.goes_through {x : Checked α} (h : x.Meets Q fun _ => False) :
    ∃ a, x = .ok a ∧ Q a := by
  cases x with
  | ok a => exact ⟨a, rfl, h⟩
  | error e => exact h.elim

end Checked

@[simp] theorem meets_require {c : Bool} {r : Refusal} {Q : Unit → Prop} {E : Fault → Prop} :
    (require c r).Meets Q E ↔ if c then Q () else E (.refused r) := by
  cases c <;> exact Iff.rfl

/-! ## Arithmetic -/

section Arithmetic

variable {a b c : Nat} {Q : Nat → Prop} {E : Fault → Prop}

@[simp] theorem Amount.meets_add :
    (Amount.add a b).Meets Q E ↔ if a + b < Amount.limit then Q (a + b) else E .overflow := by
  unfold Amount.add Amount.fit
  split <;> rfl

@[simp] theorem Amount.meets_sub :
    (Amount.sub a b).Meets Q E ↔ if b ≤ a then Q (a - b) else E .overflow := by
  unfold Amount.sub
  split <;> rfl

@[simp] theorem Amount.meets_mul :
    (Amount.mul a b).Meets Q E ↔ if a * b < Amount.limit then Q (a * b) else E .overflow := by
  unfold Amount.mul Amount.fit
  split <;> rfl

@[simp] theorem Amount.meets_div :
    (Amount.div a b).Meets Q E ↔ if b = 0 then E .divisionByZero else Q (a / b) := by
  unfold Amount.div
  split <;> rfl

@[simp] theorem Counter.meets_next :
    (Counter.next a).Meets Q E ↔
      if a + 1 < Counter.limit then Q (a + 1) else E .counterOverflow := by
  unfold Counter.next
  split <;> rfl

/-- A sum fits or overflows. -/
theorem Amount.meets_add_of (hQ : a + b < Amount.limit → Q (a + b))
    (hE : Amount.limit ≤ a + b → E .overflow) : (Amount.add a b).Meets Q E := by
  rw [meets_add]
  split
  · next h => exact hQ h
  · next h => exact hE (Nat.le_of_not_lt h)

/-- A product fits or overflows. -/
theorem Amount.meets_mul_of (hQ : a * b < Amount.limit → Q (a * b))
    (hE : Amount.limit ≤ a * b → E .overflow) : (Amount.mul a b).Meets Q E := by
  rw [meets_mul]
  split
  · next h => exact hQ h
  · next h => exact hE (Nat.le_of_not_lt h)

/-- A counter moves on or overflows. -/
theorem Counter.meets_next_of (hQ : Q (a + 1)) (hE : Counter.limit ≤ a + 1 → E .counterOverflow) :
    (Counter.next a).Meets Q E := by
  rw [meets_next]
  split
  · exact hQ
  · next h => exact hE (Nat.le_of_not_lt h)

end Arithmetic

/-- Whether a fault is a number beyond its word. -/
def Fault.isOverflow : Fault → Prop
  | .overflow | .counterOverflow => True
  | _ => False

namespace Action

variable {α β : Type} {w : World} {Q : α → World → Prop} {E : Fault → Prop}

/-- What the action leaves behind satisfies `Q`, or it fails as `E` allows. -/
def Meets (x : Action α) (w : World) (Q : α → World → Prop) (E : Fault → Prop) : Prop :=
  (x w).Meets (fun o => Q o.value o.world) E

theorem ensures_iff_meets {x : Action α} :
    x.Ensures w Q ↔ x.Meets w Q fun _ => True :=
  Checked.meets_any.symm

theorem Meets.mono {x : Action α} {P : α → World → Prop} {D : Fault → Prop} (h : x.Meets w P D)
    (hQ : ∀ a w', P a w' → Q a w') (hE : ∀ e, D e → E e) : x.Meets w Q E :=
  Checked.Meets.mono h (fun _ _ => hQ _ _) hE

/-- With no fault allowed the action goes through. -/
theorem Meets.goes_through {x : Action α} (h : x.Meets w Q fun _ => False) :
    ∃ o, x w = .ok o ∧ Q o.value o.world := by
  rw [Meets] at h
  cases hx : x w with
  | ok o => exact ⟨o, rfl, by rwa [hx] at h⟩
  | error e => exact absurd (by rwa [hx] at h) not_false

/-- With no result allowed the action fails. -/
theorem Meets.fails {x : Action α} (h : x.Meets w (fun _ _ => False) E) :
    ∃ e, x w = .error e ∧ E e := by
  rw [Meets] at h
  cases hx : x w with
  | ok o => exact absurd (by rwa [hx] at h) not_false
  | error e => exact ⟨e, rfl, by rwa [hx] at h⟩

/-- What an action makes of one book, where both results and faults are told. -/
theorem Meets.map_eq {β : Type} {x : Action α} {f : World → β} {y : Checked β}
    (h : x.Meets w (fun _ w' => y = .ok (f w')) fun e => y = .error e) :
    (x w).map (fun o => f o.world) = y := by
  rw [Meets] at h
  cases hx : x w with
  | ok o =>
    rw [hx] at h
    exact Eq.symm h
  | error e =>
    rw [hx] at h
    exact Eq.symm h

/-- How an action can fail, together with what it ensures. -/
theorem Meets.of_ensures {x : Action α} (h : x.Meets w (fun _ _ => True) E)
    (hQ : x.Ensures w Q) : x.Meets w Q E :=
  Checked.Meets.mono h (fun o ho _ => hQ o ho) fun _ he => he

@[simp] theorem meets_pure {a : α} : (pure a : Action α).Meets w Q E ↔ Q a w := Iff.rfl

@[simp] theorem meets_bind {x : Action α} {f : α → Action β} {Q : β → World → Prop} :
    (x >>= f).Meets w Q E ↔ x.Meets w (fun a w' => (f a).Meets w' Q E) E := by
  show (Action.bind x f w).Meets _ E ↔ (x w).Meets _ E
  unfold Action.bind
  cases x w with
  | error e => rfl
  | ok r =>
    show _ ↔ (f r.value r.world).Meets _ E
    cases h : f r.value r.world with
    | error e => simp [h]
    | ok s => simp [h]

@[simp] theorem meets_map {x : Action α} {f : α → β} {Q : β → World → Prop} :
    (f <$> x).Meets w Q E ↔ x.Meets w (fun a w' => Q (f a) w') E := by
  rw [map_eq_pure_bind, meets_bind]
  simp only [meets_pure]

@[simp] theorem meets_discard {x : Action α} {Q : Unit → World → Prop} :
    (discard x).Meets w Q E ↔ x.Meets w (fun _ w' => Q () w') E :=
  meets_map

@[simp] theorem meets_ite {c : Prop} [Decidable c] {x y : Action α} :
    (if c then x else y).Meets w Q E ↔ if c then x.Meets w Q E else y.Meets w Q E := by
  split <;> rfl

@[simp] theorem meets_ofChecked {x : Checked α} :
    (ofChecked x).Meets w Q E ↔ x.Meets (fun a => Q a w) E := by
  cases x <;> rfl

@[simp] theorem meets_world {Q : World → World → Prop} : world.Meets w Q E ↔ Q w w := Iff.rfl

@[simp] theorem meets_update {f : World → World} {Q : Unit → World → Prop} :
    (update f).Meets w Q E ↔ Q () (f w) := Iff.rfl

@[simp] theorem meets_emit {e : Event} {Q : Unit → World → Prop} :
    (emit e).Meets w Q E ↔ Q () w := Iff.rfl

@[simp] theorem meets_emitAll {es : List Event} {Q : Unit → World → Prop} :
    (emitAll es).Meets w Q E ↔ Q () w := Iff.rfl

end Action

namespace Protocol

open Troves.Action

variable {w : World} {Q : Unit → World → Prop} {E : Fault → Prop}

@[simp] theorem meets_onLedger {f : Ledger → Checked Ledger} :
    (onLedger f).Meets w Q E ↔
      (f w.ledger).Meets (fun ledger => Q () { w with ledger }) E := by
  simp [onLedger]

@[simp] theorem meets_onList {f : TroveList → Checked TroveList} :
    (onList f).Meets w Q E ↔ (f w.list).Meets (fun list => Q () { w with list }) E := by
  simp [onList]

@[simp] theorem meets_onPool {f : Stability.Pool → Checked Stability.Pool} :
    (onPool f).Meets w Q E ↔ (f w.pool).Meets (fun pool => Q () { w with pool }) E := by
  simp [onPool]

@[simp] theorem meets_onEscrow {f : Escrow → Checked Escrow} :
    (onEscrow f).Meets w Q E ↔
      (f w.escrow).Meets (fun escrow => Q () { w with escrow }) E := by
  simp [onEscrow]

@[simp] theorem meets_onCollateral {f : Token → Checked Token} :
    (onCollateral f).Meets w Q E ↔
      (f w.collateral).Meets (fun collateral => Q () { w with collateral }) E := by
  simp [onCollateral]

@[simp] theorem meets_onCoin {f : Token → Checked Token} :
    (onCoin f).Meets w Q E ↔
      (f w.coin.token).Meets (fun token => Q () { w with coin := { w.coin with token } }) E := by
  simp [onCoin]

end Protocol

end Troves
