/-
# Actions

A step of the protocol: it reads and changes the world and reports events,
or it fails and leaves nothing behind.  Sequencing hands the changed world
on and strings the reports together, so what an action does to the world
never depends on what was reported before.
-/
import Troves.Event
import Troves.World

namespace Troves

/-- What an action came to. -/
structure Outcome (α : Type) where
  value : α
  world : World
  events : List Event

/-- A step of the protocol. -/
def Action (α : Type) : Type := World → Checked (Outcome α)

namespace Action

variable {α β : Type}

/-- Answers without doing anything. -/
protected def pure (a : α) : Action α := fun w => .ok ⟨a, w, []⟩

/-- One action after another. -/
protected def bind (x : Action α) (f : α → Action β) : Action β := fun w =>
  match x w with
  | .error e => .error e
  | .ok r =>
    match f r.value r.world with
    | .error e => .error e
    | .ok s => .ok ⟨s.value, s.world, r.events ++ s.events⟩

instance : Monad Action where
  pure := Action.pure
  bind := Action.bind

/-- A computation as an action that leaves the world alone. -/
def ofChecked (x : Checked α) : Action α := fun w => x.map fun a => ⟨a, w, []⟩

instance : MonadLift Checked Action := ⟨ofChecked⟩

/-- The world as it is. -/
def world : Action World := fun w => .ok ⟨w, w, []⟩

/-- Changes the world. -/
def update (f : World → World) : Action Unit := fun w => .ok ⟨(), f w, []⟩

/-- Reports an event. -/
def emit (e : Event) : Action Unit := fun w => .ok ⟨(), w, [e]⟩

/-- Reports several events. -/
def emitAll (es : List Event) : Action Unit := fun w => .ok ⟨(), w, es⟩

/-! ## How actions run -/

@[simp] theorem pure_run (a : α) (w : World) : (pure a : Action α) w = .ok ⟨a, w, []⟩ := rfl

/-- A sequence succeeds if both steps do. -/
theorem bind_eq_ok {x : Action α} {f : α → Action β} {w : World} {s : Outcome β} :
    (x >>= f) w = .ok s ↔
      ∃ r, x w = .ok r ∧ ∃ t, f r.value r.world = .ok t ∧
        s = ⟨t.value, t.world, r.events ++ t.events⟩ := by
  show Action.bind x f w = _ ↔ _
  unfold Action.bind
  cases x w with
  | error e => simp
  | ok r =>
    cases h : f r.value r.world with
    | error e => simp [h]
    | ok t => simp [h, eq_comm]

/-- A sequence hands on what its first step leaves. -/
theorem bind_run (x : Action α) (f : α → Action β) (w : World) :
    (x >>= f) w = match x w with
      | .error e => .error e
      | .ok r => (f r.value r.world).map fun s =>
        ⟨s.value, s.world, r.events ++ s.events⟩ := by
  show Action.bind x f w = _
  unfold Action.bind
  cases x w with
  | error e => rfl
  | ok r => cases h : f r.value r.world <;> simp [h, Except.map]

@[simp] theorem ofChecked_ok (a : α) (w : World) : ofChecked (.ok a) w = .ok ⟨a, w, []⟩ := rfl

@[simp] theorem ofChecked_error (e : Fault) (w : World) :
    ofChecked (.error e : Checked α) w = .error e := rfl

/-- A lifted computation succeeds if the computation does, and then with the
world as it was. -/
theorem ofChecked_eq_ok {x : Checked α} {w : World} {r : Outcome α} :
    ofChecked x w = .ok r ↔ ∃ a, x = .ok a ∧ r = ⟨a, w, []⟩ := by
  cases x with
  | error e => simp
  | ok a => simp [eq_comm]

@[simp] theorem liftM_eq_ofChecked (x : Checked α) : (liftM x : Action α) = ofChecked x := rfl

@[simp] theorem monadLift_eq_ofChecked (x : Checked α) :
    (monadLift x : Action α) = ofChecked x := rfl

@[simp] theorem world_run (w : World) : world w = .ok ⟨w, w, []⟩ := rfl

@[simp] theorem update_run (f : World → World) (w : World) :
    update f w = .ok ⟨(), f w, []⟩ := rfl

@[simp] theorem emit_run (e : Event) (w : World) : emit e w = .ok ⟨(), w, [e]⟩ := rfl

@[simp] theorem emitAll_run (es : List Event) (w : World) :
    emitAll es w = .ok ⟨(), w, es⟩ := rfl

theorem id_map (x : Action α) : id <$> x = x := by
  funext w
  show Action.bind x (fun a => Action.pure a) w = x w
  unfold Action.bind Action.pure
  cases x w <;> simp

theorem pure_bind (a : α) (f : α → Action β) : (pure a >>= f) = f a := by
  funext w
  show Action.bind (Action.pure a) f w = f a w
  unfold Action.bind Action.pure
  cases h : f a w <;> simp [h]

theorem bind_assoc {γ : Type} (x : Action α) (f : α → Action β) (g : β → Action γ) :
    (x >>= f >>= g) = (x >>= fun a => f a >>= g) := by
  funext w
  show Action.bind (Action.bind x f) g w = Action.bind x (fun a => Action.bind (f a) g) w
  unfold Action.bind
  cases x w with
  | error e => rfl
  | ok r =>
    cases h : f r.value r.world with
    | error e => simp [h]
    | ok s => cases h' : g s.value s.world <;> simp [h, h']

instance : LawfulMonad Action := LawfulMonad.mk' Action id_map pure_bind bind_assoc

end Action

end Troves
