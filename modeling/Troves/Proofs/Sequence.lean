/-
# The list as a sequence

Whatever its keeper asks of it, the list is a finite sequence of owners.
Nothing here rests on order: hints may name anybody, and the ratios that are
read may contradict each other, the hint and what was read at the call before.
A place that is found lies between neighbours whatever the ratios say, and
that is all the links need.

| call | its owner | the others |
|---|---|---|
| insertion | comes in | keep their order |
| removal | goes | keep their order |
| repositioning | stays | keep their order |

A call that fails leaves the list alone.  It fails only if it is not allowed,
or if a listed owner's ratio cannot be told.  The walk that looks for a place
is defined with a bound on its passes; `Walked` is the walk without one, and it
ends within as many passes as there are owners.
-/
import Troves.Proofs.Places
import Troves.Proofs.Outcomes
import Troves.Request

namespace Troves

namespace TroveList

/-! ## Calls -/

/-- What its keeper can ask of the list. -/
inductive Call where
  | insert (id : Address) (ratio : Nat) (hint : Slot)
  | remove (id : Address)
  | reposition (id : Address) (ratio : Nat) (hint : Slot)

namespace Call

/-- The owner a call is about. -/
def id : Call → Address
  | insert id _ _ | remove id | reposition id _ _ => id

/-- What a call makes of the list, with the ratios told at the time. -/
def apply (live : Address → Checked Nat) (l : TroveList) : Call → Checked TroveList
  | insert id ratio hint => l.insert live id ratio hint
  | remove id => l.detach id
  | reposition id ratio hint => l.reposition live id ratio hint

/-- A call as a request to the contract. -/
def request : Call → Request
  | insert id ratio hint => .listInsert id ratio hint
  | remove id => .listRemove id
  | reposition id ratio hint => .listReposition id ratio hint

/-- What a call that goes through reports. -/
def event : Call → Event
  | insert id ratio _ | reposition id ratio _ => .listed id ratio
  | remove id => .unlisted id

/-- Why a call on a sequence of owners is refused, if it is. -/
def refusal? (capacity : Nat) (xs : List Address) : Call → Option Refusal
  | insert id ratio _ =>
    if capacity ≤ xs.length then some .listFull
    else if id ∈ xs then some .alreadyListed
    else if ratio = 0 then some .zeroRatio
    else none
  | remove id => if id ∈ xs then none else some .notListed
  | reposition id ratio _ =>
    if ratio = 0 then some .zeroRatio
    else if id ∈ xs then none
    else some .notListed

/-- Whether a call's owner is in the sequence before and after it. -/
def Relists (xs xs' : List Address) : Call → Prop
  | insert id _ _ => id ∉ xs ∧ id ∈ xs'
  | remove id => id ∈ xs ∧ id ∉ xs'
  | reposition id _ _ => id ∈ xs ∧ id ∈ xs'

/-- What a call does to the sequence: only its own owner comes, goes or moves. -/
structure Alters (c : Call) (xs xs' : List Address) : Prop where
  owner : c.Relists xs xs'
  others : xs'.erase c.id = xs.erase c.id

end Call

/-- The list after some calls, each with the ratios told at its time.  A call
that fails leaves it as it was. -/
def after (l : TroveList) : List (Call × (Address → Checked Nat)) → TroveList
  | [] => l
  | (c, live) :: cs =>
    match c.apply live l with
    | .ok l' => l'.after cs
    | .error _ => l.after cs

/-- The list is a sequence of owners, whichever way it is read. -/
structure Chained (l : TroveList) (xs : List Address) : Prop where
  nodup : xs.Nodup
  size : l.size = xs.length
  fits : l.size ≤ l.capacity
  head : l.head? = xs.head?
  tail : l.tail? = xs.getLast?
  forward : ∀ n, l.forward n = xs.take n
  backward : ∀ n, l.backward n = xs.reverse.take n
  next : ∀ a b, l.next? a = some b ↔ [a, b] <:+: xs
  inverse : ∀ a b, l.prev? b = some a ↔ l.next? a = some b
  members : ∀ a, l.contains a = true ↔ a ∈ xs

/-- The walk without a bound on its passes: from a place it ends after so many
of them, with a place or with a fault. -/
inductive Walked (l : TroveList) (live : Address → Checked Nat) (ratio : Nat) :
    Nat → Slot → Checked Slot → Prop where
  | atEnd {s : Slot} (h : s.after? = none) : Walked l live ratio 0 s (.ok s)
  | unlisted {s : Slot} {a : Address} (h : s.after? = some a)
      (hn : l.nodes.get? a = none) : Walked l live ratio 0 s (.ok s)
  | greater {s node : Slot} {a : Address} {x : Nat} (h : s.after? = some a)
      (hn : l.nodes.get? a = some node) (hx : live a = .ok x) (hlt : ratio < x) :
      Walked l live ratio 0 s (.ok s)
  | untold {s node : Slot} {a : Address} {e : Fault} (h : s.after? = some a)
      (hn : l.nodes.get? a = some node) (hx : live a = .error e) :
      Walked l live ratio 0 s (.error e)
  | pass {s node : Slot} {a : Address} {x n : Nat} {r : Checked Slot}
      (h : s.after? = some a) (hn : l.nodes.get? a = some node) (hx : live a = .ok x)
      (hle : x ≤ ratio)
      (rest : Walked l live ratio n { before? := some a, after? := node.after? } r) :
      Walked l live ratio (n + 1) s r

variable {l l' : TroveList} {xs xs' ys zs : List Address} {live : Address → Checked Nat}
  {c : Call} {id a : Address} {ratio n : Nat} {s hint : Slot}

/-! ## Reading the links -/

theorem Holds.next_iff (h : l.Holds xs) (a b : Address) :
    l.next? a = some b ↔ [a, b] <:+: xs := by
  constructor
  · intro hn
    obtain ⟨ys, zs, rfl⟩ := h.split_of_next hn
    exact ⟨ys, zs, by simp⟩
  · rintro ⟨ys, zs, rfl⟩
    rw [List.append_assoc, List.cons_append] at h
    exact h.next

theorem Holds.prev_iff (h : l.Holds xs) (a b : Address) :
    l.prev? b = some a ↔ l.next? a = some b := by
  rw [h.next_iff]
  constructor
  · intro hp
    obtain ⟨node, hn, -⟩ := Option.bind_eq_some_iff.1 hp
    have hb : b ∈ xs := h.mem_of_get? hn
    obtain ⟨ys, zs, rfl⟩ := List.append_of_mem hb
    rw [h.prev] at hp
    obtain ⟨us, rfl⟩ := List.getLast?_eq_some_iff.1 hp
    exact ⟨us, zs, by simp⟩
  · rintro ⟨ys, zs, rfl⟩
    have hsplit : ys ++ [a, b] ++ zs = (ys ++ [a]) ++ b :: zs := by simp
    rw [hsplit] at h
    rw [h.prev, List.getLast?_concat]

theorem Holds.chained (h : l.Holds xs) (hc : l.size ≤ l.capacity) : l.Chained xs where
  nodup := h.nodup
  size := h.size
  fits := hc
  head := h.head
  tail := h.tail
  forward := h.forward
  backward := h.backward
  next := h.next_iff
  inverse := h.prev_iff
  members := h.contains

/-! ## The walk ends -/

theorem walk_listed {node : Slot} {x : Nat} (h : s.after? = some a)
    (hn : l.nodes.get? a = some node) (hx : live a = .ok x) :
    l.walk live ratio (n + 1) s =
      if ratio < x then .ok s
      else l.walk live ratio n { before? := some a, after? := node.after? } := by
  simp only [walk, h, hn, hx]
  rfl

/-- From a place in front of some owners the walk takes a pass for each of them
at most, and the bounded walk takes the same ones. -/
theorem Holds.walked_from (live : Address → Checked Nat) (ratio : Nat) (ys zs : List Address)
    (h : l.Holds (ys ++ zs)) (hs : s.after? = zs.head?) (hn : zs.length ≤ n) :
    ∃ k ≤ zs.length, Walked l live ratio k s (l.walk live ratio n s) := by
  induction zs generalizing ys s n with
  | nil =>
    refine ⟨0, Nat.le_refl _, ?_⟩
    cases n with
    | zero => exact .atEnd hs
    | succ n =>
      rw [walk, hs]
      exact .atEnd hs
  | cons a zs ih =>
    rw [List.length_cons] at hn
    obtain ⟨n, rfl⟩ := Nat.exists_eq_add_of_le' (Nat.le_trans (Nat.le_add_left 1 _) hn)
    have ha := h.links ys a zs rfl
    cases hx : live a with
    | error e =>
      refine ⟨0, Nat.zero_le _, ?_⟩
      have hw : l.walk live ratio (n + 1) s = .error e := by
        simp only [walk, hs, List.head?_cons, ha, hx]
        rfl
      rw [hw]
      exact .untold hs ha hx
    | ok x =>
      rw [walk_listed hs ha hx]
      split
      · next hlt => exact ⟨0, Nat.zero_le _, .greater hs ha hx hlt⟩
      · next hge =>
        have hsplit : ys ++ a :: zs = (ys ++ [a]) ++ zs := by simp
        rw [hsplit] at h
        obtain ⟨k, hk, rest⟩ := ih (s := ⟨some a, zs.head?⟩) (ys ++ [a]) h rfl
          (Nat.le_of_succ_le_succ hn)
        exact ⟨k + 1, Nat.succ_le_succ hk, .pass hs ha hx (Nat.le_of_not_lt hge) rest⟩

/-- From any place whatever the walk ends, after as many passes as there are
owners at most, and as the bounded walk does. -/
theorem Holds.walked (h : l.Holds xs) (live : Address → Checked Nat) (ratio : Nat) (s : Slot) :
    ∃ k ≤ l.size, Walked l live ratio k s (l.walk live ratio l.size s) := by
  rw [h.size]
  cases hs : s.after? with
  | none =>
    obtain ⟨k, hk, hw⟩ := Holds.walked_from live ratio xs [] (n := xs.length)
      (by simpa using h) hs (Nat.zero_le _)
    exact ⟨k, Nat.le_trans hk (Nat.zero_le _), hw⟩
  | some a =>
    by_cases ha : a ∈ xs
    · obtain ⟨ys, zs, rfl⟩ := List.append_of_mem ha
      obtain ⟨k, hk, hw⟩ := Holds.walked_from live ratio ys (a :: zs) (n := (ys ++ a :: zs).length)
        h hs (by simp)
      exact ⟨k, Nat.le_trans hk (by simp), hw⟩
    · refine ⟨0, Nat.zero_le _, ?_⟩
      have hw : ∀ n, l.walk live ratio n s = .ok s := fun n => by
        cases n with
        | zero => rfl
        | succ n =>
          simp only [walk, hs, h.outside ha]
          rfl
      rw [hw]
      exact .unlisted hs (h.outside ha)

/-! ## How calls come out -/

/-- The fault with which a listed owner's ratio could not be told. -/
def Untold (live : Address → Checked Nat) (xs : List Address) (e : Fault) : Prop :=
  ∃ a ∈ xs, live a = .error e

theorem meets_told {Q : Nat → Prop} (ha : a ∈ xs) (hQ : ∀ x, live a = .ok x → Q x) :
    (live a).Meets Q (Untold live xs) := by
  cases hx : live a with
  | ok x => exact hQ x hx
  | error e => exact ⟨a, ha, hx⟩

theorem Holds.mem_of_next (h : l.Holds xs) {a b : Address} (hn : l.next? a = some b) :
    a ∈ xs ∧ b ∈ xs := by
  obtain ⟨ys, zs, rfl⟩ := h.split_of_next hn
  simp

theorem Holds.meets_fits (h : l.Holds xs) :
    (l.fits live ratio s).Meets (fun _ => True) (Untold live xs) := by
  obtain ⟨before?, after?⟩ := s
  rw [fits]
  cases before? with
  | none =>
    cases after? with
    | none => exact trivial
    | some b =>
      simp only [Checked.meets_ite, Checked.meets_bind, Checked.meets_pure]
      split
      · next hb =>
        rw [h.head] at hb
        exact meets_told (List.mem_of_head? hb) fun _ _ => trivial
      · trivial
  | some a =>
    cases after? with
    | none =>
      simp only [Checked.meets_ite, Checked.meets_bind, Checked.meets_pure]
      split
      · next ha =>
        rw [h.tail] at ha
        exact meets_told (List.mem_of_getLast? ha) fun _ _ => trivial
      · trivial
    | some b =>
      simp only [Checked.meets_ite, Checked.meets_bind, Checked.meets_pure]
      split
      · next hn =>
        obtain ⟨ha, hb⟩ := h.mem_of_next hn
        refine meets_told ha fun x _ => ?_
        split
        · exact meets_told hb fun _ _ => trivial
        · trivial
      · trivial

theorem Holds.meets_start (h : l.Holds xs) (hint? : Option Address) :
    (l.start? live ratio hint?).Meets (fun _ => True) (Untold live xs) := by
  cases hint? with
  | none => exact trivial
  | some a =>
    rw [TroveList.start?]
    simp only [Checked.meets_ite, Checked.meets_bind, Checked.meets_pure]
    split
    · next hc => exact meets_told ((h.contains a).1 hc) fun _ _ => trivial
    · trivial

theorem Walked.meets {r : Checked Slot} (h : l.Holds xs) (hw : Walked l live ratio n s r) :
    r.Meets (fun _ => True) (Untold live xs) := by
  induction hw with
  | atEnd | unlisted | greater => exact trivial
  | untold _ hn hx => exact ⟨_, h.mem_of_get? hn, hx⟩
  | pass _ _ _ _ _ ih => exact ih

/-- A place is found unless a listed owner's ratio cannot be told. -/
theorem Holds.meets_place (h : l.Holds xs) :
    (l.place live ratio hint).Meets (fun _ => True) (Untold live xs) := by
  rw [place]
  simp only [Checked.meets_bind]
  refine h.meets_fits.mono (fun fits _ _ => ?_) fun _ he => he
  cases fits with
  | true => exact trivial
  | false =>
    simp only [Bool.false_eq_true, if_false, Checked.meets_bind]
    refine (h.meets_start _).mono (fun before? _ _ => ?_) fun _ he => he
    obtain ⟨_, -, hw⟩ := h.walked live ratio ⟨before?, _⟩
    exact hw.meets h

/-- How a call on a sequence of owners can fail: it is refused, or a listed
owner's ratio cannot be told. -/
inductive Call.Fails (c : Call) (live : Address → Checked Nat) (capacity : Nat)
    (xs : List Address) : Fault → Prop where
  | refused {r : Refusal} (h : c.refusal? capacity xs = some r) :
      Fails c live capacity xs (.refused r)
  | untold {e : Fault} (h : c.refusal? capacity xs = none) (he : Untold live xs e) :
      Fails c live capacity xs e

/-! ## What a call does to the sequence -/

theorem erase_middle (h : id ∉ ys ++ zs) : (ys ++ id :: zs).erase id = ys ++ zs := by
  rw [List.mem_append, not_or] at h
  rw [List.erase_append_right _ h.1, List.erase_cons_head]

theorem Holds.apply_ok (h : l.Holds xs) (ha : c.apply live l = .ok l') :
    ∃ xs', l'.Holds xs' ∧ c.Alters xs xs' := by
  cases c with
  | insert id ratio hint =>
    obtain ⟨ys, zs, rfl, -, h', hid⟩ := h.insert_ok ha
    refine ⟨ys ++ id :: zs, h', ⟨hid, by simp⟩, ?_⟩
    rw [Call.id, erase_middle hid, List.erase_of_not_mem hid]
  | remove id =>
    obtain ⟨ys, zs, rfl, h'⟩ := h.detach_ok ha
    have hid := h.notMem_middle
    refine ⟨ys ++ zs, h', ⟨by simp, hid⟩, ?_⟩
    rw [Call.id, erase_middle hid, List.erase_of_not_mem hid]
  | reposition id ratio hint =>
    obtain ⟨us, vs, ys, zs, rfl, hxs, -, h'⟩ := h.reposition_ok ha
    refine ⟨ys ++ id :: zs, h', ⟨by simp, by simp⟩, ?_⟩
    rw [Call.id, erase_middle h'.notMem_middle, erase_middle h.notMem_middle, hxs]

theorem Holds.contains_eq (h : l.Holds xs) (a : Address) : l.contains a = decide (a ∈ xs) :=
  Bool.eq_iff_iff.2 (by rw [h.contains, decide_eq_true_eq])

theorem Holds.meets_detach (h : l.Holds xs) :
    (l.detach id).Meets (fun l' => id ∈ xs ∧ ∃ xs', l'.Holds xs' ∧ xs' ⊆ xs)
      (fun e => id ∉ xs ∧ e = .refused .notListed) := by
  cases hd : l.detach id with
  | ok l' =>
    obtain ⟨ys, zs, rfl, h'⟩ := h.detach_ok hd
    exact ⟨by simp, ys ++ zs, h', by simp⟩
  | error e =>
    have hid : id ∉ xs := fun hid => by
      obtain ⟨ys, zs, rfl⟩ := List.append_of_mem hid
      simp [TroveList.detach, h.links ys id zs rfl, pure, Except.pure] at hd
    simp only [TroveList.detach, h.outside hid, refuse, Except.error.injEq] at hd
    exact ⟨hid, hd.symm⟩

/-- A call fails only as it has to, and goes through only where it may. -/
theorem Holds.meets_apply (h : l.Holds xs) (c : Call) (live : Address → Checked Nat) :
    (c.apply live l).Meets (fun _ => c.refusal? l.capacity xs = none)
      (c.Fails live l.capacity xs) := by
  cases c with
  | insert id ratio hint =>
    simp only [Call.apply, TroveList.insert, isFull, h.size, h.contains_eq,
      Checked.meets_bind, meets_require, Checked.meets_pure]
    by_cases hfull : l.capacity ≤ xs.length
    · rw [if_neg (by simpa using hfull)]
      exact .refused (if_pos hfull)
    by_cases hid : id ∈ xs
    · rw [if_pos (by simpa using hfull), if_neg (by simpa using hid)]
      exact .refused (by simp [Call.refusal?, hfull, hid])
    by_cases hz : ratio = 0
    · rw [if_pos (by simpa using hfull), if_pos (by simpa using hid), if_neg (by simp [hz])]
      exact .refused (by simp [Call.refusal?, hfull, hid, hz])
    have hr : (Call.insert id ratio hint).refusal? l.capacity xs = none := by
      simp [Call.refusal?, hfull, hid, hz]
    rw [if_pos (by simpa using hfull), if_pos (by simpa using hid), if_pos (by simpa using hz)]
    exact h.meets_place.mono (fun _ _ _ => hr) fun _ he => .untold hr he
  | remove id =>
    refine h.meets_detach.mono (fun l' _ hd => if_pos hd.1) ?_
    rintro e ⟨hid, rfl⟩
    exact .refused (if_neg hid)
  | reposition id ratio hint =>
    simp only [Call.apply, TroveList.reposition, Checked.meets_bind, meets_require,
      Checked.meets_pure]
    by_cases hz : ratio = 0
    · rw [if_neg (by simp [hz])]
      exact .refused (if_pos hz)
    rw [if_pos (by simpa using hz)]
    refine h.meets_detach.mono ?_ ?_
    · rintro l₁ - ⟨hid, xs₁, h₁, hsub⟩
      have hr : (Call.reposition id ratio hint).refusal? l.capacity xs = none := by
        simp [Call.refusal?, hid, hz]
      refine h₁.meets_place.mono (fun _ _ _ => hr) ?_
      rintro e ⟨a, ha, he⟩
      exact .untold hr ⟨a, hsub ha, he⟩
    · rintro e ⟨hid, rfl⟩
      exact .refused (by simp [Call.refusal?, hid, hz])

theorem apply_keeper (ha : c.apply live l = .ok l') : l'.keeper? = l.keeper? := by
  cases c with
  | insert id ratio hint => exact insert_keeper ha
  | remove id => exact detach_keeper ha
  | reposition id ratio hint => exact reposition_keeper ha

theorem apply_capacity (ha : c.apply live l = .ok l') : l'.capacity = l.capacity := by
  cases c with
  | insert id ratio hint =>
    simp only [Call.apply, insert, Checked.bind_eq_ok, Checked.pure_eq_ok] at ha
    obtain ⟨-, -, -, -, -, -, s, -, rfl⟩ := ha
    exact attach_capacity
  | remove id => exact detach_capacity ha
  | reposition id ratio hint =>
    simp only [Call.apply, reposition, Checked.bind_eq_ok, Checked.pure_eq_ok] at ha
    obtain ⟨-, -, l₁, h₁, s, -, rfl⟩ := ha
    rw [attach_capacity, detach_capacity h₁]

/-- A call that is allowed leaves no more owners than the list has room for. -/
theorem Call.Alters.length_le {capacity : Nat} (hc : c.Alters xs xs')
    (hr : c.refusal? capacity xs = none) (hn : xs.length ≤ capacity) :
    xs'.length ≤ capacity := by
  have hl := congrArg List.length hc.others
  rw [List.length_erase, List.length_erase] at hl
  have ho := hc.owner
  cases c with
  | insert id ratio hint =>
    rw [Call.id, if_pos ho.2, if_neg ho.1] at hl
    have hlt : xs.length < capacity := by
      refine Nat.lt_of_not_le fun hfull => ?_
      simp [Call.refusal?, hfull] at hr
    omega
  | remove id =>
    rw [Call.id, if_neg ho.2, if_pos ho.1] at hl
    omega
  | reposition id ratio hint =>
    have := List.length_pos_of_mem ho.1
    rw [Call.id, if_pos ho.2, if_pos ho.1] at hl
    omega

/-- Whatever is asked of a list that holds a sequence, it holds one afterwards. -/
theorem Holds.meets_call (h : l.Holds xs) (hc : l.size ≤ l.capacity) (c : Call)
    (live : Address → Checked Nat) :
    (c.apply live l).Meets
      (fun l' => c.refusal? l.capacity xs = none ∧ l'.keeper? = l.keeper? ∧
        l'.capacity = l.capacity ∧ l'.size ≤ l'.capacity ∧
        ∃ xs', l'.Holds xs' ∧ c.Alters xs xs')
      (c.Fails live l.capacity xs) := by
  refine (h.meets_apply c live).mono (fun l' ha hr => ?_) fun _ he => he
  obtain ⟨xs', h', halt⟩ := h.apply_ok ha
  refine ⟨hr, apply_keeper ha, apply_capacity ha, ?_, xs', h', halt⟩
  rw [apply_capacity ha, h'.size]
  exact halt.length_le hr (h.size ▸ hc)

/-- Calls leave a list that holds a sequence one that holds a sequence. -/
theorem Holds.after (h : l.Holds xs) (hc : l.size ≤ l.capacity)
    (cs : List (Call × (Address → Checked Nat))) :
    (l.after cs).keeper? = l.keeper? ∧ (l.after cs).capacity = l.capacity ∧
      (l.after cs).size ≤ (l.after cs).capacity ∧ ∃ xs', (l.after cs).Holds xs' := by
  induction cs generalizing l xs with
  | nil => exact ⟨rfl, rfl, hc, xs, h⟩
  | cons call cs ih =>
    obtain ⟨c, live⟩ := call
    have hm := h.meets_call hc c live
    rw [TroveList.after]
    cases ha : c.apply live l with
    | error e => exact ih h hc
    | ok l' =>
      rw [ha] at hm
      obtain ⟨-, hk, hcap, hc', xs', h', -⟩ := hm
      rw [← hk, ← hcap]
      exact ih h' hc'

/-! ## Calls at the contract -/

theorem onlyKeeper_run (caller : Address) (w : World) :
    Protocol.onlyKeeper caller w =
      if w.list.keeper? = some caller then .ok ⟨(), w, []⟩
      else .error (.refused .callerNotTrusted) := by
  by_cases h : w.list.keeper? = some caller <;>
    simp [Protocol.onlyKeeper, Action.bind_run, h, require, refuse, Except.map]

/-- To read the world and make no use of it is to do nothing. -/
theorem world_unread {α : Type} (x : Action α) : (Action.world >>= fun _ => x) = x := by
  funext w
  rw [Action.bind_run]
  cases hx : x w <;> simp [hx, Except.map]

/-- What the keeper asks of the list is done, and nobody else's wish. -/
theorem keeper_run (f : World → TroveList → Checked TroveList) (e : Event) (caller : Address)
    (w : World) :
    Request.silent (do
        Protocol.onlyKeeper caller
        let w ← Action.world
        Protocol.onList (f w)
        Action.emit e) w =
      if w.list.keeper? = some caller then
        (f w w.list).map fun list => ⟨.done, { w with list }, [e]⟩
      else
        .error (.refused .callerNotTrusted) := by
  rw [Request.silent, Action.bind_assoc, Action.bind_run, onlyKeeper_run]
  by_cases hk : w.list.keeper? = some caller
  · rw [if_pos hk, if_pos hk]
    cases hf : f w w.list <;> simp [Protocol.onList, Action.bind_run, hf, Except.map]
  · rw [if_neg hk, if_neg hk]

/-- At the contract a call is what it makes of the list if the keeper makes it,
and is refused to everybody else. -/
theorem Call.perform_eq (c : Call) (caller : Address) (w : World) :
    c.request.perform caller w =
      if w.list.keeper? = some caller then
        (c.apply w.liveRatio w.list).map fun list => ⟨.done, { w with list }, [c.event]⟩
      else
        .error (.refused .callerNotTrusted) := by
  cases c with
  | insert id ratio hint =>
    exact keeper_run (fun w l => l.insert w.liveRatio id ratio hint) _ caller w
  | remove id =>
    have hrun := keeper_run (fun _ l => l.detach id) (.unlisted id) caller w
    rw [world_unread] at hrun
    exact hrun
  | reposition id ratio hint =>
    exact keeper_run (fun w l => l.reposition w.liveRatio id ratio hint) _ caller w

/-! ## Calls in any number -/

/-- Whatever calls the keeper made, with whatever hints and ratios, the list is a
sequence of owners, and what is asked of it next comes out as it has to: the call
is refused or fails on a ratio that cannot be told, or its own owner comes, goes
or moves.  The walk for a place, in the list as it is or with one owner taken
out, ends. -/
theorem after_chained (keeper? : Option Address) (capacity : Nat)
    (cs : List (Call × (Address → Checked Nat))) :
    let l := TroveList.after { keeper?, capacity } cs
    l.capacity = capacity ∧ ∃ xs, l.Chained xs ∧
      (∀ (c : Call) (live : Address → Checked Nat), (c.apply live l).Meets
        (fun l' => c.refusal? capacity xs = none ∧ ∃ xs', l'.Chained xs' ∧ c.Alters xs xs')
        (c.Fails live capacity xs)) ∧
      (∀ l₁, l₁ = l ∨ (∃ id, l.detach id = .ok l₁) →
        ∀ (live : Address → Checked Nat) (ratio : Nat) (s : Slot),
          ∃ n ≤ l₁.size, Walked l₁ live ratio n s (l₁.walk live ratio l₁.size s)) ∧
      ∀ (c : Call) (caller : Address) (w : World), w.list = l →
        c.request.perform caller w =
          if keeper? = some caller then
            (c.apply w.liveRatio l).map fun list => ⟨.done, { w with list }, [c.event]⟩
          else
            .error (.refused .callerNotTrusted) := by
  intro l
  obtain ⟨hk, hcap, hc, xs, h⟩ := (holds_new keeper? capacity).after (Nat.zero_le _) cs
  refine ⟨hcap, xs, h.chained hc, ?_, ?_, ?_⟩
  · intro c live
    have hm := h.meets_call hc c live
    rw [hcap] at hm
    refine hm.mono ?_ fun _ he => he
    rintro l' - ⟨hr, -, -, hc', xs', h', halt⟩
    exact ⟨hr, xs', h'.chained hc', halt⟩
  · rintro l₁ (rfl | ⟨id, hd⟩) live ratio s
    · exact h.walked live ratio s
    · obtain ⟨ys, zs, -, h₁⟩ := h.detach_ok hd
      exact h₁.walked live ratio s
  · intro c caller w hw
    rw [c.perform_eq, hw, hk]

end TroveList

end Troves
