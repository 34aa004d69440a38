/-
# Places and order

A place found for a ratio splits the sequence of owners in two: the owner
just before it has at most the ratio, the one just behind it a greater one.
The walk reads only the owners it passes, so this says nothing of the others;
that they are on the right side too follows where the sequence is in order,
and then it stays in order with the new owner in it.
-/
import Troves.Proofs.Links

namespace Troves

namespace TroveList

variable {l l' : TroveList} {xs ys zs : List Address} {live : Address → Checked Nat}
  {id : Address} {ratio n : Nat} {s hint : Slot}

/-! ## Where a place lies -/

/-- A sequence split at the place of a ratio, as far as the neighbours of the
place show it. -/
structure Parts (live : Address → Checked Nat) (ratio : Nat) (ys zs : List Address) : Prop where
  before : ∀ a, ys.getLast? = some a → ∃ x, live a = .ok x ∧ x ≤ ratio
  behind : ∀ b, zs.head? = some b → ∃ y, live b = .ok y ∧ ratio < y

/-- The place between two parts of a sequence. -/
def between (ys zs : List Address) : Slot := { before? := ys.getLast?, after? := zs.head? }

/-- A listed owner stands somewhere. -/
theorem Holds.split_of_next (h : l.Holds xs) {a b : Address} (hn : l.next? a = some b) :
    ∃ ys zs, xs = ys ++ a :: b :: zs := by
  obtain ⟨node, hnode, -⟩ := Option.bind_eq_some_iff.1 hn
  obtain ⟨ys, zs, rfl⟩ := List.append_of_mem (h.mem_of_get? hnode)
  rw [h.next] at hn
  obtain ⟨c, rfl⟩ := List.head?_eq_some_iff.1 hn
  exact ⟨ys, c, rfl⟩

/-- A hint that fits is a place. -/
theorem Holds.fits_ok (h : l.Holds xs) (hf : l.fits live ratio s = .ok true) :
    ∃ ys zs, xs = ys ++ zs ∧ s = between ys zs ∧ Parts live ratio ys zs := by
  obtain ⟨before?, after?⟩ := s
  rw [fits] at hf
  cases before? with
  | none =>
    cases after? with
    | none =>
      simp only [Checked.pure_eq_ok, isEmpty, beq_iff_eq, h.size, List.length_eq_zero_iff] at hf
      subst hf
      exact ⟨[], [], rfl, rfl, by simp, by simp⟩
    | some b =>
      simp only at hf
      split at hf
      · next hb =>
        simp only [Checked.bind_eq_ok, Checked.pure_eq_ok, decide_eq_true_eq] at hf
        obtain ⟨y, hy, hlt⟩ := hf
        rw [h.head] at hb
        refine ⟨[], xs, rfl, by rw [between, hb]; rfl, by simp, ?_⟩
        intro c hc
        rw [hb, Option.some.injEq] at hc
        exact ⟨y, hc ▸ hy, hlt⟩
      · cases hf
  | some a =>
    cases after? with
    | none =>
      simp only at hf
      split at hf
      · next ha =>
        simp only [Checked.bind_eq_ok, Checked.pure_eq_ok, decide_eq_true_eq] at hf
        obtain ⟨x, hx, hle⟩ := hf
        rw [h.tail] at ha
        refine ⟨xs, [], by simp, by rw [between, ha]; rfl, ?_, by simp⟩
        intro c hc
        rw [ha, Option.some.injEq] at hc
        exact ⟨x, hc ▸ hx, hle⟩
      · cases hf
    | some b =>
      simp only at hf
      split at hf
      · next hn =>
        simp only [Checked.bind_eq_ok] at hf
        obtain ⟨x, hx, hf⟩ := hf
        split at hf
        · next hle =>
          simp only [Checked.bind_eq_ok, Checked.pure_eq_ok, decide_eq_true_eq] at hf
          obtain ⟨y, hy, hlt⟩ := hf
          obtain ⟨ys, zs, rfl⟩ := h.split_of_next hn
          refine ⟨ys ++ [a], b :: zs, by simp, by simp [between], ?_, ?_⟩
          · intro c hc
            rw [List.getLast?_concat, Option.some.injEq] at hc
            exact ⟨x, hc ▸ hx, hle⟩
          · intro c hc
            rw [List.head?_cons, Option.some.injEq] at hc
            exact ⟨y, hc ▸ hy, hlt⟩
        · cases hf
      · cases hf

/-- A walk that starts behind smaller ratios ends at a place.  Its fuel, the
number of owners listed, is always enough. -/
theorem Holds.walk_ok (ys zs : List Address) (h : l.Holds (ys ++ zs))
    (hbefore : ∀ a, ys.getLast? = some a → ∃ x, live a = .ok x ∧ x ≤ ratio)
    (hn : zs.length ≤ n) (hw : l.walk live ratio n (between ys zs) = .ok s) :
    ∃ ys' zs', ys ++ zs = ys' ++ zs' ∧ s = between ys' zs' ∧ Parts live ratio ys' zs' := by
  induction n generalizing ys zs with
  | zero =>
    obtain rfl : zs = [] := by simpa using hn
    rw [walk, Checked.pure_eq_ok] at hw
    exact ⟨ys, [], rfl, hw.symm, hbefore, by simp⟩
  | succ n ih =>
    cases zs with
    | nil =>
      simp only [walk, between, List.head?_nil, Checked.pure_eq_ok] at hw
      exact ⟨ys, [], rfl, hw.symm, hbefore, by simp⟩
    | cons a zs =>
      simp only [walk, between, List.head?_cons, h.links ys a zs rfl, Checked.bind_eq_ok] at hw
      obtain ⟨y, hy, hw⟩ := hw
      split at hw
      · next hlt =>
        rw [Checked.pure_eq_ok] at hw
        refine ⟨ys, a :: zs, rfl, hw.symm, hbefore, ?_⟩
        intro b hb
        rw [List.head?_cons, Option.some.injEq] at hb
        exact ⟨y, hb ▸ hy, hlt⟩
      · next hle =>
        have hsplit : ys ++ a :: zs = (ys ++ [a]) ++ zs := by simp
        have hlast : (ys ++ [a]).getLast? = some a := List.getLast?_concat
        rw [hsplit] at h ⊢
        refine ih (ys ++ [a]) zs h (?_) (by simpa using hn) (by rwa [between, hlast])
        intro b hb
        rw [hlast, Option.some.injEq] at hb
        exact ⟨y, hb ▸ hy, by omega⟩

/-- Whatever the hint, a place found is one. -/
theorem Holds.place_ok (h : l.Holds xs) (hp : l.place live ratio hint = .ok s) :
    ∃ ys zs, xs = ys ++ zs ∧ s = between ys zs ∧ Parts live ratio ys zs := by
  simp only [place, Checked.bind_eq_ok] at hp
  obtain ⟨fits, hf, hp⟩ := hp
  cases fits with
  | true =>
    simp only [if_true, Checked.pure_eq_ok] at hp
    exact hp ▸ h.fits_ok hf
  | false =>
    simp only [Bool.false_eq_true, if_false, Checked.bind_eq_ok] at hp
    obtain ⟨from?, hs, hw⟩ := hp
    rw [h.size] at hw
    have fromHead (hw : l.walk live ratio xs.length ⟨none, l.head?⟩ = .ok s) :
        ∃ ys zs, xs = ys ++ zs ∧ s = between ys zs ∧ Parts live ratio ys zs :=
      Holds.walk_ok [] xs h (by simp) (Nat.le_refl _) (by rwa [between, ← h.head])
    cases hb : hint.before? with
    | none =>
      rw [hb, TroveList.start?, Checked.pure_eq_ok] at hs
      subst hs
      exact fromHead hw
    | some a =>
      rw [hb, TroveList.start?] at hs
      split at hs
      · next hc =>
        simp only [Checked.bind_eq_ok, Checked.pure_eq_ok] at hs
        obtain ⟨x, hx, rfl⟩ := hs
        by_cases hle : x ≤ ratio
        · -- the walk sets out behind the hint
          rw [if_pos hle] at hw
          obtain ⟨ys, zs, rfl⟩ := List.append_of_mem ((h.contains a).1 hc)
          have hsplit : ys ++ a :: zs = (ys ++ [a]) ++ zs := by simp
          have hlast : (ys ++ [a]).getLast? = some a := List.getLast?_concat
          simp only [h.next] at hw
          rw [hsplit] at h hw ⊢
          refine Holds.walk_ok (ys ++ [a]) zs h (?_) ?_ (by rwa [between, hlast])
          · intro b hb
            rw [hlast, Option.some.injEq] at hb
            exact ⟨x, hb ▸ hx, hle⟩
          · rw [List.length_append]
            omega
        · rw [if_neg hle] at hw
          exact fromHead hw
      · cases hs
        exact fromHead hw

/-! ## Insertion and repositioning -/

theorem Holds.insert_ok (h : l.Holds xs) (hi : l.insert live id ratio hint = .ok l') :
    ∃ ys zs, xs = ys ++ zs ∧ Parts live ratio ys zs ∧ l'.Holds (ys ++ id :: zs) ∧ id ∉ xs := by
  simp only [insert, Checked.bind_eq_ok, Checked.pure_eq_ok, require_eq_ok,
    Bool.not_eq_true'] at hi
  obtain ⟨-, -, -, hc, -, -, s, hs, rfl⟩ := hi
  have hid : id ∉ xs := fun hm => by
    rw [(h.contains id).2 hm] at hc
    cases hc
  obtain ⟨ys, zs, rfl, rfl, hp⟩ := h.place_ok hs
  exact ⟨ys, zs, rfl, hp, h.attach hid, hid⟩

theorem Holds.detach_ok (h : l.Holds xs) (hd : l.detach id = .ok l') :
    ∃ ys zs, xs = ys ++ id :: zs ∧ l'.Holds (ys ++ zs) := by
  have hid : id ∈ xs := by
    refine Decidable.byContradiction ?_
    intro hid
    rw [TroveList.detach, h.outside hid] at hd
    cases hd
  obtain ⟨ys, zs, rfl⟩ := List.append_of_mem hid
  exact ⟨ys, zs, rfl, h.detach hd⟩

theorem Holds.reposition_ok (h : l.Holds xs)
    (hr : l.reposition live id ratio hint = .ok l') :
    ∃ us vs ys zs, xs = us ++ id :: vs ∧ us ++ vs = ys ++ zs ∧ Parts live ratio ys zs ∧
      l'.Holds (ys ++ id :: zs) := by
  simp only [reposition, Checked.bind_eq_ok, Checked.pure_eq_ok] at hr
  obtain ⟨-, -, l₁, hd, s, hs, rfl⟩ := hr
  obtain ⟨us, vs, rfl, h₁⟩ := h.detach_ok hd
  have hid := h.notMem_middle
  obtain ⟨ys, zs, hxs, rfl, hp⟩ := h₁.place_ok hs
  rw [hxs] at h₁ hid
  exact ⟨us, vs, ys, zs, rfl, hxs, hp, h₁.attach hid⟩

/-! ## Order -/

/-- Two owners whose ratios, where both can be told, are in order. -/
def InOrder (live : Address → Checked Nat) (a b : Address) : Prop :=
  ∀ x y, live a = .ok x → live b = .ok y → x ≤ y

/-- A walk from the head on, however far, meets the owners in ascending order
of their ratios. -/
def Ascending (l : TroveList) (live : Address → Checked Nat) : Prop :=
  ∀ most, (l.forward most).Pairwise (InOrder live)

theorem Holds.ascending_iff (h : l.Holds xs) :
    l.Ascending live ↔ xs.Pairwise (InOrder live) := by
  rw [Ascending]
  simp only [h.forward]
  constructor
  · intro ha
    have hx := ha xs.length
    rwa [List.take_length] at hx
  · intro ha n
    exact ha.sublist (List.take_sublist n xs)

/-- Owners stay in order as long as no new ratio can be told of one. -/
theorem pairwise_inOrder_mono {live' : Address → Checked Nat}
    (h : ∀ a ∈ xs, ∀ x, live' a = .ok x → live a = .ok x)
    (ho : xs.Pairwise (InOrder live)) : xs.Pairwise (InOrder live') :=
  ho.imp_of_mem fun ha hb hab x y hx hy => hab x y (h _ ha x hx) (h _ hb y hy)

/-- Owners whose ratios did not change are in the order they were in. -/
theorem pairwise_inOrder_congr {live' : Address → Checked Nat}
    (h : ∀ a ∈ xs, live' a = live a) :
    xs.Pairwise (InOrder live') ↔ xs.Pairwise (InOrder live) := by
  constructor
  · exact pairwise_inOrder_mono fun a ha x hx => (h a ha).trans hx
  · exact pairwise_inOrder_mono fun a ha x hx => (h a ha).symm.trans hx

/-- In a sequence in order the neighbour before a place speaks for all who come
before it. -/
theorem Parts.le_of_mem {a : Address} {x : Nat} (hp : Parts live ratio ys zs)
    (h : ys.Pairwise (InOrder live)) (ha : a ∈ ys) (hx : live a = .ok x) : x ≤ ratio := by
  obtain ⟨us, c, rfl⟩ := (List.eq_nil_or_concat ys).resolve_left (List.ne_nil_of_mem ha)
  rw [List.concat_eq_append] at ha h hp
  obtain ⟨z, hc, hle⟩ := hp.before c List.getLast?_concat
  rcases List.mem_append.1 ha with ha | ha
  · exact Nat.le_trans ((List.pairwise_append.1 h).2.2 a ha c (by simp) x z hx hc) hle
  · rw [List.mem_singleton.1 ha, hc] at hx
    exact Except.ok.inj hx ▸ hle

/-- And the neighbour behind it for all who come behind it. -/
theorem Parts.lt_of_mem {b : Address} {y : Nat} (hp : Parts live ratio ys zs)
    (h : zs.Pairwise (InOrder live)) (hb : b ∈ zs) (hy : live b = .ok y) : ratio < y := by
  obtain ⟨c, us, rfl⟩ := List.exists_cons_of_ne_nil (List.ne_nil_of_mem hb)
  obtain ⟨z, hc, hlt⟩ := hp.behind c rfl
  rcases List.mem_cons.1 hb with rfl | hb
  · rw [hc] at hy
    exact Except.ok.inj hy ▸ hlt
  · exact Nat.lt_of_lt_of_le hlt ((List.pairwise_cons.1 h).1 b hb z y hc hy)

/-- An owner put into the place of its ratio is in order with all the others,
if they were in order among themselves. -/
theorem Parts.pairwise (hp : Parts live ratio ys zs) (h : (ys ++ zs).Pairwise (InOrder live))
    (hid : ∀ x, live id = .ok x → x = ratio) :
    (ys ++ id :: zs).Pairwise (InOrder live) := by
  obtain ⟨hy, hz, hyz⟩ := List.pairwise_append.1 h
  have hbefore : ∀ a ∈ ys, InOrder live a id := fun a ha x y hx hi => by
    rw [hid y hi]
    exact hp.le_of_mem hy ha hx
  have hbehind : ∀ b ∈ zs, InOrder live id b := fun b hb x y hi hy => by
    rw [hid x hi]
    exact Nat.le_of_lt (hp.lt_of_mem hz hb hy)
  refine List.pairwise_append.2 ⟨hy, List.pairwise_cons.2 ⟨hbehind, hz⟩, ?_⟩
  intro a ha b hb
  rcases List.mem_cons.1 hb with rfl | hb
  · exact hbefore a ha
  · exact hyz a ha b hb

end TroveList

end Troves
