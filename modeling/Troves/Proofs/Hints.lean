/-
# What a hint is worth

A hint saves steps and decides nothing.  Where the ratios of a sequence can
all be told and ascend, there is one way to part it for a ratio, with every
ratio up to it on one side and every greater one on the other, and from
whatever hint the search ends in between.

    hint                         where the search begins
    exactly right                nowhere, it is taken as it is
    listed, not behind           at the hint
    absent, unlisted, behind     at the head

So an owner that is put in comes to stand behind all equal ratios, and the
sequence is in order with it; the same holds of one that is moved, and there
only the others have to be in order before.
-/
import Troves.Proofs.Sequence

namespace Troves

namespace TroveList

variable {l l' : TroveList} {xs ys zs ys' zs' : List Address} {live : Address → Checked Nat}
  {id : Address} {ratio : Nat} {hint : Slot}

/-! ## One way to part a sequence -/

/-- Owners whose ratios can be told and ascend. -/
structure Ordered (live : Address → Checked Nat) (xs : List Address) : Prop where
  told : ∀ a ∈ xs, ∃ x, live a = .ok x
  ascending : xs.Pairwise (InOrder live)

/-- A sequence parted for a ratio: up to it in front, above it behind. -/
structure Parted (live : Address → Checked Nat) (ratio : Nat) (ys zs : List Address) : Prop where
  before : ∀ a ∈ ys, ∃ x, live a = .ok x ∧ x ≤ ratio
  behind : ∀ b ∈ zs, ∃ y, live b = .ok y ∧ ratio < y

/-- In an ordered sequence the neighbours of a place speak for all the others
on their side. -/
theorem Parts.parted (hp : Parts live ratio ys zs) (h : Ordered live (ys ++ zs)) :
    Parted live ratio ys zs := by
  obtain ⟨hy, hz, -⟩ := List.pairwise_append.1 h.ascending
  constructor
  · intro a ha
    obtain ⟨x, hx⟩ := h.told a (List.mem_append_left _ ha)
    exact ⟨x, hx, hp.le_of_mem hy ha hx⟩
  · intro b hb
    obtain ⟨y, hy⟩ := h.told b (List.mem_append_right _ hb)
    exact ⟨y, hy, hp.lt_of_mem hz hb hy⟩

theorem Parted.not_both {a : Address} (h : ∃ x, live a = .ok x ∧ x ≤ ratio)
    (h' : ∃ y, live a = .ok y ∧ ratio < y) : False := by
  obtain ⟨x, hx, hle⟩ := h
  obtain ⟨y, hy, hlt⟩ := h'
  cases hx.symm.trans hy
  exact Nat.lt_irrefl _ (Nat.lt_of_lt_of_le hlt hle)

/-- There is only one way to part a sequence for a ratio. -/
theorem Parted.unique (h : Parted live ratio ys zs) (h' : Parted live ratio ys' zs')
    (heq : ys ++ zs = ys' ++ zs') : ys = ys' ∧ zs = zs' := by
  rcases List.append_eq_append_iff.1 heq with ⟨m, hys, hzs⟩ | ⟨m, hys, hzs⟩
  · cases m with
    | nil => exact ⟨by simpa using hys.symm, by simpa using hzs⟩
    | cons a m =>
      exact (not_both (h'.before a (by simp [hys])) (h.behind a (by simp [hzs]))).elim
  · cases m with
    | nil => exact ⟨by simpa using hys, by simpa using hzs.symm⟩
    | cons a m =>
      exact (not_both (h.before a (by simp [hys])) (h'.behind a (by simp [hzs]))).elim

/-- With an owner of this ratio in between, the sequence stays ordered. -/
theorem Parted.ordered (hp : Parted live ratio ys zs) (h : Ordered live (ys ++ zs))
    (hid : live id = .ok ratio) : Ordered live (ys ++ id :: zs) := by
  constructor
  · intro a ha
    rcases List.mem_cons.1 (List.perm_middle.mem_iff.1 ha) with rfl | ha
    · exact ⟨ratio, hid⟩
    · exact h.told a ha
  · have hparts : Parts live ratio ys zs :=
      ⟨fun a ha => hp.before a (List.mem_of_getLast? ha),
        fun b hb => hp.behind b (List.mem_of_head? hb)⟩
    refine hparts.pairwise h.ascending fun x hx => ?_
    cases hx.symm.trans hid
    rfl

/-! ## The search -/

/-- In an ordered sequence a place is found, and it is where the sequence
parts. -/
theorem Holds.place_parted (h : l.Holds xs) (ho : Ordered live xs) (ratio : Nat) (hint : Slot) :
    ∃ ys zs, xs = ys ++ zs ∧ Parted live ratio ys zs ∧
      l.place live ratio hint = .ok (between ys zs) := by
  have hfound : (l.place live ratio hint).Meets (fun _ => True) (Untold live xs) := h.meets_place
  cases hp : l.place live ratio hint with
  | error e =>
    rw [hp] at hfound
    obtain ⟨a, ha, he⟩ := hfound
    obtain ⟨x, hx⟩ := ho.told a ha
    cases he.symm.trans hx
  | ok s =>
    obtain ⟨ys, zs, rfl, rfl, hparts⟩ := h.place_ok hp
    exact ⟨ys, zs, rfl, hparts.parted ho, rfl⟩

/-- So it is the same place for every hint. -/
theorem Holds.place_eq (h : l.Holds (ys ++ zs)) (ho : Ordered live (ys ++ zs))
    (hp : Parted live ratio ys zs) (hint : Slot) :
    l.place live ratio hint = .ok (between ys zs) := by
  obtain ⟨us, vs, heq, hp', hs⟩ := h.place_parted ho ratio hint
  obtain ⟨rfl, rfl⟩ := hp.unique hp' heq
  exact hs

/-! ## Putting in and moving -/

/-- A listed owner can be taken out. -/
theorem Holds.detaches (h : l.Holds (ys ++ id :: zs)) : ∃ l', l.detach id = .ok l' := by
  rw [TroveList.detach, h.links ys id zs rfl]
  exact ⟨_, rfl⟩

theorem Holds.insert_eq (h : l.Holds (ys ++ zs)) (ho : Ordered live (ys ++ zs))
    (hp : Parted live ratio ys zs) (hid : id ∉ ys ++ zs) (hr : ratio ≠ 0)
    (hroom : (ys ++ zs).length < l.capacity) (hint : Slot) :
    l.insert live id ratio hint = .ok (l.attach id (between ys zs)) := by
  have hfull : l.isFull = false := by
    rw [isFull, h.size, decide_eq_false_iff_not]
    omega
  have hc : l.contains id = false := by
    rw [h.contains_eq, decide_eq_false_iff_not]
    exact hid
  simp only [insert, Checked.bind_eq_ok, Checked.pure_eq_ok, require_eq_ok]
  exact ⟨(), by simp [hfull], (), by simp [hc], (), by simpa using hr, _,
    h.place_eq ho hp hint, rfl⟩

theorem Holds.reposition_eq (h : l'.Holds (ys ++ zs)) (ho : Ordered live (ys ++ zs))
    (hp : Parted live ratio ys zs) (hd : l.detach id = .ok l') (hr : ratio ≠ 0) (hint : Slot) :
    l.reposition live id ratio hint = .ok (l'.attach id (between ys zs)) := by
  simp only [reposition, Checked.bind_eq_ok, Checked.pure_eq_ok, require_eq_ok]
  exact ⟨(), by simpa using hr, l', hd, _, h.place_eq ho hp hint, rfl⟩

/-- A place in an ordered list is the same for every hint, behind all ratios up
to the one it is for and before all greater ones.  An owner of this ratio that
is put in, or moved, comes to stand there, and the list is in order then: of
one that is moved, only the others need to be in order before. -/
theorem hints_immaterial (live : Address → Checked Nat) (ratio : Nat) :
    (∀ (l : TroveList) (xs : List Address), l.Holds xs → Ordered live xs →
      ∃ ys zs, xs = ys ++ zs ∧ Parted live ratio ys zs ∧
        ∀ hint, l.place live ratio hint = .ok (between ys zs)) ∧
    ∀ (l : TroveList) (xs : List Address) (id : Address), l.Holds xs →
      Ordered live (xs.erase id) → live id = .ok ratio → ratio ≠ 0 →
      ∃ ys zs, xs.erase id = ys ++ zs ∧ Parted live ratio ys zs ∧
        Ordered live (ys ++ id :: zs) ∧
        (id ∉ xs → xs.length < l.capacity → ∃ l', l'.Holds (ys ++ id :: zs) ∧
          ∀ hint, l.insert live id ratio hint = .ok l') ∧
        (id ∈ xs → ∃ l', l'.Holds (ys ++ id :: zs) ∧
          ∀ hint, l.reposition live id ratio hint = .ok l') := by
  constructor
  · intro l xs h ho
    obtain ⟨ys, zs, rfl, hp, -⟩ := h.place_parted ho ratio {}
    exact ⟨ys, zs, rfl, hp, h.place_eq ho hp⟩
  · intro l xs id h ho hid hr
    by_cases hx : id ∈ xs
    · obtain ⟨us, vs, rfl⟩ := List.append_of_mem hx
      have hout := h.notMem_middle
      rw [erase_middle hout] at ho ⊢
      obtain ⟨l', hd⟩ := h.detaches
      have h' := h.detach hd
      obtain ⟨ys, zs, heq, hp, -⟩ := h'.place_parted ho ratio {}
      rw [heq] at h' ho hout
      refine ⟨ys, zs, heq, hp, hp.ordered ho hid, fun hn => absurd hx hn, fun _ => ?_⟩
      exact ⟨_, h'.attach hout, h'.reposition_eq ho hp hd hr⟩
    · rw [List.erase_of_not_mem hx] at ho ⊢
      obtain ⟨ys, zs, rfl, hp, -⟩ := h.place_parted ho ratio {}
      refine ⟨ys, zs, rfl, hp, hp.ordered ho hid, fun _ hroom => ?_, fun h => absurd h hx⟩
      exact ⟨_, h.attach hx, h.insert_eq ho hp hx hr hroom⟩

/-- The first of three owners has risen to the ratio of the second: wherever it
is said to belong, it comes to stand behind the second. -/
theorem hints_immaterial_tie :
    let live : Address → Checked Nat := fun a => .ok (if a = .account 3 then 9 else 7)
    let one := ({ capacity := 8 } : TroveList).attach (.account 1) {}
    let two := one.attach (.account 2) { before? := some (.account 1) }
    let l := two.attach (.account 3) { before? := some (.account 2) }
    l.Holds [.account 1, .account 2, .account 3] ∧
      Ordered live [.account 2, .account 3] ∧ live (.account 1) = .ok 7 ∧
      ∃ l', l'.Holds [.account 2, .account 1, .account 3] ∧
        ∀ hint, l.reposition live (.account 1) 7 hint = .ok l' := by
  intro live one two l
  have h₀ : Holds { capacity := 8 } ([] ++ []) := holds_new none 8
  have h₁ : one.Holds ([.account 1] ++ []) := h₀.attach (by decide)
  have h₂ : two.Holds ([.account 1, .account 2] ++ []) := h₁.attach (by decide)
  have h₃ : l.Holds [.account 1, .account 2, .account 3] := h₂.attach (by decide)
  have ho : Ordered live [.account 2, .account 3] := by
    refine ⟨fun a _ => ⟨_, rfl⟩, List.pairwise_pair.2 fun x y hx hy => ?_⟩
    cases hx
    cases hy
    decide
  obtain ⟨ys, zs, heq, hp, -, -, hmove⟩ :=
    (hints_immaterial live 7).2 l _ (.account 1) h₃ ho rfl (by decide)
  have hparted : Parted live 7 [.account 2] [.account 3] :=
    ⟨by simp [live], by simp [live]⟩
  obtain ⟨rfl, rfl⟩ := hp.unique hparted heq.symm
  exact ⟨h₃, ho, rfl, hmove (by simp)⟩

end TroveList

end Troves
