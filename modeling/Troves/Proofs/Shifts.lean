/-
# Moving an owner from where it stands

An owner that is moved to the place of the ratio it has, from between its own
neighbours, passes those behind it that have the same ratio and stops before the
first greater one.

    before    us  id  ms  ns
    after     us  ms  id  ns        ms: the ratio of id, ns: greater ratios

Only the neighbour before it and those up to the first greater ratio are read, so
only these ratios have to be told.  Whether another owner can be moved does not
change when `id` is moved: from the head to the tail, the ratios are the same ones
as before.
-/
import Mathlib.Data.List.Basic
import Troves.Proofs.Hints

namespace Troves

namespace TroveList

variable {l l' : TroveList} {xs us vs vs' ms ns : List Address} {live : Address → Checked Nat}
  {id c : Address} {ratio n : Nat} {s : Slot}

/-! ## What a walk passes -/

/-- Splits some owners before the first ratio that is greater than a given one, as
far as the ratios up to there can be told. -/
def ahead (live : Address → Checked Nat) (ratio : Nat) :
    List Address → Checked (List Address × List Address)
  | [] => return ([], [])
  | a :: as => do
    if ratio < (← live a) then
      return ([], a :: as)
    else
      let p ← ahead live ratio as
      return (a :: p.1, p.2)

/-- A walk to the place of a ratio passes some owners and stops before others. -/
structure Clears (live : Address → Checked Nat) (ratio : Nat) (ms ns : List Address) : Prop where
  passed : ∀ a ∈ ms, ∃ x, live a = .ok x ∧ x ≤ ratio
  stops : ∀ b, ns.head? = some b → ∃ y, live b = .ok y ∧ ratio < y

theorem clears_nil (h : ∀ b, ns.head? = some b → ∃ y, live b = .ok y ∧ ratio < y) :
    Clears live ratio [] ns :=
  ⟨fun _ ha => absurd ha List.not_mem_nil, h⟩

theorem clears_cons {a : Address} :
    Clears live ratio (a :: ms) ns ↔
      (∃ x, live a = .ok x ∧ x ≤ ratio) ∧ Clears live ratio ms ns := by
  constructor
  · intro h
    exact ⟨h.passed a List.mem_cons_self,
      fun b hb => h.passed b (List.mem_cons_of_mem _ hb), h.stops⟩
  · rintro ⟨ha, h⟩
    refine ⟨fun b hb => ?_, h.stops⟩
    rcases List.mem_cons.1 hb with rfl | hb
    · exact ha
    · exact h.passed b hb

theorem ahead_eq_ok :
    ahead live ratio vs = .ok (ms, ns) ↔ vs = ms ++ ns ∧ Clears live ratio ms ns := by
  induction vs generalizing ms with
  | nil =>
    simp only [ahead, Checked.pure_eq_ok, Prod.mk.injEq, List.nil_eq_append_iff]
    constructor
    · rintro ⟨rfl, rfl⟩
      exact ⟨⟨rfl, rfl⟩, clears_nil fun b hb => by cases hb⟩
    · rintro ⟨⟨rfl, rfl⟩, -⟩
      exact ⟨rfl, rfl⟩
  | cons a vs ih =>
    rw [ahead, Checked.bind_eq_ok]
    constructor
    · rintro ⟨y, hy, h⟩
      split at h
      · next hlt =>
        cases h
        refine ⟨rfl, clears_nil fun b hb => ?_⟩
        cases hb
        exact ⟨y, hy, hlt⟩
      · next hle =>
        obtain ⟨p, hp, h⟩ := Checked.bind_eq_ok.1 h
        cases h
        obtain ⟨rfl, hclear⟩ := ih.1 hp
        exact ⟨rfl, clears_cons.2 ⟨⟨y, hy, by omega⟩, hclear⟩⟩
    · rintro ⟨heq, hclear⟩
      cases ms with
      | nil =>
        obtain rfl : a :: vs = ns := heq
        obtain ⟨y, hy, hlt⟩ := hclear.stops a rfl
        exact ⟨y, hy, by rw [if_pos hlt]; rfl⟩
      | cons b ms =>
        obtain ⟨rfl, rfl⟩ := List.cons_eq_cons.1 heq
        obtain ⟨⟨y, hy, hle⟩, hclear⟩ := clears_cons.1 hclear
        refine ⟨y, hy, ?_⟩
        rw [if_neg (by omega), ih.2 ⟨rfl, hclear⟩]
        rfl

theorem walk_nil (n : Nat) :
    l.walk live ratio n (between us []) = .ok (between us []) := by
  cases n <;> rfl

/-- A walk goes on to where it first meets a greater ratio. -/
theorem Holds.walk_eq_ok_iff (us vs : List Address) (h : l.Holds (us ++ vs))
    (hn : vs.length ≤ n) :
    l.walk live ratio n (between us vs) = .ok s ↔
      ∃ p, ahead live ratio vs = .ok p ∧ s = between (us ++ p.1) p.2 := by
  induction vs generalizing us n with
  | nil =>
    rw [walk_nil, ahead]
    constructor
    · rintro ⟨⟩
      exact ⟨([], []), rfl, by simp⟩
    · rintro ⟨p, hp, rfl⟩
      cases hp
      simp
  | cons a vs ih =>
    obtain ⟨n, rfl⟩ := Nat.exists_eq_succ_of_ne_zero (by simp at hn; omega : n ≠ 0)
    have hsplit : us ++ a :: vs = (us ++ [a]) ++ vs := by simp
    have hnext : ({ before? := some a, after? := vs.head? } : Slot) = between (us ++ [a]) vs := by
      simp [between]
    have hih := ih (us ++ [a]) (hsplit ▸ h) (n := n) (by simpa using hn)
    simp only [walk, between, List.head?_cons, h.links us a vs rfl, ahead, Checked.bind_eq_ok]
    rw [hnext]
    constructor
    · rintro ⟨y, hy, hw⟩
      split at hw
      · next hlt =>
        cases hw
        refine ⟨([], a :: vs), ⟨y, hy, by rw [if_pos hlt]; rfl⟩, ?_⟩
        simp
      · next hle =>
        obtain ⟨p, hp, rfl⟩ := hih.1 hw
        refine ⟨(a :: p.1, p.2), ⟨y, hy, ?_⟩, by simp [between]⟩
        rw [if_neg hle, hp]
        rfl
    · rintro ⟨p, ⟨y, hy, hp⟩, rfl⟩
      refine ⟨y, hy, ?_⟩
      split at hp
      · next hlt =>
        cases hp
        rw [if_pos hlt]
        simp
      · next hle =>
        obtain ⟨p', hp', hp⟩ := Checked.bind_eq_ok.1 hp
        cases hp
        rw [if_neg hle]
        exact hih.2 ⟨p', hp', by simp [between]⟩

/-! ## The place of an owner's own ratio -/

/-- Whether the ratio of the last of some owners can be told. -/
def LastTold (live : Address → Checked Nat) (us : List Address) : Prop :=
  ∀ a, us.getLast? = some a → ∃ x, live a = .ok x

/-- Where the owner before a gap can be told and is not above a ratio, whether the
gap fits depends on the owner behind it. -/
theorem Holds.fits_between {fit : Bool} (h : l.Holds (us ++ vs))
    (before : ∀ a x, us.getLast? = some a → live a = .ok x → x ≤ ratio) :
    l.fits live ratio (between us vs) = .ok fit ↔
      LastTold live us ∧
        match vs.head? with
        | none => fit = true
        | some b => ∃ y, live b = .ok y ∧ fit = decide (ratio < y) := by
  have hhead : us.getLast? = none → l.head? = vs.head? := fun hus => by
    rw [h.head, List.getLast?_eq_none_iff.1 hus, List.nil_append]
  have htail : vs.head? = none → l.tail? = us.getLast? := fun hvs => by
    rw [h.tail, List.head?_eq_none_iff.1 hvs, List.append_nil]
  have hnext (a) (ha : us.getLast? = some a) : l.next? a = vs.head? := by
    obtain ⟨us', rfl⟩ := List.getLast?_eq_some_iff.1 ha
    rw [List.append_assoc] at h
    exact h.next
  rw [fits, between, LastTold]
  cases hus : us.getLast? with
  | none =>
    cases hvs : vs.head? with
    | none =>
      have hempty : l.isEmpty = true := by
        rw [isEmpty, h.size, List.getLast?_eq_none_iff.1 hus, List.head?_eq_none_iff.1 hvs]
        rfl
      simp only [hempty, Checked.pure_eq_ok]
      grind
    | some b =>
      simp only [hhead hus, hvs, if_true, Checked.bind_eq_ok, Checked.pure_eq_ok]
      grind
  | some a =>
    cases hvs : vs.head? with
    | none =>
      simp only [htail hvs, hus, if_true, Checked.bind_eq_ok, Checked.pure_eq_ok]
      grind
    | some b =>
      simp only [hnext a hus, hvs, if_true, Checked.bind_eq_ok]
      constructor
      · rintro ⟨x, hx, hfit⟩
        rw [if_pos (before a x hus hx)] at hfit
        obtain ⟨y, hy, hfit⟩ := Checked.bind_eq_ok.1 hfit
        cases hfit
        exact ⟨fun c hc => ⟨x, Option.some.inj hc ▸ hx⟩, y, hy, rfl⟩
      · rintro ⟨told, y, hy, rfl⟩
        obtain ⟨x, hx⟩ := told a rfl
        refine ⟨x, hx, ?_⟩
        rw [if_pos (before a x hus hx), hy]
        rfl

theorem place_of_fits (hf : l.fits live ratio s = .ok true) : l.place live ratio s = .ok s := by
  rw [place, hf]
  rfl

theorem place_of_not_fits {start? : Option Address} (hf : l.fits live ratio s = .ok false)
    (hs : l.start? live ratio s.before? = .ok start?) :
    l.place live ratio s = l.walk live ratio l.size
      { before? := start?, after? := start?.elim l.head? l.next? } := by
  rw [place, hf, hs]
  cases start? <;> rfl

/-- The place of a ratio, where nothing before the hint is greater. -/
theorem Holds.place_between (h : l.Holds (us ++ vs))
    (before : ∀ a x, us.getLast? = some a → live a = .ok x → x ≤ ratio) :
    l.place live ratio (between us vs) = .ok s ↔
      LastTold live us ∧ ∃ p, ahead live ratio vs = .ok p ∧ s = between (us ++ p.1) p.2 := by
  have hsize : vs.length ≤ l.size := by
    rw [h.size, List.length_append]
    omega
  have hstart (told : LastTold live us) : l.start? live ratio us.getLast? = .ok us.getLast? := by
    cases hus : us.getLast? with
    | none => rfl
    | some a =>
      obtain ⟨x, hx⟩ := told a hus
      have hc : l.contains a = true :=
        (h.contains a).2 (List.mem_append_left _ (List.mem_of_getLast? hus))
      rw [start?, if_pos hc, hx]
      exact congrArg Except.ok (if_pos (before a x hus hx))
  have hgap : us.getLast?.elim l.head? l.next? = vs.head? := by
    cases hus : us.getLast? with
    | none => exact h.head.trans (by rw [List.getLast?_eq_none_iff.1 hus, List.nil_append])
    | some a =>
      obtain ⟨us', rfl⟩ := List.getLast?_eq_some_iff.1 hus
      rw [List.append_assoc] at h
      exact h.next
  have hwalk (hf : l.fits live ratio (between us vs) = .ok false) (told : LastTold live us) :
      l.place live ratio (between us vs) = l.walk live ratio l.size (between us vs) := by
    rw [place_of_not_fits hf (hstart told), hgap]
    rfl
  constructor
  · intro hp
    obtain ⟨fit, hf⟩ : ∃ fit, l.fits live ratio (between us vs) = .ok fit := by
      rw [place, Checked.bind_eq_ok] at hp
      obtain ⟨fit, hf, -⟩ := hp
      exact ⟨fit, hf⟩
    obtain ⟨told, hbehind⟩ := (h.fits_between before).1 hf
    refine ⟨told, ?_⟩
    cases fit with
    | true =>
      rw [place_of_fits hf] at hp
      cases hp
      refine ⟨([], vs), ahead_eq_ok.2 ⟨rfl, clears_nil fun b hb => ?_⟩, by simp⟩
      rw [hb] at hbehind
      obtain ⟨y, hy, hlt⟩ := hbehind
      exact ⟨y, hy, of_decide_eq_true hlt.symm⟩
    | false =>
      rw [hwalk hf told] at hp
      exact (h.walk_eq_ok_iff us vs hsize).1 hp
  · rintro ⟨told, ⟨ms, ns⟩, hp, rfl⟩
    obtain ⟨rfl, hclear⟩ := ahead_eq_ok.1 hp
    cases ms with
    | nil =>
      refine (place_of_fits ((h.fits_between before).2 ⟨told, ?_⟩)).trans (by simp)
      cases hns : ns.head? with
      | none => simp [hns]
      | some b =>
        obtain ⟨y, hy, hlt⟩ := hclear.stops b hns
        simp [hns, hy, hlt]
    | cons b ms =>
      obtain ⟨⟨y, hy, hle⟩, -⟩ := clears_cons.1 hclear
      rw [hwalk ((h.fits_between before).2 ⟨told, by simp [hy, hle]⟩) told]
      exact (h.walk_eq_ok_iff us _ hsize).2 ⟨_, hp, rfl⟩

/-! ## Moving one owner -/

/-- Whether an owner of a sequence can be moved, from between its neighbours, to
the place of the ratio it has. -/
def CanShift (live : Address → Checked Nat) (xs : List Address) (id : Address) : Prop :=
  ∃ us vs ratio p, xs = us ++ id :: vs ∧ live id = .ok ratio ∧ ratio ≠ 0 ∧ LastTold live us ∧
    ahead live ratio vs = .ok p

/-- In a sequence in order nothing before an owner has a greater ratio. -/
theorem before_le (ho : (us ++ id :: vs).Pairwise (InOrder live)) (hid : live id = .ok ratio)
    (a : Address) (x : Nat) (ha : us.getLast? = some a) (hx : live a = .ok x) : x ≤ ratio :=
  (List.pairwise_append.1 ho).2.2 a (List.mem_of_getLast? ha) id List.mem_cons_self x ratio hx hid

theorem Holds.own_hint (h : l.Holds (us ++ id :: vs)) :
    ({ before? := l.prev? id, after? := l.next? id } : Slot) = between us vs := by
  rw [h.prev, h.next]
  rfl

/-- One owner of a sequence stays where it is, or it is moved behind those that
come next and have its ratio, up to a greater one. -/
inductive Shifted (live : Address → Checked Nat) (id : Address) :
    List Address → List Address → Prop where
  | stays {xs : List Address} : Shifted live id xs xs
  | behind {us ms ns : List Address} {ratio : Nat} (own : live id = .ok ratio)
      (told : LastTold live us) (same : ∀ a ∈ ms, live a = .ok ratio)
      (stops : ∀ b, ns.head? = some b → ∃ y, live b = .ok y ∧ ratio < y) :
      Shifted live id (us ++ id :: (ms ++ ns)) (us ++ ms ++ id :: ns)

theorem Holds.shifts (h : l.Holds xs) (ho : xs.Pairwise (InOrder live))
    (hid : live id = .ok ratio)
    (hr : l.reposition live id ratio { before? := l.prev? id, after? := l.next? id } = .ok l') :
    CanShift live xs id ∧ ∃ xs', l'.Holds xs' ∧ Shifted live id xs xs' := by
  simp only [reposition, Checked.bind_eq_ok, Checked.pure_eq_ok, require_eq_ok, bne_iff_ne] at hr
  obtain ⟨-, hne, l₁, hd, s, hs, rfl⟩ := hr
  obtain ⟨us, vs, rfl, h₁⟩ := h.detach_ok hd
  rw [h.own_hint] at hs
  obtain ⟨told, ⟨ms, ns⟩, hp, rfl⟩ := (h₁.place_between (before_le ho hid)).1 hs
  refine ⟨⟨us, vs, ratio, _, rfl, hid, hne, told, hp⟩, us ++ ms ++ id :: ns, ?_, ?_⟩
  · obtain ⟨rfl, -⟩ := ahead_eq_ok.1 hp
    have hout := h.notMem_middle
    rw [← List.append_assoc] at h₁ hout
    exact h₁.attach hout
  · obtain ⟨rfl, clears⟩ := ahead_eq_ok.1 hp
    refine .behind hid told (fun a ha => ?_) clears.stops
    obtain ⟨x, hx, hle⟩ := clears.passed a ha
    have hge : ratio ≤ x := (List.pairwise_cons.1 (List.pairwise_append.1 ho).2.1).1 a
      (List.mem_append_left _ ha) ratio x hid hx
    rw [hx, Nat.le_antisymm hle hge]

/-- An owner that can be moved is. -/
theorem Holds.reposition_succeeds (h : l.Holds xs) (ho : xs.Pairwise (InOrder live))
    (hid : live id = .ok ratio) (can : CanShift live xs id) :
    ∃ l', l.reposition live id ratio { before? := l.prev? id, after? := l.next? id } =
      .ok l' := by
  obtain ⟨us, vs, r, p, rfl, hid', hne, told, hp⟩ := can
  obtain rfl : ratio = r := Except.ok.inj (hid.symm.trans hid')
  obtain ⟨l₁, hd⟩ := h.detaches
  have hplace := ((h.detach hd).place_between (before_le ho hid)).2 ⟨told, p, hp, rfl⟩
  rw [h.own_hint, reposition]
  simp only [Checked.bind_eq_ok, Checked.pure_eq_ok, require_eq_ok]
  exact ⟨_, (), by simpa using hne, l₁, hd, _, hplace, rfl⟩

/-! ## What the move leaves as it was -/

namespace Shifted

variable {xs' : List Address}

theorem perm (h : Shifted live id xs xs') : xs'.Perm xs := by
  cases h with
  | stays => exact .refl _
  | @behind us ms ns ratio _ _ _ _ =>
    have h₁ : (us ++ ms ++ id :: ns).Perm (id :: (us ++ ms ++ ns)) := List.perm_middle
    have h₂ : (us ++ id :: (ms ++ ns)).Perm (id :: (us ++ (ms ++ ns))) := List.perm_middle
    rw [← List.append_assoc] at h₂
    exact h₁.trans h₂.symm

/-- The others keep their sequence. -/
theorem erase_eq (h : Shifted live id xs xs') (hn : xs.Nodup) : xs'.erase id = xs.erase id := by
  cases h with
  | stays => rfl
  | @behind us ms ns ratio _ _ _ _ =>
    have hout : id ∉ us ++ (ms ++ ns) :=
      (List.nodup_cons.1 (List.perm_middle.nodup_iff.1 hn)).1
    rw [erase_middle hout, erase_middle (by rwa [List.append_assoc]), List.append_assoc]

/-- From the head to the tail the ratios are the same. -/
theorem map_eq (h : Shifted live id xs xs') : xs'.map live = xs.map live := by
  cases h with
  | stays => rfl
  | @behind us ms ns ratio own _ same _ =>
    have hms : ms.map live = List.replicate ms.length (.ok ratio) :=
      List.map_eq_replicate_iff.2 same
    simp only [List.map_append, List.map_cons, hms, own, List.append_assoc]
    rw [List.append_cons (List.replicate _ _), ← List.replicate_succ', List.replicate_succ,
      List.cons_append]

/-- Owners stay in order. -/
theorem pairwise (h : Shifted live id xs xs') (ho : xs.Pairwise (InOrder live)) :
    xs'.Pairwise (InOrder live) := by
  have hmap (ys : List Address) : ys.Pairwise (InOrder live) ↔
      (ys.map live).Pairwise fun u v => ∀ x y, u = .ok x → v = .ok y → x ≤ y := by
    rw [List.pairwise_map]
    rfl
  rwa [hmap, h.map_eq, ← hmap]

end Shifted

theorem LastTold.congr (h : LastTold live us) (hm : vs.map live = us.map live) :
    LastTold live vs := by
  intro a ha
  have hlast : us.getLast?.map live = some (live a) := by
    rw [← List.getLast?_map, ← hm, List.getLast?_map, ha]
    rfl
  obtain ⟨b, hb, hlive⟩ := Option.map_eq_some_iff.1 hlast
  exact hlive ▸ h b hb

theorem ahead_congr {p : List Address × List Address} (h : ahead live ratio vs = .ok p)
    (hm : vs'.map live = vs.map live) : ∃ p', ahead live ratio vs' = .ok p' := by
  obtain ⟨rfl, clears⟩ := ahead_eq_ok.1 (show ahead live ratio vs = .ok (p.1, p.2) from h)
  rw [List.map_append] at hm
  obtain ⟨ms, ns, rfl, hms, hns⟩ := List.map_eq_append_iff.1 hm
  refine ⟨(ms, ns), ahead_eq_ok.2 ⟨rfl, fun a ha => ?_, fun b hb => ?_⟩⟩
  · obtain ⟨c, hc, hlive⟩ := List.mem_map.1 (hms ▸ List.mem_map_of_mem ha)
    exact hlive ▸ clears.passed c hc
  · have hhead : p.2.head?.map live = some (live b) := by
      rw [← List.head?_map, ← hns, List.head?_map, hb]
      rfl
    obtain ⟨c, hc, hlive⟩ := Option.map_eq_some_iff.1 hhead
    exact hlive ▸ clears.stops c hc

/-- In a sequence without repetitions there is one place to move an owner from. -/
theorem CanShift.split {p q : List Address} (can : CanShift live (p ++ c :: q) c)
    (hn : (p ++ c :: q).Nodup) :
    ∃ r, live c = .ok r ∧ r ≠ 0 ∧ LastTold live p ∧ ∃ x, ahead live r q = .ok x := by
  obtain ⟨us, vs, r, x, heq, hr, hne, told, hx⟩ := can
  have hout : c ∉ p ++ q := (List.nodup_cons.1 (List.perm_middle.nodup_iff.1 hn)).1
  rw [List.mem_append, not_or] at hout
  obtain ⟨rfl, -, rfl⟩ := (List.append_cons_inj_of_notMem hout.1 hout.2).1 heq
  exact ⟨r, hr, hne, told, x, hx⟩

/-- Whether an owner can be moved depends on the ratios before and behind it. -/
theorem CanShift.congr {p q p' q' : List Address} (can : CanShift live (p ++ c :: q) c)
    (hn : (p ++ c :: q).Nodup) (hp : p'.map live = p.map live) (hq : q'.map live = q.map live) :
    CanShift live (p' ++ c :: q') c := by
  obtain ⟨r, hr, hne, told, x, hx⟩ := can.split hn
  obtain ⟨x', hx'⟩ := ahead_congr hx hq
  exact ⟨p', q', r, x', rfl, hr, hne, told.congr hp, hx'⟩

/-- The last of some owners of one ratio can be told. -/
theorem LastTold.append (h : LastTold live us) (same : ∀ a ∈ vs, live a = .ok ratio) :
    LastTold live (us ++ vs) := by
  intro a ha
  rw [List.getLast?_append] at ha
  cases hvs : vs.getLast? with
  | none =>
    rw [hvs] at ha
    exact h a ha
  | some b =>
    rw [hvs] at ha
    cases ha
    exact ⟨ratio, same a (List.mem_of_getLast? hvs)⟩

/-- Whoever else can be moved can still be moved. -/
theorem Shifted.canShift {xs' : List Address} (h : Shifted live id xs xs') (hn : xs.Nodup)
    (hc : c ≠ id) (can : CanShift live xs c) : CanShift live xs' c := by
  have hmap := h.map_eq
  cases h with
  | stays => exact can
  | @behind us ms ns ratio own told same stops =>
    have hmem : c ∈ us ++ (ms ++ ns) := by
      obtain ⟨_, _, _, _, heq, -⟩ := can
      have hmem : c ∈ us ++ id :: (ms ++ ns) := by simp [heq]
      exact (List.mem_cons.1 (List.perm_middle.mem_iff.1 hmem)).resolve_left hc
    rcases List.mem_append.1 hmem with hus | hmem
    · -- what comes behind has the same ratios
      obtain ⟨p, q, rfl⟩ := List.append_of_mem hus
      have hq : (q ++ ms ++ id :: ns).map live = (q ++ id :: (ms ++ ns)).map live := by
        simpa using hmap
      have hshift := CanShift.congr (by simpa using can) (by simpa using hn) rfl hq
      simpa using hshift
    rcases List.mem_append.1 hmem with hms | hns
    · -- the moved owner comes to stand behind it, with the same ratio
      obtain ⟨p, q, rfl⟩ := List.append_of_mem hms
      obtain ⟨_, _, r, _, -, hr, hne, -⟩ := can
      obtain rfl : r = ratio := Except.ok.inj (hr.symm.trans (same c (by simp)))
      refine ⟨us ++ p, q ++ id :: ns, r, (q ++ [id], ns), by simp, hr, hne,
        told.append fun a ha => same a (by simp [ha]), ahead_eq_ok.2 ⟨by simp, ?_, stops⟩⟩
      intro a ha
      rcases List.mem_append.1 ha with ha | ha
      · exact ⟨r, same a (by simp [ha]), Nat.le_refl _⟩
      · exact ⟨r, List.mem_singleton.1 ha ▸ own, Nat.le_refl _⟩
    · -- what comes before has the same ratios
      obtain ⟨p, q, rfl⟩ := List.append_of_mem hns
      have hp : (us ++ ms ++ id :: p).map live ++ (c :: q).map live =
          (us ++ id :: (ms ++ p)).map live ++ (c :: q).map live := by
        simpa using hmap
      have hshift := CanShift.congr (by simpa using can) (by simpa using hn)
        (List.append_cancel_right hp) (rfl : q.map live = q.map live)
      simpa using hshift

end TroveList

end Troves
