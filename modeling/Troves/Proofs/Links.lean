/-
# The links of the list

What the operations on the list do to its links, and what the links mean:
a list holds a sequence of owners if every owner in the sequence is linked to
its neighbours there and nobody else is listed.  Putting an owner into a place
of the sequence and taking one out are then insertion and removal.
-/
import Troves.TroveList

namespace Troves

namespace TroveList

/-! ## Joining neighbours -/

section Joined

variable {l : TroveList} {p? n? : Option Address}

/-- Writing a listed owner's place, as seen from every owner. -/
theorem get?_set_map {nodes : Table Address Slot} {a : Address} {node : Slot}
    (h : nodes.get? a = some node) (f : Slot → Slot) (b : Address) :
    (nodes.set a (f node)).get? b =
      (nodes.get? b).map fun node => if a = b then f node else node := by
  rw [Table.get?_set]
  split
  · next hab =>
    subst hab
    rw [h]
    rfl
  · simp

/-- An owner who is not listed has no place to write. -/
theorem get?_map_of_none {nodes : Table Address Slot} {a : Address}
    (h : nodes.get? a = none) (f : Slot → Slot) (b : Address) :
    nodes.get? b = (nodes.get? b).map fun node => if a = b then f node else node := by
  by_cases hab : a = b
  · subst hab
    rw [h]
    rfl
  · simp [hab]

theorem get?_joinBefore (b : Address) :
    (l.joinBefore p? n?).nodes.get? b = (l.nodes.get? b).map fun node =>
      if p? = some b then { node with after? := n? } else node := by
  cases p? with
  | none => simp [joinBefore]
  | some a =>
    simp only [joinBefore, setNext, Option.some.injEq]
    split
    · next hn => exact get?_set_map hn (fun node => { node with after? := n? }) b
    · next hn => exact get?_map_of_none hn _ b

theorem get?_joinAfter (b : Address) :
    (l.joinAfter p? n?).nodes.get? b = (l.nodes.get? b).map fun node =>
      if n? = some b then { node with before? := p? } else node := by
  cases n? with
  | none => simp [joinAfter]
  | some a =>
    simp only [joinAfter, setPrev, Option.some.injEq]
    split
    · next hn => exact get?_set_map hn (fun node => { node with before? := p? }) b
    · next hn => exact get?_map_of_none hn _ b

theorem joinBefore_kept : l.joinBefore p? n? = { l with
    head? := if p? = none then n? else l.head?, nodes := (l.joinBefore p? n?).nodes } := by
  cases p? with
  | none => rfl
  | some a =>
    simp only [joinBefore, setNext]
    split <;> rfl

theorem joinAfter_kept : l.joinAfter p? n? = { l with
    tail? := if n? = none then p? else l.tail?, nodes := (l.joinAfter p? n?).nodes } := by
  cases n? with
  | none => rfl
  | some a =>
    simp only [joinAfter, setPrev]
    split <;> rfl

@[simp] theorem joinBefore_keeper : (l.joinBefore p? n?).keeper? = l.keeper? := by
  rw [joinBefore_kept]

@[simp] theorem joinBefore_head :
    (l.joinBefore p? n?).head? = if p? = none then n? else l.head? := by
  rw [joinBefore_kept]

@[simp] theorem joinBefore_tail : (l.joinBefore p? n?).tail? = l.tail? := by
  rw [joinBefore_kept]

@[simp] theorem joinBefore_size : (l.joinBefore p? n?).size = l.size := by
  rw [joinBefore_kept]

@[simp] theorem joinBefore_capacity : (l.joinBefore p? n?).capacity = l.capacity := by
  rw [joinBefore_kept]

@[simp] theorem joinAfter_keeper : (l.joinAfter p? n?).keeper? = l.keeper? := by
  rw [joinAfter_kept]

@[simp] theorem joinAfter_head : (l.joinAfter p? n?).head? = l.head? := by
  rw [joinAfter_kept]

@[simp] theorem joinAfter_tail :
    (l.joinAfter p? n?).tail? = if n? = none then p? else l.tail? := by
  rw [joinAfter_kept]

@[simp] theorem joinAfter_size : (l.joinAfter p? n?).size = l.size := by
  rw [joinAfter_kept]

@[simp] theorem joinAfter_capacity : (l.joinAfter p? n?).capacity = l.capacity := by
  rw [joinAfter_kept]

end Joined

/-! ## What no operation touches -/

@[simp] theorem attach_keeper {l : TroveList} {id : Address} {s : Slot} :
    (l.attach id s).keeper? = l.keeper? := by
  simp [attach]

@[simp] theorem attach_capacity {l : TroveList} {id : Address} {s : Slot} :
    (l.attach id s).capacity = l.capacity := by
  simp [attach]

theorem detach_capacity {l l' : TroveList} {id : Address} (h : l.detach id = .ok l') :
    l'.capacity = l.capacity := by
  rw [detach] at h
  split at h
  · simp at h
  · cases h
    simp

theorem detach_keeper {l l' : TroveList} {id : Address} (h : l.detach id = .ok l') :
    l'.keeper? = l.keeper? := by
  rw [detach] at h
  split at h
  · simp at h
  · cases h
    simp

theorem insert_keeper {l l' : TroveList} {live : Address → Checked Nat} {id : Address}
    {ratio : Nat} {hint : Slot} (h : l.insert live id ratio hint = .ok l') :
    l'.keeper? = l.keeper? := by
  simp only [insert, Checked.bind_eq_ok, Checked.pure_eq_ok] at h
  obtain ⟨_, -, _, -, _, -, s, -, rfl⟩ := h
  exact attach_keeper

theorem reposition_keeper {l l' : TroveList} {live : Address → Checked Nat} {id : Address}
    {ratio : Nat} {hint : Slot} (h : l.reposition live id ratio hint = .ok l') :
    l'.keeper? = l.keeper? := by
  simp only [reposition, Checked.bind_eq_ok, Checked.pure_eq_ok] at h
  obtain ⟨_, -, l₁, h₁, s, -, rfl⟩ := h
  rw [attach_keeper, detach_keeper h₁]

/-! ## The links afterwards -/

theorem get?_attach {l : TroveList} {id : Address} {s : Slot} (hb : s.before? ≠ some id)
    (ha : s.after? ≠ some id) (b : Address) :
    (l.attach id s).nodes.get? b = if id = b then some s else
      (l.nodes.get? b).map fun node =>
        { before? := if s.after? = some b then some id else node.before?
          after? := if s.before? = some b then some id else node.after? } := by
  simp only [attach, get?_joinAfter, get?_joinBefore, Table.get?_set]
  by_cases h : id = b
  · subst h
    simp [hb, ha]
  · simp only [if_neg h, Option.map_map]
    congr 1
    funext node
    simp only [Function.comp_apply]
    split <;> split <;> rfl

theorem get?_detach {l l' : TroveList} {id : Address} {s : Slot}
    (hs : l.nodes.get? id = some s) (h : l.detach id = .ok l') (b : Address) :
    l'.nodes.get? b = if id = b then none else
      (l.nodes.get? b).map fun node =>
        { before? := if s.after? = some b then s.before? else node.before?
          after? := if s.before? = some b then s.after? else node.after? } := by
  simp only [detach, hs, Checked.pure_eq_ok] at h
  rw [← h]
  simp only [Table.get?_erase, get?_joinAfter, get?_joinBefore, Option.map_map]
  congr 2
  funext node
  simp only [Function.comp_apply]
  split <;> split <;> rfl

/-! ## What the links mean -/

/-- The links of a list are those of a sequence of owners. -/
structure Holds (l : TroveList) (xs : List Address) : Prop where
  nodup : xs.Nodup
  size : l.size = xs.length
  head : l.head? = xs.head?
  tail : l.tail? = xs.getLast?
  links : ∀ (ys : List Address) (a : Address) (zs : List Address), xs = ys ++ a :: zs →
    l.nodes.get? a = some { before? := ys.getLast?, after? := zs.head? }
  outside : ∀ {a : Address}, a ∉ xs → l.nodes.get? a = none

variable {l l' : TroveList} {xs ys zs : List Address} {a : Address}

theorem Holds.mem_of_get? (h : l.Holds xs) {node : Slot} (hn : l.nodes.get? a = some node) :
    a ∈ xs := by
  refine Decidable.byContradiction ?_
  intro ha
  rw [h.outside ha] at hn
  cases hn

theorem Holds.contains (h : l.Holds xs) (a : Address) : l.contains a = true ↔ a ∈ xs := by
  unfold TroveList.contains Table.contains
  constructor
  · intro hc
    obtain ⟨node, hn⟩ := Option.isSome_iff_exists.1 hc
    exact h.mem_of_get? hn
  · intro ha
    obtain ⟨ys, zs, rfl⟩ := List.append_of_mem ha
    rw [h.links ys a zs rfl]
    rfl

theorem Holds.notMem_middle (h : l.Holds (ys ++ a :: zs)) : a ∉ ys ++ zs :=
  (List.nodup_cons.1 (List.perm_middle.nodup_iff.1 h.nodup)).1

theorem Holds.next (h : l.Holds (ys ++ a :: zs)) : l.next? a = zs.head? := by
  rw [next?, h.links ys a zs rfl]
  rfl

theorem Holds.prev (h : l.Holds (ys ++ a :: zs)) : l.prev? a = ys.getLast? := by
  rw [prev?, h.links ys a zs rfl]
  rfl

/-- A walk from any owner on meets the owners behind it. -/
theorem Holds.follow (ys : List Address) (h : l.Holds (ys ++ zs)) (n : Nat) :
    TroveList.follow l.next? n zs.head? = zs.take n := by
  induction n generalizing ys zs with
  | zero => simp [TroveList.follow]
  | succ n ih =>
    cases zs with
    | nil => rfl
    | cons a zs =>
      rw [List.head?_cons, TroveList.follow, h.next, List.take_succ_cons]
      congr 1
      exact ih (ys ++ [a]) (by simpa using h)

theorem Holds.forward (h : l.Holds xs) (n : Nat) : l.forward n = xs.take n := by
  rw [TroveList.forward, h.head]
  exact Holds.follow [] h n

/-- A walk back from any owner meets the owners before it. -/
theorem Holds.follow_back (zs : List Address) (h : l.Holds (ys ++ zs)) (n : Nat) :
    TroveList.follow l.prev? n ys.getLast? = ys.reverse.take n := by
  induction n generalizing ys zs with
  | zero => simp [TroveList.follow]
  | succ n ih =>
    rcases List.eq_nil_or_concat ys with rfl | ⟨ys, a, rfl⟩
    · rfl
    · rw [List.concat_eq_append] at h ⊢
      have hsplit : ys ++ [a] ++ zs = ys ++ a :: zs := by simp
      rw [hsplit] at h
      rw [List.getLast?_concat, List.reverse_append, List.reverse_singleton,
        List.singleton_append, TroveList.follow, h.prev, List.take_succ_cons]
      congr 1
      exact ih (a :: zs) h

theorem Holds.backward (h : l.Holds xs) (n : Nat) : l.backward n = xs.reverse.take n := by
  rw [TroveList.backward, h.tail]
  exact Holds.follow_back [] (by simpa using h) n

/-- A list in which nobody was ever listed. -/
theorem holds_new (keeper? : Option Address) (capacity : Nat) :
    Holds { keeper?, capacity } [] :=
  ⟨List.nodup_nil, rfl, rfl, rfl, by simp, fun _ => rfl⟩

/-! ## Neighbours in a sequence -/

section Neighbours

variable {ys' zs' m : List Address} {id : Address}

/-- Where a member stands relative to a place in the sequence. -/
theorem before_or_behind (h : ys ++ zs = ys' ++ a :: zs') :
    (∃ m, ys = ys' ++ a :: m ∧ zs' = m ++ zs) ∨ (∃ m, ys' = ys ++ m ∧ zs = m ++ a :: zs') := by
  rcases List.append_eq_append_iff.1 h with ⟨m, hy, hz⟩ | ⟨m, hy, hz⟩
  · exact .inr ⟨m, hy, hz⟩
  · cases m with
    | nil => exact .inr ⟨[], by simpa using hy.symm, by simpa using hz.symm⟩
    | cons b m =>
      rw [List.cons_append, List.cons.injEq] at hz
      obtain ⟨rfl, hz⟩ := hz
      exact .inl ⟨m, hy, hz⟩

/-- Who comes behind an owner in the first part: somebody from the second part
only if the owner is the last of the first. -/
theorem head?_behind (h : (ys ++ a :: m).Nodup) (zs : List Address) :
    (m ++ zs).head? = if (ys ++ a :: m).getLast? = some a then zs.head? else m.head? := by
  cases m with
  | nil => simp
  | cons b m =>
    have ha : a ∉ b :: m := (List.nodup_cons.1 (List.nodup_append.1 h).2.1).1
    have hl : (ys ++ a :: b :: m).getLast? ≠ some a := fun hl => by
      rw [List.getLast?_append, List.getLast?_cons_cons, List.getLast?_cons] at hl
      exact ha (List.mem_of_getLast? (by rw [List.getLast?_cons]; simpa using hl))
    rw [if_neg hl]
    rfl

/-- Who comes before an owner in the second part. -/
theorem getLast?_before (h : (m ++ a :: zs).Nodup) (ys : List Address) :
    (ys ++ m).getLast? = if (m ++ a :: zs).head? = some a then ys.getLast? else m.getLast? := by
  cases m with
  | nil => simp
  | cons b m =>
    have hb : b ≠ a := fun hb => (List.nodup_cons.1 h).1 (by simp [hb])
    rw [List.cons_append, List.head?_cons, if_neg (by simpa using hb), List.getLast?_append,
      List.getLast?_cons]
    rfl

theorem getLast?_cons_before (h : (m ++ a :: zs).Nodup) (ys : List Address) :
    (ys ++ id :: m).getLast? =
      if (m ++ a :: zs).head? = some a then some id else m.getLast? := by
  rw [List.append_cons, getLast?_before h, List.getLast?_append]
  rfl

/-- Nobody in the first part comes first in the second. -/
theorem head?_ne_of_mem (h : (ys ++ zs).Nodup) (ha : a ∈ ys) : zs.head? ≠ some a := fun hz =>
  (List.nodup_append.1 h).2.2 a ha a (List.mem_of_head? hz) rfl

/-- Nobody in the second part comes last in the first. -/
theorem getLast?_ne_of_mem (h : (ys ++ zs).Nodup) (ha : a ∈ zs) : ys.getLast? ≠ some a :=
  fun hy => (List.nodup_append.1 h).2.2 a (List.mem_of_getLast? hy) a ha rfl

end Neighbours

/-- Putting an owner into the place between two parts of the sequence. -/
theorem Holds.attach {id : Address} (h : l.Holds (ys ++ zs)) (hid : id ∉ ys ++ zs) :
    (l.attach id { before? := ys.getLast?, after? := zs.head? }).Holds (ys ++ id :: zs) := by
  have hperm : (ys ++ id :: zs).Perm (id :: (ys ++ zs)) := List.perm_middle
  have hnodup : (ys ++ id :: zs).Nodup := hperm.nodup_iff.2 (List.nodup_cons.2 ⟨hid, h.nodup⟩)
  have hy : ys.getLast? ≠ some id := fun hy =>
    hid (List.mem_append_left _ (List.mem_of_getLast? hy))
  have hz : zs.head? ≠ some id := fun hz =>
    hid (List.mem_append_right _ (List.mem_of_head? hz))
  refine ⟨hnodup, ?_, ?_, ?_, ?_, ?_⟩
  · rw [hperm.length_eq, List.length_cons, ← h.size]
    simp [TroveList.attach]
  · cases ys with
    | nil => simp [TroveList.attach]
    | cons a ys => simp [TroveList.attach, h.head]
  · cases zs with
    | nil => simp [TroveList.attach]
    | cons a zs => simp [TroveList.attach, h.tail]
  · intro ys' a zs' hs
    rw [get?_attach hy hz]
    rcases before_or_behind hs with ⟨m, rfl, rfl⟩ | ⟨m, rfl, hm⟩
    · -- in front of the place only the last owner gets a new neighbour
      have hne : id ≠ a := fun e => hid (by simp [e])
      have hn := (List.nodup_append.1 h.nodup).1
      have hl := h.links ys' a (m ++ zs) (by simp)
      rw [if_neg hne, hl, Option.map_some, if_neg (head?_ne_of_mem h.nodup (by simp)),
        head?_behind hn zs, head?_behind hn (id :: zs)]
      split <;> rfl
    · cases m with
      | nil =>
        obtain ⟨rfl, rfl⟩ := List.cons.inj hm
        simp
      | cons b m =>
        rw [List.cons_append, List.cons.injEq] at hm
        obtain ⟨rfl, rfl⟩ := hm
        have hne : id ≠ a := fun e => hid (by simp [e])
        have hn := (List.nodup_append.1 h.nodup).2.1
        have hl := h.links (ys ++ m) a zs' (by simp)
        rw [if_neg hne, hl, Option.map_some, if_neg (getLast?_ne_of_mem h.nodup (by simp)),
          getLast?_before hn ys, getLast?_cons_before hn ys]
        split <;> rfl
  · intro a ha
    rw [hperm.mem_iff, List.mem_cons, not_or] at ha
    rw [get?_attach hy hz, if_neg (Ne.symm ha.1), h.outside ha.2]
    rfl

/-- Taking an owner out of the sequence. -/
theorem Holds.detach {id : Address} (h : l.Holds (ys ++ id :: zs)) (hd : l.detach id = .ok l') :
    l'.Holds (ys ++ zs) := by
  have hperm : (ys ++ id :: zs).Perm (id :: (ys ++ zs)) := List.perm_middle
  obtain ⟨hid, hnodup⟩ := List.nodup_cons.1 (hperm.nodup_iff.1 h.nodup)
  have hs := h.links ys id zs rfl
  have hl' : l' = { (l.joinBefore ys.getLast? zs.head?).joinAfter ys.getLast? zs.head? with
      nodes := l'.nodes, size := l.size - 1 } := by
    have hd := hd
    simp only [TroveList.detach, hs, Checked.pure_eq_ok] at hd
    rw [← hd]
    simp
  refine ⟨hnodup, ?_, ?_, ?_, ?_, ?_⟩
  · rw [hl']
    simp [h.size, hperm.length_eq]
  · rw [hl']
    cases ys with
    | nil => simp
    | cons a ys => simp [h.head]
  · rw [hl']
    cases zs with
    | nil => simp
    | cons a zs => simp [h.tail]
  · intro ys' a zs' hs'
    have hne : id ≠ a := fun e => hid (by simp [hs', e])
    rw [get?_detach hs hd, if_neg hne]
    rcases before_or_behind hs' with ⟨m, rfl, rfl⟩ | ⟨m, rfl, rfl⟩
    · have hn := (List.nodup_append.1 hnodup).1
      have hl := h.links ys' a (m ++ id :: zs) (by simp)
      rw [hl, Option.map_some, if_neg (head?_ne_of_mem hnodup (by simp)),
        head?_behind hn zs, head?_behind hn (id :: zs)]
      split <;> rfl
    · have hn := (List.nodup_append.1 hnodup).2.1
      have hl := h.links (ys ++ id :: m) a zs' (by simp)
      rw [hl, Option.map_some, if_neg (getLast?_ne_of_mem hnodup (by simp)),
        getLast?_before hn ys, getLast?_cons_before hn ys]
      split <;> rfl
  · intro a ha
    rw [get?_detach hs hd]
    split
    · rfl
    · next hne =>
      rw [h.outside (by rw [hperm.mem_iff, List.mem_cons, not_or]; exact ⟨Ne.symm hne, ha⟩)]
      rfl

end TroveList

end Troves
