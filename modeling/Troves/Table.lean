/-
# Tables

Finite maps that remember the order in which their keys first appeared.
Writing a key that is present replaces its value in place, a new key goes
to the end; no key occurs twice, and that is part of the type.

A table is read through `get?`.  The lemmas say what each operation does
to that view, and how writing one key moves a sum taken over all entries.
-/

namespace Troves

/-- A finite map, in the order in which its keys were first written. -/
structure Table (κ α : Type) where
  entries : List (κ × α)
  nodup : (entries.map Prod.fst).Nodup
deriving DecidableEq

namespace Table

variable {κ α : Type} [DecidableEq κ]

/-! ## Lists of pairs -/

/-- The value of a key's first pair. -/
def find (k : κ) : List (κ × α) → Option α
  | [] => none
  | e :: es => if e.1 = k then some e.2 else find k es

/-- Replaces the value of a key's first pair, or adds the pair at the end. -/
def write (k : κ) (v : α) : List (κ × α) → List (κ × α)
  | [] => [(k, v)]
  | e :: es => if e.1 = k then (k, v) :: es else e :: write k v es

/-- Drops a key's first pair. -/
def drop (k : κ) : List (κ × α) → List (κ × α)
  | [] => []
  | e :: es => if e.1 = k then es else e :: drop k es

theorem mem_keys_write {k k' : κ} {v : α} :
    ∀ {es : List (κ × α)}, k' ∈ (write k v es).map Prod.fst ↔ k' = k ∨ k' ∈ es.map Prod.fst
  | [] => by simp [write]
  | e :: es => by
    by_cases h : e.1 = k
    · simp [write, h]
    · have ih : k' ∈ (write k v es).map Prod.fst ↔ k' = k ∨ k' ∈ es.map Prod.fst :=
        mem_keys_write
      simp only [write, h, if_false, List.map_cons, List.mem_cons, ih]
      constructor
      · rintro (h | h | h) <;> simp [h]
      · rintro (h | h | h) <;> simp [h]

theorem nodup_write {k : κ} {v : α} :
    ∀ {es : List (κ × α)}, (es.map Prod.fst).Nodup → ((write k v es).map Prod.fst).Nodup
  | [], _ => by simp [write]
  | e :: es, hn => by
    simp only [List.map_cons, List.nodup_cons] at hn
    by_cases h : e.1 = k
    · subst h
      simpa [write] using hn
    · rw [write, if_neg h, List.map_cons, List.nodup_cons, mem_keys_write]
      exact ⟨fun hk => hk.elim h hn.1, nodup_write hn.2⟩

theorem drop_sublist {k : κ} : ∀ es : List (κ × α), (drop k es).Sublist es
  | [] => .slnil
  | e :: es => by
    by_cases h : e.1 = k
    · simp [drop, h]
    · simpa [drop, h] using drop_sublist es

theorem find_eq_none {k : κ} :
    ∀ {es : List (κ × α)}, find k es = none ↔ k ∉ es.map Prod.fst
  | [] => by simp [find]
  | e :: es => by
    by_cases h : e.1 = k
    · simp [find, h]
    · have hk : ¬ k = e.1 := fun hk => h hk.symm
      simp only [find, h, if_false, List.map_cons, List.mem_cons, hk, false_or]
      exact find_eq_none

theorem find_write {k k' : κ} {v : α} :
    ∀ {es : List (κ × α)}, find k' (write k v es) = if k = k' then some v else find k' es
  | [] => by simp [find, write]
  | e :: es => by
    have ih : find k' (write k v es) = if k = k' then some v else find k' es := find_write
    by_cases h : e.1 = k
    · subst h
      by_cases h' : e.1 = k' <;> simp [find, write, h']
    · by_cases h' : e.1 = k'
      · subst h'
        have hk : ¬ k = e.1 := fun hk => h hk.symm
        simp [find, write, h, hk]
      · simp [find, write, h, h', ih]

theorem find_drop {k k' : κ} :
    ∀ {es : List (κ × α)}, (es.map Prod.fst).Nodup →
      find k' (drop k es) = if k = k' then none else find k' es
  | [], _ => by simp [find, drop]
  | e :: es, hn => by
    simp only [List.map_cons, List.nodup_cons] at hn
    have ih : find k' (drop k es) = if k = k' then none else find k' es := find_drop hn.2
    by_cases h : e.1 = k
    · subst h
      by_cases h' : e.1 = k'
      · subst h'
        simpa [drop] using find_eq_none.2 hn.1
      · simp [find, drop, h']
    · by_cases h' : e.1 = k'
      · subst h'
        have hk : ¬ k = e.1 := fun hk => h hk.symm
        simp [find, drop, h, hk]
      · simp [find, drop, h, h', ih]

theorem write_of_find {k : κ} {v : α} :
    ∀ {es : List (κ × α)}, find k es = some v → write k v es = es
  | [], h => by cases h
  | e :: es, h => by
    by_cases he : e.1 = k
    · subst he
      simp only [find, if_true, Option.some.injEq] at h
      simp [write, ← h]
    · simp only [find, he, if_false] at h
      simp [write, he, write_of_find h]

theorem write_comm {k k' : κ} {v v' : α} (hk : k ≠ k') :
    ∀ {es : List (κ × α)}, k ∈ es.map Prod.fst →
      write k' v' (write k v es) = write k v (write k' v' es)
  | [], h => by cases h
  | e :: es, h => by
    by_cases he : e.1 = k
    · simp [write, he, hk]
    · have h : k ∈ es.map Prod.fst := by simpa [Ne.symm he] using h
      by_cases he' : e.1 = k'
      · simp [write, he', Ne.symm hk]
      · simp [write, he, he', write_comm hk h]

/-! ## The operations -/

/-- The table without entries. -/
def empty : Table κ α := ⟨[], List.nodup_nil⟩

instance : EmptyCollection (Table κ α) := ⟨empty⟩

instance : Inhabited (Table κ α) := ⟨empty⟩

/-- The value of a key, if it was ever written. -/
def get? (t : Table κ α) (k : κ) : Option α := find k t.entries

/-- The value of a key, or a default. -/
def getD (t : Table κ α) (k : κ) (d : α) : α := (t.get? k).getD d

/-- Whether a key was ever written. -/
def contains (t : Table κ α) (k : κ) : Bool := (t.get? k).isSome

/-- Writes a key. -/
def set (t : Table κ α) (k : κ) (v : α) : Table κ α :=
  ⟨write k v t.entries, nodup_write t.nodup⟩

/-- Forgets a key. -/
def erase (t : Table κ α) (k : κ) : Table κ α :=
  ⟨drop k t.entries, t.nodup.sublist ((drop_sublist t.entries).map Prod.fst)⟩

/-- The keys, in the order in which they were first written. -/
def keys (t : Table κ α) : List κ := t.entries.map Prod.fst

/-- The sum of a quantity over all entries. -/
def sum (t : Table κ α) (f : κ → α → Nat) : Nat :=
  t.entries.foldr (fun e total => f e.1 e.2 + total) 0

@[simp] theorem get?_empty (k : κ) : (empty : Table κ α).get? k = none := rfl

theorem get?_set (t : Table κ α) (k k' : κ) (v : α) :
    (t.set k v).get? k' = if k = k' then some v else t.get? k' := find_write

@[simp] theorem get?_set_self (t : Table κ α) (k : κ) (v : α) :
    (t.set k v).get? k = some v := by simp [get?_set]

theorem get?_erase (t : Table κ α) (k k' : κ) :
    (t.erase k).get? k' = if k = k' then none else t.get? k' := find_drop t.nodup

theorem getD_set (t : Table κ α) (k k' : κ) (v d : α) :
    (t.set k v).getD k' d = if k = k' then v else t.getD k' d := by
  unfold getD; rw [get?_set]; split <;> rfl

theorem get?_eq_none {t : Table κ α} {k : κ} : t.get? k = none ↔ k ∉ t.keys := find_eq_none

theorem mem_keys_set {t : Table κ α} {k k' : κ} {v : α} :
    k' ∈ (t.set k v).keys ↔ k' = k ∨ k' ∈ t.keys := mem_keys_write

omit [DecidableEq κ] in
@[simp] theorem sum_empty (f : κ → α → Nat) : (empty : Table κ α).sum f = 0 := rfl

/-- Writing what is there changes nothing. -/
theorem set_of_get? {t : Table κ α} {k : κ} {v : α} (h : t.get? k = some v) : t.set k v = t := by
  simp only [set, write_of_find h]

/-- Two keys, one of them present, are written in either order. -/
theorem set_comm {t : Table κ α} {k k' : κ} {v v' : α} (hk : k ≠ k') (h : k ∈ t.keys) :
    (t.set k v).set k' v' = (t.set k' v').set k v := by
  simp only [set, write_comm hk h]

/-- Writing a key exchanges its old contribution to a sum for the new one. -/
theorem sum_set (t : Table κ α) (k : κ) (v : α) (f : κ → α → Nat) :
    (t.set k v).sum f + ((t.get? k).map (f k)).getD 0 = t.sum f + f k v := by
  suffices h : ∀ es : List (κ × α),
      (write k v es).foldr (fun e total => f e.1 e.2 + total) 0 + ((find k es).map (f k)).getD 0
        = es.foldr (fun e total => f e.1 e.2 + total) 0 + f k v from h t.entries
  intro es
  induction es with
  | nil => simp [write, find]
  | cons e es ih =>
    by_cases h : e.1 = k
    · subst h
      simp [write, find]
      omega
    · simp [write, find, h]
      omega

end Table

end Troves
