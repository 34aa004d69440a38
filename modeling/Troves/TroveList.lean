/-
# The list of troves

A doubly linked list of owners in ascending order of nominal ratio, so the
riskiest trove comes first.  The links hold no ratios: neighbours are
compared by the ratio they have at the moment, read through a function
`live`, so a redistribution never leaves a stale key behind.

A place for a ratio lies behind every ratio up to it and before every
greater one.  A hint may name the place; a hint that is not exactly right
costs a walk, from the hint where it still lies before the place and from
the head otherwise.
-/
import Troves.Address
import Troves.Fault
import Troves.Table

namespace Troves

/-- A place in the list: the owners before and after it. -/
structure TroveList.Slot where
  before? : Option Address := none
  after? : Option Address := none
deriving DecidableEq, Repr

/-- The list, with the place of each member. -/
structure TroveList where
  /-- The only caller that may change the list. -/
  keeper? : Option Address := none
  capacity : Nat
  size : Nat := 0
  head? : Option Address := none
  tail? : Option Address := none
  nodes : Table Address TroveList.Slot := ∅
deriving DecidableEq

namespace TroveList

/-- Whether an owner is listed. -/
def contains (l : TroveList) (id : Address) : Bool := l.nodes.contains id

/-- Whether no further owner can be listed. -/
def isFull (l : TroveList) : Bool := l.capacity ≤ l.size

/-- Whether nobody is listed. -/
def isEmpty (l : TroveList) : Bool := l.size == 0

/-- The owner behind a listed one. -/
def next? (l : TroveList) (id : Address) : Option Address :=
  (l.nodes.get? id).bind Slot.after?

/-- The owner before a listed one. -/
def prev? (l : TroveList) (id : Address) : Option Address :=
  (l.nodes.get? id).bind Slot.before?

/-- The owners met by following links, at most so many. -/
def follow (step : Address → Option Address) : Nat → Option Address → List Address
  | 0, _ => []
  | _ + 1, none => []
  | n + 1, some a => a :: follow step n (step a)

/-- The first owners of the list, from the head on. -/
def forward (l : TroveList) (most : Nat) : List Address := follow l.next? most l.head?

/-- The last owners of the list, from the tail back. -/
def backward (l : TroveList) (most : Nat) : List Address := follow l.prev? most l.tail?

/-! ## Finding a place -/

/-- Whether a place is exactly right for a ratio.  Ratios are read only
where the links agree with the place. -/
def fits (l : TroveList) (live : Address → Checked Nat) (ratio : Nat) (s : Slot) :
    Checked Bool :=
  match s.before?, s.after? with
  | none, none => return l.isEmpty
  | none, some b =>
    if l.head? = some b then do
      return decide (ratio < (← live b))
    else
      return false
  | some a, none =>
    if l.tail? = some a then do
      return decide ((← live a) ≤ ratio)
    else
      return false
  | some a, some b =>
    if l.next? a = some b then do
      if (← live a) ≤ ratio then
        return decide (ratio < (← live b))
      return false
    else
      return false

/-- A hint from which a walk may start: listed, and not behind the place. -/
def start? (l : TroveList) (live : Address → Checked Nat) (ratio : Nat) :
    Option Address → Checked (Option Address)
  | none => return none
  | some a =>
    if l.contains a then do
      return if (← live a) ≤ ratio then some a else none
    else
      return none

/-- Walks on from a place until the next ratio is greater. -/
def walk (l : TroveList) (live : Address → Checked Nat) (ratio : Nat) :
    Nat → Slot → Checked Slot
  | 0, s => return s
  | n + 1, s =>
    match s.after? with
    | none => return s
    | some a =>
      match l.nodes.get? a with
      | none => return s
      | some node => do
        if ratio < (← live a) then
          return s
        walk l live ratio n { before? := some a, after? := node.after? }

/-- The place for a ratio, found with the help of a hint. -/
def place (l : TroveList) (live : Address → Checked Nat) (ratio : Nat) (hint : Slot) :
    Checked Slot := do
  if ← l.fits live ratio hint then
    return hint
  let before? ← l.start? live ratio hint.before?
  let after? := match before? with
    | some a => l.next? a
    | none => l.head?
  l.walk live ratio l.size { before?, after? }

/-! ## Changing the links -/

/-- Lets a listed owner point forward to another. -/
def setNext (l : TroveList) (id : Address) (next? : Option Address) : TroveList :=
  match l.nodes.get? id with
  | some node => { l with nodes := l.nodes.set id { node with after? := next? } }
  | none => l

/-- Lets a listed owner point back to another. -/
def setPrev (l : TroveList) (id : Address) (prev? : Option Address) : TroveList :=
  match l.nodes.get? id with
  | some node => { l with nodes := l.nodes.set id { node with before? := prev? } }
  | none => l

/-- Makes what lies before a place point forward to an owner. -/
def joinBefore (l : TroveList) (before? after? : Option Address) : TroveList :=
  match before? with
  | some a => l.setNext a after?
  | none => { l with head? := after? }

/-- Makes what lies behind a place point back to an owner. -/
def joinAfter (l : TroveList) (before? after? : Option Address) : TroveList :=
  match after? with
  | some b => l.setPrev b before?
  | none => { l with tail? := before? }

/-- Puts an owner into a place. -/
def attach (l : TroveList) (id : Address) (s : Slot) : TroveList :=
  let l := { l with nodes := l.nodes.set id s }
  let l := l.joinBefore s.before? (some id)
  let l := l.joinAfter (some id) s.after?
  { l with size := l.size + 1 }

/-- Takes an owner out and closes the gap. -/
def detach (l : TroveList) (id : Address) : Checked TroveList :=
  match l.nodes.get? id with
  | none => refuse .notListed
  | some s =>
    let l := l.joinBefore s.before? s.after?
    let l := l.joinAfter s.before? s.after?
    return { l with nodes := l.nodes.erase id, size := l.size - 1 }

/-! ## The operations -/

/-- Lists a new owner under a ratio. -/
def insert (l : TroveList) (live : Address → Checked Nat) (id : Address) (ratio : Nat)
    (hint : Slot) : Checked TroveList := do
  require (!l.isFull) .listFull
  require (!l.contains id) .alreadyListed
  require (ratio != 0) .zeroRatio
  return l.attach id (← l.place live ratio hint)

/-- Moves a listed owner to the place of a new ratio. -/
def reposition (l : TroveList) (live : Address → Checked Nat) (id : Address) (ratio : Nat)
    (hint : Slot) : Checked TroveList := do
  require (ratio != 0) .zeroRatio
  let l ← l.detach id
  return l.attach id (← l.place live ratio hint)

end TroveList

end Troves
