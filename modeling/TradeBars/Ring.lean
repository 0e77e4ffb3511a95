/-! A bounded double-ended sequence in a ring of slots. A full ring gives up its
first element for a new last one, and refuses a new first one. -/
namespace TradeBars

/-- The elements sit in `size` slots from `head` on, around the end of the array. -/
structure Ring (β : Type) where
  slots : Array (Option β)
  head : Nat
  size : Nat

namespace Ring

variable {β : Type}

def empty (capacity : Nat) : Ring β := ⟨Array.replicate capacity none, 0, 0⟩

def capacity (r : Ring β) : Nat := r.slots.size

def isEmpty (r : Ring β) : Bool := r.size == 0

def isFull (r : Ring β) : Bool := r.size == r.capacity

/-- The elements that still fit. -/
def remaining (r : Ring β) : Nat := r.capacity - r.size

/-- The slot of the element with the given index. -/
def slot (r : Ring β) (i : Nat) : Nat := (r.head + i) % r.capacity

def get? (r : Ring β) (i : Nat) : Option β :=
  if i < r.size then r.slots[r.slot i]?.join else none

/-- The index of the last element. -/
def lastIndex? (r : Ring β) : Option Nat := if r.size = 0 then none else some (r.size - 1)

def first? (r : Ring β) : Option β := r.get? 0

def last? (r : Ring β) : Option β := r.lastIndex?.bind r.get?

/-- The elements in order. -/
def toList (r : Ring β) : List β := (List.range r.size).filterMap r.get?

/-- Changes the last element, if there is one. -/
def modifyLast (r : Ring β) (f : β → β) : Ring β :=
  match r.lastIndex? with
  | some i => { r with slots := r.slots.modify (r.slot i) (·.map f) }
  | none => r

/-- Adds a last element; the first one gives way, and is returned, if the ring is full. -/
def pushBack (r : Ring β) (x : β) : Option β × Ring β :=
  if r.isFull then
    (r.slots[r.head]?.join,
      { r with
        slots := r.slots.setIfInBounds r.head (some x)
        head := (r.head + 1) % r.capacity })
  else
    (none, { r with slots := r.slots.setIfInBounds (r.slot r.size) (some x), size := r.size + 1 })

/-- Adds a first element, unless the ring is full. -/
def pushFront? (r : Ring β) (x : β) : Option (Ring β) :=
  if r.isFull then none
  else
    let head := (r.head + r.capacity - 1) % r.capacity
    some ⟨r.slots.setIfInBounds head (some x), head, r.size + 1⟩

def clear (r : Ring β) : Ring β := empty r.capacity

end Ring

end TradeBars
