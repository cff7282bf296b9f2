import ReclaimableCache.Hasher
import ReclaimableCache.Text.Inspection

/-!
# Slots

A slot holds one value under the key that it was stored with. It is live until its value is
released, which happens at most once, and it counts the pins that protect it. A `SlotPool` holds
every slot that was ever made; a slot is named by its place there, so that two slots are the same
only if they were made together.
-/

namespace ReclaimableCache

open Text

/-- One stored value. -/
structure Slot (K V : Type) where
  /-- The key that the value was stored under. -/
  key : K
  /-- The value as it was stored. -/
  content : V
  /-- Whether the value is still to be had. -/
  live : Bool
  /-- The number of pins on the slot, modulo `2 ^ 64`. -/
  pins : UInt64

namespace Slot

variable {K V : Type}

/-- A live slot without pins. -/
def fresh (key : K) (content : V) : Slot K V := ⟨key, content, true, 0⟩

/-- The value, while the slot is live. -/
def value? (s : Slot K V) : Option V :=
  if s.live then some s.content else none

/-- Whether a pass that releases values may take this one. -/
def evictable (s : Slot K V) : Bool :=
  s.live && s.pins == 0

/-- The slot once its value is released. -/
def released (s : Slot K V) : Slot K V := { s with live := false }

/-- Releases the value, whatever pins there are, and says which it was. -/
def detach (s : Slot K V) : Slot K V × Option V :=
  (s.released, s.value?)

/-- Releases the value if no pin protects it. -/
def detachUnlessPinned (s : Slot K V) : Slot K V × Option V :=
  if s.pins = 0 then s.detach else (s, none)

/-- Puts a pin on the slot. -/
def addPin (s : Slot K V) : Slot K V := { s with pins := s.pins + 1 }

/-- Takes a pin off the slot. -/
def dropPin (s : Slot K V) : Slot K V := { s with pins := s.pins - 1 }

instance [Inspect K] : Inspect (Slot K V) where
  inspect s := .record "Slot"
    [("key", inspect s.key), ("live", inspect s.live), ("pins", inspect s.pins)] false

/-- A value that was released is gone. -/
@[simp] theorem value?_released (s : Slot K V) : s.released.value? = none := rfl

theorem value?_isSome (s : Slot K V) : s.value?.isSome = s.live := by
  cases h : s.live <;> simp [value?, h]

end Slot

/-- All slots that were ever made. -/
structure SlotPool (K V : Type) where
  slots : Array (Slot K V)

namespace SlotPool

variable {K V : Type}

/-- The pool before the first slot is made. -/
def empty : SlotPool K V := ⟨#[]⟩

/-- The slot with a given identity. -/
def get? (p : SlotPool K V) (id : SlotId) : Option (Slot K V) := p.slots[id]?

/-- The identity of the slot that is made next. -/
def nextId (p : SlotPool K V) : SlotId := p.slots.size

/-- The slot that was made so many slots before the one that was made last. -/
def recent? (p : SlotPool K V) (age : Nat) : Option SlotId :=
  if age < p.slots.size then some (p.slots.size - 1 - age) else none

/-- Makes a slot; its identity is `p.nextId`. -/
def add (p : SlotPool K V) (slot : Slot K V) : SlotPool K V := ⟨p.slots.push slot⟩

/-- Changes one slot. -/
def modify (p : SlotPool K V) (id : SlotId) (f : Slot K V → Slot K V) : SlotPool K V :=
  ⟨p.slots.modify id f⟩

/-- The value in a slot, while it is live. -/
def value? (p : SlotPool K V) (id : SlotId) : Option V := (p.get? id).bind Slot.value?

/-- Whether a slot is live. -/
def isLive (p : SlotPool K V) (id : SlotId) : Bool := (p.value? id).isSome

/-- The number of pins on a slot. -/
def pins (p : SlotPool K V) (id : SlotId) : UInt64 :=
  match p.get? id with
  | some slot => slot.pins
  | none => 0

/-- Whether a pass that releases values may take a slot. -/
def evictable (p : SlotPool K V) (id : SlotId) : Bool := (p.get? id).any Slot.evictable

/-- Puts a pin on a slot. -/
def addPin (p : SlotPool K V) (id : SlotId) : SlotPool K V := p.modify id Slot.addPin

/-- Takes a pin off a slot. -/
def dropPin (p : SlotPool K V) (id : SlotId) : SlotPool K V := p.modify id Slot.dropPin

@[simp] theorem get?_empty (id : SlotId) : (empty : SlotPool K V).get? id = none := by
  simp [empty, get?]

/-- The slots that there are stay as they are. -/
theorem get?_add (p : SlotPool K V) (slot : Slot K V) (id : SlotId) :
    (p.add slot).get? id = if id = p.nextId then some slot else p.get? id := by
  simp only [add, get?, nextId, Array.getElem?_push]
  rfl

theorem get?_modify (p : SlotPool K V) (f : Slot K V → Slot K V) (i id : SlotId) :
    (p.modify i f).get? id = if i = id then (p.get? id).map f else p.get? id := by
  simp [modify, get?, Array.getElem?_modify]

@[simp] theorem nextId_add (p : SlotPool K V) (slot : Slot K V) :
    (p.add slot).nextId = p.nextId + 1 := by
  simp [add, nextId]

@[simp] theorem nextId_modify (p : SlotPool K V) (f : Slot K V → Slot K V) (i : SlotId) :
    (p.modify i f).nextId = p.nextId := by
  simp [modify, nextId]

end SlotPool

end ReclaimableCache
