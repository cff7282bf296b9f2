import ReclaimableCache.Fault
import ReclaimableCache.Slot

/-!
# The pin queue

A bounded first-in first-out queue of slots. Each place in the queue is one pin on the slot in it:
entering the queue puts the pin on, and leaving it, by age or because the queue is cleared, takes
the pin off. A slot may stand in several places. A queue without room pins nothing.
-/

namespace ReclaimableCache

open Text

/-- The slots that are pinned, oldest first. -/
structure PinQueue where
  capacity : Nat
  ids : List SlotId
  deriving DecidableEq

namespace PinQueue

variable {K V : Type}

/-- The largest number that a machine word holds. -/
def maxWord : Nat := 0xffffffffffffffff

/-- The bytes that one place in a queue takes. -/
def placeBytes : Nat := 8

/-- An empty queue; `capacity + 1` places are reserved for it, which has to be possible. -/
def create (capacity : Nat) : Except Panic PinQueue := do
  Panic.reserve (min (capacity + 1) maxWord) placeBytes
  return ⟨capacity, []⟩

/-- The number of places that are taken. -/
def length (q : PinQueue) : Nat := q.ids.length

/-- Lets the oldest pin go if there is one too many. -/
def trim (q : PinQueue) (pool : SlotPool K V) : PinQueue × SlotPool K V :=
  if q.capacity < q.length then
    match q.ids with
    | [] => (q, pool)
    | oldest :: ids => ({ q with ids }, pool.dropPin oldest)
  else (q, pool)

/-- Pins a slot as the newest. -/
def pin (q : PinQueue) (pool : SlotPool K V) (id : SlotId) : PinQueue × SlotPool K V :=
  if q.capacity = 0 then (q, pool)
  else trim { q with ids := q.ids ++ [id] } (pool.addPin id)

/-- What is answered when a slot is pinned: the number of places that are taken then. A queue
    without room answers at once. -/
def pinAnswer (q : PinQueue) (pool : SlotPool K V) (id : SlotId) : Nat :=
  if q.capacity = 0 then 0 else (q.pin pool id).1.length

/-- Takes every pin off. -/
def clear (q : PinQueue) (pool : SlotPool K V) : PinQueue × SlotPool K V :=
  ({ q with ids := [] }, q.ids.foldl SlotPool.dropPin pool)

/-- Whether every slot in the queue has as many pins as it has places. -/
def countsMatch (q : PinQueue) (pool : SlotPool K V) : Bool :=
  q.ids.all fun id => (pool.pins id).toNat == q.ids.count id

/-- A queue is shown with its slots, by number, in an inner record. -/
instance : Inspect PinQueue where
  inspect q := .record "PinRing"
    [("ring", .record "Mutex"
        [("data", .list (q.ids.map fun id => .atom ("#" ++ toString id)))] false),
      ("capacity", inspect q.capacity)] false

end PinQueue

end ReclaimableCache
