import Mathlib.Algebra.BigOperators.Fin
import ReclaimableCache.Proofs.Pins

/-!
# Pin queues that share their slots

A slot may stand in several pin queues at once, and more than once in each. A queue takes off only
the pins that belong to its own places. So whatever is pinned and cleared, a queue is the tail of
what was pinned in it since it was last cleared, and a slot has the pins that it had at the start and
one for each of its places in all the queues together, as far as a machine word can tell.
-/

namespace ReclaimableCache

variable {ι K V : Type}

/-! ### Pins on top of others -/

namespace Slot

/-- The slot with so many more pins, modulo `2 ^ 64`. -/
def plusPins (s : Slot K V) (more : Nat) : Slot K V :=
  { s with pins := .ofNat (s.pins.toNat + more) }

@[simp] theorem plusPins_zero (s : Slot K V) : s.plusPins 0 = s := by
  simp [plusPins]

/-- A pin goes on top, modulo the width of the counter. -/
theorem addPin_plusPins (s : Slot K V) (more : Nat) :
    (s.plusPins more).addPin = s.plusPins (more + 1) := by
  simp [plusPins, addPin, ← Nat.add_assoc, UInt64.ofNat_add]

/-- The word wraps back: this holds also where it came to zero before. -/
theorem dropPin_plusPins (s : Slot K V) (more : Nat) :
    (s.plusPins (more + 1)).dropPin = s.plusPins more := by
  rw [← addPin_plusPins]
  simp [addPin, dropPin]

end Slot

namespace SlotPool

variable {start p : SlotPool K V} {elsewhere : SlotId → Nat} {ids : List SlotId}

/-- The slots are those of a pool at the start, each with one more pin for every place in a list and
    for every place that it has elsewhere. -/
def PinsSince (start p : SlotPool K V) (elsewhere : SlotId → Nat) (ids : List SlotId) : Prop :=
  ∀ id, p.get? id = (start.get? id).map fun slot => slot.plusPins (elsewhere id + ids.count id)

/-- A slot gets a place in the queue together with a pin. -/
theorem PinsSince.addPin (pins : start.PinsSince p elsewhere ids) (i : SlotId) :
    start.PinsSince (p.addPin i) elsewhere (ids ++ [i]) := by
  intro id
  rw [SlotPool.addPin, get?_modify, pins id, List.count_append, List.count_singleton]
  by_cases here : i = id
  · simp [here, Function.comp_def, Slot.addPin_plusPins, Nat.add_assoc]
  · simp [here]

/-- The oldest place goes, and so does its pin. -/
theorem PinsSince.dropPin {i : SlotId} (pins : start.PinsSince p elsewhere (i :: ids)) :
    start.PinsSince (p.dropPin i) elsewhere ids := by
  intro id
  rw [SlotPool.dropPin, get?_modify, pins id]
  by_cases here : i = id
  · simp [here, Function.comp_def, Slot.dropPin_plusPins, ← Nat.add_assoc]
  · simp [here]

/-- Once all places are gone only the pins of others are left. -/
theorem PinsSince.foldl_dropPin (pins : start.PinsSince p elsewhere ids) :
    start.PinsSince (ids.foldl SlotPool.dropPin p) elsewhere [] := by
  induction ids generalizing p with
  | nil => exact pins
  | cons i ids ih => exact ih pins.dropPin

end SlotPool

/-! ### One queue -/

namespace PinQueue

variable {q : PinQueue} {start p : SlotPool K V} {elsewhere : SlotId → Nat}

theorem pinsSince_trim (pins : start.PinsSince p elsewhere q.ids) :
    start.PinsSince (q.trim p).2 elsewhere (q.trim p).1.ids := by
  unfold trim
  split
  · cases places : q.ids with
    | nil => simpa [places] using pins
    | cons oldest ids =>
      -- The oldest slot may stand in other places, too: only the one in front is counted off.
      rw [places] at pins
      exact pins.dropPin
  · exact pins

/-- A queue that is too long takes off the pin that it holds longest. -/
theorem pinsSince_pin (pins : start.PinsSince p elsewhere q.ids) (id : SlotId) :
    start.PinsSince (q.pin p id).2 elsewhere (q.pin p id).1.ids := by
  unfold pin
  split
  · exact pins
  · exact pinsSince_trim (pins.addPin id)

theorem pinsSince_clear (pins : start.PinsSince p elsewhere q.ids) :
    start.PinsSince (q.clear p).2 elsewhere (q.clear p).1.ids :=
  pins.foldl_dropPin

/-- A queue has the capacity that it was made with, and is the tail of what was pinned in it. -/
structure IsTail (q : PinQueue) (capacity : Nat) (pinned : List SlotId) : Prop where
  room : q.capacity = capacity
  ids : q.ids = pinned.rtake capacity

namespace IsTail

variable {capacity : Nat} {pinned : List SlotId}

theorem create (made : create capacity = .ok q) : q.IsTail capacity [] := by
  refine ⟨capacity_create made, ?_⟩
  rw [ids_create made, List.rtake_nil]

/-- A tail is as long as the capacity allows. -/
theorem length_eq (tail : q.IsTail capacity pinned) :
    q.length = min pinned.length capacity := by
  rw [length, tail.ids, List.rtake, List.length_drop]
  omega

theorem length_le (tail : q.IsTail capacity pinned) : q.length ≤ q.capacity := by
  rw [tail.length_eq, tail.room]
  exact Nat.min_le_right _ _

/-- What was pinned last comes at the end. -/
theorem pin (tail : q.IsTail capacity pinned) (pool : SlotPool K V) (id : SlotId) :
    (q.pin pool id).1.IsTail capacity (pinned ++ [id]) := by
  refine ⟨(q.capacity_pin pool id).trans tail.room, ?_⟩
  have ids : q.ids = pinned.rtake q.capacity := by rw [tail.room, tail.ids]
  rw [ids_pin_rtake pool ids tail.length_le id, tail.room]

theorem clear (tail : q.IsTail capacity pinned) (pool : SlotPool K V) :
    (q.clear pool).1.IsTail capacity [] := by
  refine ⟨tail.room, ?_⟩
  rw [List.rtake_nil]
  rfl

/-- The length is told as it is: a queue without room is empty. -/
theorem pinAnswer_eq (tail : q.IsTail capacity pinned) (pool : SlotPool K V) (id : SlotId) :
    q.pinAnswer pool id = (q.pin pool id).1.length := by
  unfold pinAnswer
  split
  · rename_i none
    have empty := tail.length_le
    rw [none] at empty
    rw [PinQueue.pin, if_pos none]
    exact (Nat.le_zero.mp empty).symm
  · rfl

/-- Without room nothing is pinned. -/
theorem pool_pin (tail : q.IsTail 0 pinned) (pool : SlotPool K V) (id : SlotId) :
    (q.pin pool id).2 = pool := by
  rw [PinQueue.pin, if_pos tail.room]

/-- Without room there is nothing to take off. -/
theorem pool_clear (tail : q.IsTail 0 pinned) (pool : SlotPool K V) :
    (q.clear pool).2 = pool := by
  rw [PinQueue.clear, tail.ids, List.rtake_zero, List.foldl_nil]

end IsTail

end PinQueue

/-! ### Several queues -/

/-- What can be asked of one of several pin queues. -/
inductive PinOp (ι : Type) where
  | pin (queue : ι) (id : SlotId)
  | clear (queue : ι)

namespace PinOp

/-- The queue that is asked. -/
def queue : PinOp ι → ι
  | pin i _ => i
  | clear i => i

variable [DecidableEq ι]

/-- The slot that is pinned in a queue. -/
def pinned? (i : ι) : PinOp ι → Option SlotId
  | pin j id => if j = i then some id else none
  | clear _ => none

/-- Whether a queue is cleared. -/
def clears (i : ι) : PinOp ι → Bool
  | pin .. => false
  | clear j => decide (j = i)

end PinOp

/-- Pin queues, and the slots that are pinned in them. -/
structure SharedPins (ι K V : Type) where
  queue : ι → PinQueue
  pool : SlotPool K V

section

variable [DecidableEq ι]

/-- The slots that were pinned in a queue since it was last cleared, oldest first. -/
def pinnedSince (i : ι) (ops : List (PinOp ι)) : List SlotId :=
  (ops.rtakeWhile fun op => !op.clears i).filterMap (PinOp.pinned? i)

/-- Only what comes after the last clear counts. -/
theorem pinnedSince_concat (i : ι) (ops : List (PinOp ι)) (op : PinOp ι) :
    pinnedSince i (ops ++ [op]) =
      if op.clears i then [] else pinnedSince i ops ++ (op.pinned? i).toList := by
  rw [pinnedSince, List.rtakeWhile_concat]
  cases cleared : op.clears i with
  | true => simp
  | false => cases pinned : op.pinned? i <;> simp [pinnedSince, pinned]

/-- What other queues do does not count. -/
theorem pinnedSince_concat_of_ne {i : ι} (ops : List (PinOp ι)) {op : PinOp ι}
    (other : op.queue ≠ i) : pinnedSince i (ops ++ [op]) = pinnedSince i ops := by
  rw [pinnedSince_concat]
  cases op with
  | pin j id => simp [PinOp.clears, PinOp.pinned?, show j ≠ i from other]
  | clear j => simp [PinOp.clears, PinOp.pinned?, show j ≠ i from other]

namespace SharedPins

/-- What an operation makes of the queues, and the number that is answered when a slot is pinned. -/
def perform (s : SharedPins ι K V) : PinOp ι → SharedPins ι K V × Option Nat
  | .pin i id =>
      let pinned := (s.queue i).pin s.pool id
      (⟨Function.update s.queue i pinned.1, pinned.2⟩, some ((s.queue i).pinAnswer s.pool id))
  | .clear i =>
      let cleared := (s.queue i).clear s.pool
      (⟨Function.update s.queue i cleared.1, cleared.2⟩, none)

/-- What a list of operations makes of the queues. -/
def performAll (s : SharedPins ι K V) (ops : List (PinOp ι)) : SharedPins ι K V :=
  ops.foldl (fun s op => (s.perform op).1) s

theorem performAll_concat (s : SharedPins ι K V) (ops : List (PinOp ι)) (op : PinOp ι) :
    s.performAll (ops ++ [op]) = ((s.performAll ops).perform op).1 := by
  rw [performAll, List.foldl_append]
  rfl

@[simp] theorem queue_perform_pin (s : SharedPins ι K V) (i : ι) (id : SlotId) :
    (s.perform (.pin i id)).1.queue i = ((s.queue i).pin s.pool id).1 :=
  Function.update_self ..

@[simp] theorem queue_perform_clear (s : SharedPins ι K V) (i : ι) :
    (s.perform (.clear i)).1.queue i = ((s.queue i).clear s.pool).1 :=
  Function.update_self ..

/-- An operation leaves the other queues as they are. -/
theorem queue_perform_of_ne (s : SharedPins ι K V) {op : PinOp ι} {i : ι} (other : op.queue ≠ i) :
    (s.perform op).1.queue i = s.queue i := by
  cases op with
  | pin j id => exact Function.update_of_ne other.symm ..
  | clear j => exact Function.update_of_ne other.symm ..

/-! ### Tails -/

/-- Each queue is the tail of what was pinned in it since it was last cleared. -/
def Tails (s : SharedPins ι K V) (capacity : ι → Nat) (ops : List (PinOp ι)) : Prop :=
  ∀ i, (s.queue i).IsTail (capacity i) (pinnedSince i ops)

variable {s : SharedPins ι K V} {capacity : ι → Nat} {ops : List (PinOp ι)}

/-- Each queue stays a tail of its own history, whichever of them is used. -/
theorem Tails.perform (tails : s.Tails capacity ops) (op : PinOp ι) :
    (s.perform op).1.Tails capacity (ops ++ [op]) := by
  intro i
  by_cases own : op.queue = i
  · subst own
    rw [pinnedSince_concat]
    cases op with
    | pin i id =>
      have tail := (tails i).pin s.pool id
      simpa [PinOp.queue, PinOp.clears, PinOp.pinned?] using tail
    | clear i =>
      have tail := (tails i).clear s.pool
      simpa [PinOp.queue, PinOp.clears] using tail
  · rw [s.queue_perform_of_ne own, pinnedSince_concat_of_ne ops own]
    exact tails i

/-- And so along all operations. -/
theorem tails_performAll (tails : s.Tails capacity []) (ops : List (PinOp ι)) :
    (s.performAll ops).Tails capacity ops := by
  -- What was pinned since the last clearing is read from the end of the list.
  induction ops using List.reverseRecOn with
  | nil => exact tails
  | append_singleton ops op ih =>
    rw [performAll_concat]
    exact ih.perform op

/-- A queue without room never holds a pin. -/
theorem Tails.pool_perform (tails : s.Tails capacity ops) {op : PinOp ι}
    (none : capacity op.queue = 0) : (s.perform op).1.pool = s.pool := by
  have tail := tails op.queue
  rw [none] at tail
  cases op with
  | pin i id => exact tail.pool_pin s.pool id
  | clear i => exact tail.pool_clear s.pool

/-! ### Places -/

variable [Fintype ι]

/-- The number of places of a slot in all queues. -/
def places (s : SharedPins ι K V) (id : SlotId) : Nat :=
  ∑ i, (s.queue i).ids.count id

/-- The number of places of a slot in all queues but one. -/
def placesBut (s : SharedPins ι K V) (i : ι) (id : SlotId) : Nat :=
  ∑ j ∈ Finset.univ.erase i, (s.queue j).ids.count id

/-- The places of a slot are those in one queue and those in the others. -/
theorem places_eq (s : SharedPins ι K V) (i : ι) (id : SlotId) :
    s.places id = s.placesBut i id + (s.queue i).ids.count id :=
  (Finset.sum_erase_add _ _ (Finset.mem_univ i)).symm

theorem placesBut_perform (s : SharedPins ι K V) (op : PinOp ι) :
    (s.perform op).1.placesBut op.queue = s.placesBut op.queue := by
  funext id
  apply Finset.sum_congr rfl
  intro j member
  rw [s.queue_perform_of_ne (Finset.ne_of_mem_erase member).symm]

/-- Every slot has the pins that it had at the start, and one for each of its places. -/
def Accounts (s : SharedPins ι K V) (start : SlotPool K V) : Prop :=
  ∀ id, s.pool.get? id = (start.get? id).map fun slot => slot.plusPins (s.places id)

variable {start : SlotPool K V}

/-- Seen from one queue, the places are its own and those elsewhere. -/
theorem accounts_iff (i : ι) :
    s.Accounts start ↔ start.PinsSince s.pool (s.placesBut i) (s.queue i).ids := by
  simp only [Accounts, SlotPool.PinsSince, s.places_eq i]

/-- The pins of a slot follow its places in the queue that is used. -/
theorem Accounts.perform (accounts : s.Accounts start) (op : PinOp ι) :
    (s.perform op).1.Accounts start := by
  -- Only the queue that is asked moves places, so that those elsewhere are as before.
  rw [accounts_iff op.queue, placesBut_perform]
  have pins := (accounts_iff op.queue).mp accounts
  cases op with
  | pin i id => exact s.queue_perform_pin i id ▸ PinQueue.pinsSince_pin pins id
  | clear i => exact s.queue_perform_clear i ▸ PinQueue.pinsSince_clear pins

/-- Every slot keeps as many pins as it has places, on top of those at the start. -/
theorem accounts_performAll (accounts : s.Accounts start) (ops : List (PinOp ι)) :
    (s.performAll ops).Accounts start := by
  induction ops using List.reverseRecOn with
  | nil => exact accounts
  | append_singleton ops op ih =>
    rw [performAll_concat]
    exact ih.perform op

/-- Pin queues that were just made, over slots with any number of pins, are used in any way. Then a
    queue is the tail of what was pinned in it since it was last cleared, as long as its capacity
    admits; the next pin in it tells its length, which is never above the capacity; and if it has no
    room, nothing that is asked of it changes a slot. Each slot is as it was at the start, but for
    one more pin for each of its places in all the queues, modulo `2 ^ 64`. -/
theorem queues_match_history {capacity : ι → Nat} {queue : ι → PinQueue}
    (made : ∀ i, PinQueue.create (capacity i) = .ok (queue i)) (pool : SlotPool K V)
    (ops : List (PinOp ι)) :
    let s := (SharedPins.mk queue pool).performAll ops
    (∀ i, let pinned := pinnedSince i ops
        (s.queue i).ids = pinned.drop (pinned.length - capacity i)
          ∧ (s.queue i).length = min pinned.length (capacity i)
          ∧ (s.queue i).capacity = capacity i
          ∧ (∀ id, let next := s.perform (.pin i id)
              next.2 = some (next.1.queue i).length ∧ (next.1.queue i).length ≤ capacity i)
          ∧ (capacity i = 0 → ∀ op, op.queue = i → (s.perform op).1.pool = s.pool))
      ∧ ∀ id, s.pool.get? id = (pool.get? id).map fun slot =>
          { slot with pins := .ofNat (slot.pins.toNat + ∑ i, (s.queue i).ids.count id) } := by
  intro s
  have tails : s.Tails capacity ops := tails_performAll (fun i => .create (made i)) ops
  have accounts : s.Accounts pool := by
    apply accounts_performAll
    intro id
    simp [places, PinQueue.ids_create (made _)]
  refine ⟨fun i => ⟨(tails i).ids, (tails i).length_eq, (tails i).room, fun id => ⟨?_, ?_⟩, ?_⟩,
    accounts⟩
  · show some ((s.queue i).pinAnswer s.pool id) = some ((s.perform (.pin i id)).1.queue i).length
    rw [(tails i).pinAnswer_eq, queue_perform_pin]
  · have tail := tails.perform (.pin i id) i
    exact tail.room ▸ tail.length_le
  · rintro none op rfl
    exact tails.pool_perform none

end SharedPins

end

/-- Room for two pins, for one, and for none. -/
def fewPlaces : Fin 3 → Nat := ![2, 1, 0]

/-- A slot with as many pins as a word can tell, and a slot with five. -/
def SlotPool.brimming : SlotPool Nat Nat := ⟨#[⟨1, 10, true, 0xffffffffffffffff⟩, ⟨2, 20, true, 5⟩]⟩

/-- The first queue is cleared once, and then lets a place of the slot go that is just pinned. -/
def brimmingOps : List (PinOp (Fin 3)) :=
  [.pin 0 1, .clear 0, .pin 0 0, .pin 1 0, .pin 0 1, .pin 0 0, .pin 2 1]

/-- The first slot has a place in two queues, and its pins have wrapped to one. -/
theorem queues_match_history_brimming :
    (∀ i, PinQueue.create (fewPlaces i) = .ok ⟨fewPlaces i, []⟩) ∧
      let s := (SharedPins.mk (fun i => ⟨fewPlaces i, []⟩) .brimming).performAll brimmingOps
      (s.queue 0).ids = [1, 0] ∧ (s.queue 1).ids = [0] ∧ (s.queue 2).ids = [] ∧
        (s.perform (.pin 0 1)).2 = some 2 ∧ (s.perform (.pin 2 0)).1.pool = s.pool ∧
        s.pool.get? 0 = some ⟨1, 10, true, 1⟩ ∧ s.pool.get? 1 = some ⟨2, 20, true, 6⟩ := by
  have made : ∀ i, PinQueue.create (fewPlaces i) = .ok ⟨fewPlaces i, []⟩ := by decide
  obtain ⟨tails, pins⟩ := SharedPins.queues_match_history made .brimming brimmingOps
  obtain ⟨ids0, _, _, tells, _⟩ := tails 0
  obtain ⟨ids1, _⟩ := tails 1
  obtain ⟨ids2, _, _, _, unpinned⟩ := tails 2
  have first := pins 0
  have second := pins 1
  rw [Fin.sum_univ_three, ids0, ids1, ids2] at first second
  exact ⟨made, ids0, ids1, ids2, (tells 1).1, unpinned rfl (.pin 2 0) rfl, first, second⟩

end ReclaimableCache
