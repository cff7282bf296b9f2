import Mathlib.Data.List.DropRight
import ReclaimableCache.PinQueue

/-!
# Pins

The pins of every slot are its places in the pin queue: `SlotPool.PinsAre` says so of a pool and a
list of places, `PinQueue.Counts` of a pool and a queue that is not too long. A queue takes so few
places that the count of pins, a machine word, never wraps.
-/

namespace ReclaimableCache

namespace SlotPool

variable {K V : Type}

theorem lt_nextId {p : SlotPool K V} {id : SlotId} {slot : Slot K V}
    (found : p.get? id = some slot) : id < p.nextId :=
  (Array.getElem?_eq_some_iff.mp found).1

theorem exists_get? {p : SlotPool K V} {id : SlotId} (known : id < p.nextId) :
    ∃ slot, p.get? id = some slot :=
  ⟨p.slots[id], Array.getElem?_eq_getElem known⟩

/-- Every slot has as many pins as it has places in a list. -/
def PinsAre (p : SlotPool K V) (ids : List SlotId) : Prop :=
  ∀ id slot, p.get? id = some slot → slot.pins.toNat = ids.count id

theorem PinsAre.addPin {p : SlotPool K V} {ids : List SlotId} (pins : p.PinsAre ids)
    (short : ids.length ≤ Panic.maxBytes) (id : SlotId) : (p.addPin id).PinsAre (ids ++ [id]) := by
  intro k slot found
  rw [SlotPool.addPin, get?_modify] at found
  rw [List.count_append, List.count_singleton]
  by_cases here : id = k
  · subst here
    rw [if_pos rfl, Option.map_eq_some_iff] at found
    obtain ⟨before, found, rfl⟩ := found
    have places := pins id before found
    have few : ids.count id ≤ ids.length := List.count_le_length
    unfold Panic.maxBytes at short
    simp only [Slot.addPin, UInt64.toNat_add, UInt64.toNat_one, places, beq_self_eq_true, if_true]
    exact Nat.mod_eq_of_lt (by omega)
  · rw [if_neg here] at found
    simp [here, pins k slot found]

theorem PinsAre.dropPin {p : SlotPool K V} {id : SlotId} {ids : List SlotId}
    (pins : p.PinsAre (id :: ids)) : (p.dropPin id).PinsAre ids := by
  intro k slot found
  rw [SlotPool.dropPin, get?_modify] at found
  by_cases here : id = k
  · subst here
    rw [if_pos rfl, Option.map_eq_some_iff] at found
    obtain ⟨before, found, rfl⟩ := found
    have places := pins id before found
    rw [List.count_cons_self] at places
    have some : (1 : UInt64) ≤ before.pins := by
      rw [UInt64.le_iff_toNat_le, places]
      simp
    simp [Slot.dropPin, UInt64.toNat_sub_of_le _ _ some, places]
  · rw [if_neg here] at found
    have places := pins k slot found
    rwa [List.count_cons_of_ne here] at places

theorem PinsAre.foldl_dropPin {p : SlotPool K V} {ids : List SlotId} (pins : p.PinsAre ids) :
    (ids.foldl SlotPool.dropPin p).PinsAre [] := by
  induction ids generalizing p with
  | nil => exact pins
  | cons id ids ih => exact ih pins.dropPin

/-- A new slot has no pins, and no places as long as only known slots have any. -/
theorem PinsAre.add {p : SlotPool K V} {ids : List SlotId} (pins : p.PinsAre ids)
    (known : ∀ id ∈ ids, id < p.nextId) (key : K) (value : V) :
    (p.add (.fresh key value)).PinsAre ids := by
  intro k slot found
  rw [get?_add] at found
  by_cases here : k = p.nextId
  · rw [if_pos here] at found
    cases found
    have absent : k ∉ ids := fun member => Nat.ne_of_lt (known k member) here
    rw [List.count_eq_zero_of_not_mem absent]
    rfl
  · rw [if_neg here] at found
    exact pins k slot found

/-- Changes of one slot that leave its pins alone. -/
theorem PinsAre.modify {p : SlotPool K V} {ids : List SlotId} (pins : p.PinsAre ids)
    (i : SlotId) {f : Slot K V → Slot K V}
    (same : ∀ slot, p.get? i = some slot → (f slot).pins = slot.pins) :
    (p.modify i f).PinsAre ids := by
  intro k slot found
  rw [get?_modify] at found
  by_cases here : i = k
  · rw [if_pos here, Option.map_eq_some_iff] at found
    obtain ⟨before, found, rfl⟩ := found
    subst here
    rw [same before found]
    exact pins i before found
  · rw [if_neg here] at found
    exact pins k slot found

end SlotPool

theorem rtake_append_singleton {σ : Type} (l : List σ) (x : σ) {n : Nat} (positive : 0 < n) :
    (l ++ [x]).rtake n = (l.rtake n).drop ((l.rtake n).length + 1 - n) ++ [x] := by
  rw [List.rtake, List.rtake, List.drop_drop, List.length_append, List.length_singleton,
    List.drop_append_of_le_length (by omega), List.length_drop]
  congr 2
  omega

namespace PinQueue

variable {K V : Type}

/-- A queue with room keeps the newest pins, the last of which is the one just put on. -/
theorem ids_pin {q : PinQueue} (p : SlotPool K V) (id : SlotId) (room : 0 < q.capacity)
    (bounded : q.length ≤ q.capacity) :
    (q.pin p id).1.ids = q.ids.drop (q.length + 1 - q.capacity) ++ [id] := by
  rw [pin, if_neg (Nat.ne_of_gt room), trim]
  rw [length] at bounded
  simp only [length, List.length_append, List.length_singleton]
  by_cases full : q.capacity < q.ids.length + 1
  · have one : q.ids.length + 1 - q.capacity = 1 := by omega
    rw [if_pos full, one]
    cases places : q.ids with
    | nil =>
      rw [places, List.length_nil] at full
      omega
    | cons oldest ids => rfl
  · have none : q.ids.length + 1 - q.capacity = 0 := by omega
    rw [if_neg full, none, List.drop_zero]

/-- A queue that is the tail of what was pinned in it is so after the next pin. -/
theorem ids_pin_rtake {q : PinQueue} (pool : SlotPool K V) {touched : List SlotId}
    (tail : q.ids = touched.rtake q.capacity) (bounded : q.length ≤ q.capacity) (id : SlotId) :
    (q.pin pool id).1.ids = (touched ++ [id]).rtake q.capacity := by
  by_cases room : 0 < q.capacity
  · rw [ids_pin pool id room bounded, rtake_append_singleton touched id room, length, tail]
  · have none : q.capacity = 0 := by omega
    rw [none, Nat.le_zero] at bounded
    have empty : q.ids = [] := List.length_eq_zero_iff.mp bounded
    rw [pin, if_pos none, empty, none]
    simp [List.rtake]

@[simp] theorem capacity_pin (q : PinQueue) (p : SlotPool K V) (id : SlotId) :
    (q.pin p id).1.capacity = q.capacity := by
  unfold pin trim
  split
  · rfl
  · split
    · split <;> rfl
    · rfl

theorem capacity_create {capacity : Nat} {q : PinQueue} (made : create capacity = .ok q) :
    q.capacity = capacity := by
  rw [create, Panic.reserve] at made
  split at made
  · cases made
  · cases made
    rfl

theorem ids_create {capacity : Nat} {q : PinQueue} (made : create capacity = .ok q) :
    q.ids = [] := by
  rw [create, Panic.reserve] at made
  split at made
  · cases made
  · cases made
    rfl

/-- The queue is not too long, stands for known slots only, and its places are the pins. -/
structure Counts (q : PinQueue) (p : SlotPool K V) : Prop where
  bounded : q.length ≤ q.capacity
  small : q.capacity ≤ Panic.maxBytes
  known : ∀ id ∈ q.ids, id < p.nextId
  pins : p.PinsAre q.ids

theorem Counts.trim {q : PinQueue} {p : SlotPool K V} (bounded : q.length ≤ q.capacity + 1)
    (small : q.capacity ≤ Panic.maxBytes) (known : ∀ id ∈ q.ids, id < p.nextId)
    (pins : p.PinsAre q.ids) : (q.trim p).1.Counts (q.trim p).2 := by
  unfold PinQueue.trim
  split
  · rename_i long
    cases places : q.ids with
    | nil => rw [length, places] at long; simp at long
    | cons oldest ids =>
      rw [places] at pins known
      rw [length, places, List.length_cons] at bounded
      refine ⟨?_, small, ?_, pins.dropPin⟩
      · simpa [length] using bounded
      · intro id member
        exact SlotPool.nextId_modify p _ _ ▸ known id (List.mem_cons_of_mem _ member)
  · rename_i short
    exact ⟨Nat.le_of_not_lt short, small, known, pins⟩

theorem Counts.pin {q : PinQueue} {p : SlotPool K V} (counts : q.Counts p) {id : SlotId}
    (made : id < p.nextId) : (q.pin p id).1.Counts (q.pin p id).2 := by
  obtain ⟨bounded, small, known, pins⟩ := counts
  unfold PinQueue.pin
  split
  · exact ⟨bounded, small, known, pins⟩
  · rw [length] at bounded
    apply Counts.trim
    · simpa [length] using bounded
    · exact small
    · intro k member
      rw [SlotPool.addPin, SlotPool.nextId_modify]
      rcases List.mem_append.mp member with member | member
      · exact known k member
      · rw [List.mem_singleton] at member
        exact member ▸ made
    · exact pins.addPin (by omega) id

theorem Counts.clear {q : PinQueue} {p : SlotPool K V} (counts : q.Counts p) :
    (q.clear p).1.Counts (q.clear p).2 :=
  ⟨Nat.zero_le _, counts.small, by simp [PinQueue.clear], counts.pins.foldl_dropPin⟩

theorem Counts.add {q : PinQueue} {p : SlotPool K V} (counts : q.Counts p) (key : K) (value : V) :
    q.Counts (p.add (.fresh key value)) := by
  refine ⟨counts.bounded, counts.small, fun id member => ?_,
    counts.pins.add counts.known key value⟩
  rw [SlotPool.nextId_add]
  exact Nat.lt_succ_of_lt (counts.known id member)

theorem Counts.modify {q : PinQueue} {p : SlotPool K V} (counts : q.Counts p) (i : SlotId)
    {f : Slot K V → Slot K V}
    (same : ∀ slot, p.get? i = some slot → (f slot).pins = slot.pins) : q.Counts (p.modify i f) := by
  refine ⟨counts.bounded, counts.small, fun id member => ?_, counts.pins.modify i same⟩
  rw [SlotPool.nextId_modify]
  exact counts.known id member

/-- A queue that could be made is short enough for its pins to be counted. -/
theorem Counts.create {capacity : Nat} {q : PinQueue} (made : create capacity = .ok q) :
    q.Counts (.empty : SlotPool K V) := by
  rw [PinQueue.create, Panic.reserve, maxWord, placeBytes, Panic.maxBytes] at made
  split at made
  · cases made
  · cases made
    refine ⟨Nat.zero_le _, ?_, by simp, ?_⟩
    · simp only [Panic.maxBytes]
      omega
    · intro id slot found
      simp at found

/-- A slot that was never made has neither pins nor places. -/
theorem Counts.pins_eq {q : PinQueue} {p : SlotPool K V} (counts : q.Counts p) (id : SlotId) :
    (p.pins id).toNat = q.ids.count id := by
  rw [SlotPool.pins]
  cases found : p.get? id with
  | none =>
    have absent : id ∉ q.ids := by
      intro member
      obtain ⟨slot, made⟩ := SlotPool.exists_get? (counts.known id member)
      rw [found] at made
      cases made
    rw [List.count_eq_zero_of_not_mem absent]
    rfl
  | some slot => exact counts.pins id slot found

/-- Where pins are counted, the check of the counts succeeds. -/
theorem Counts.countsMatch {q : PinQueue} {p : SlotPool K V} (counts : q.Counts p) :
    q.countsMatch p = true := by
  rw [PinQueue.countsMatch, List.all_eq_true]
  intro id member
  rw [counts.pins_eq, beq_self_eq_true]

end PinQueue

end ReclaimableCache
