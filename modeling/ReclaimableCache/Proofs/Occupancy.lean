import ReclaimableCache.Proofs.Quiescence

/-!
# Live entries and pins

The live entries of a cache, by their slots. A pass may release those that have no pins. The others
are no more than a queue may hold, so that the entries above that number can all be released.
-/

namespace ReclaimableCache

variable {K V : Type}

namespace Cache

/-- The slots of the live entries. -/
def liveSlots (c : Cache K V) : List SlotId :=
  (c.table.toList.map Prod.snd).filter c.pool.isLive

/-- The slots that a pass may release, in the order of its walk round the table. -/
def unpinned (c : Cache K V) : List SlotId :=
  (c.table.slotsFrom c.startShard).filter c.pool.evictable

theorem length_liveSlots (c : Cache K V) : c.liveSlots.length = c.toList.length := by
  rw [liveSlots, length_toList, ← List.countP_eq_length_filter, List.countP_map]
  rfl

section

variable [DecidableEq K] {c : Cache K V} (consistent : c.Consistent)

include consistent

theorem Consistent.mem_liveSlots {id : SlotId} :
    id ∈ c.liveSlots ↔ ∃ key, c.liveSlot? key = some id := by
  have ordered := consistent.table.toOrdered
  rw [liveSlots, List.mem_filter, List.mem_map]
  constructor
  · rintro ⟨⟨⟨key, _⟩, listed, rfl⟩, live⟩
    have bound := (ShardedMap.get?_eq_some_iff ordered).mpr listed
    exact ⟨key, Option.filter_eq_some_iff.mpr ⟨bound, live⟩⟩
  · rintro ⟨key, there⟩
    obtain ⟨bound, live⟩ := Option.filter_eq_some_iff.mp there
    exact ⟨⟨_, (ShardedMap.get?_eq_some_iff ordered).mp bound, rfl⟩, live⟩

theorem Consistent.nodup_liveSlots : c.liveSlots.Nodup := consistent.nodup_slots.filter _

/-- Of the live slots those may be released that have no place in the queue. -/
theorem Consistent.evictable_iff {id : SlotId} :
    c.pool.evictable id = true ↔ c.pool.isLive id = true ∧ id ∉ c.queue.ids := by
  have places := consistent.pins.pins_eq id
  rw [SlotPool.evictable, SlotPool.isLive, SlotPool.value?]
  rw [SlotPool.pins] at places
  cases found : c.pool.get? id with
  | none => simp
  | some slot =>
    have none : slot.pins = 0 ↔ id ∉ c.queue.ids := by
      rw [← List.count_eq_zero, ← places, found]
      exact UInt64.toNat_inj.symm
    simp [Slot.evictable, Slot.value?_isSome, none]

theorem Consistent.perm_unpinned :
    c.unpinned.Perm (c.liveSlots.filter fun id => id ∉ c.queue.ids) := by
  rw [liveSlots, List.filter_filter]
  refine ((c.table.perm_slotsFrom c.startShard).filter _).trans (List.Perm.of_eq ?_)
  apply List.filter_congr
  intro id _
  rw [Bool.eq_iff_iff, consistent.evictable_iff]
  simp [and_comm]

/-- Of the live entries those with pins may not be released. -/
theorem Consistent.filter_unpinned (key : K) :
    ((c.liveSlot? key).filter fun id => id ∉ c.unpinned) =
      (c.liveSlot? key).filter fun id => id ∈ c.queue.ids := by
  cases there : c.liveSlot? key with
  | none => rfl
  | some id =>
    have live := consistent.mem_liveSlots.mpr ⟨key, there⟩
    have free : id ∈ c.unpinned ↔ id ∉ c.queue.ids := by
      rw [consistent.perm_unpinned.mem_iff, List.mem_filter, decide_eq_true_eq]
      exact and_iff_right live
    simp [Option.filter, free]

/-- The live entries with pins are no more than the places in the queue. -/
theorem Consistent.length_pinned_le :
    (c.liveSlots.filter fun id => id ∈ c.queue.ids).length ≤ c.queue.capacity := by
  have few : (c.liveSlots.filter fun id => id ∈ c.queue.ids).length ≤ c.queue.ids.length := by
    apply List.Subperm.length_le
    apply List.subperm_of_subset (consistent.nodup_liveSlots.filter _)
    intro id member
    simpa using (List.mem_filter.mp member).2
  exact few.trans consistent.pins.bounded

theorem Consistent.length_unpinned_add :
    c.unpinned.length + (c.liveSlots.filter fun id => id ∈ c.queue.ids).length =
      c.toList.length := by
  have parts := List.length_eq_length_filter_add (l := c.liveSlots) fun id => id ∈ c.queue.ids
  rw [consistent.perm_unpinned.length_eq, ← length_liveSlots, parts, Nat.add_comm]
  simp only [decide_not]

/-- Where some live entries leave the table and all that are dead do, the others are counted. -/
theorem Consistent.size_of_left {d : Cache K V} (later : d.Consistent) {gone : List SlotId}
    (distinct : gone.Nodup) (live : ∀ id ∈ gone, id ∈ c.liveSlots)
    (left : ∀ key, d.table.get? key = (c.liveSlot? key).filter fun id => id ∉ gone) :
    d.size + gone.length = c.toList.length := by
  have stay : (d.table.toList.map Prod.snd).Perm (c.liveSlots.filter fun id => id ∉ gone) := by
    apply (List.perm_ext_iff_of_nodup later.nodup_slots (consistent.nodup_liveSlots.filter _)).mpr
    intro id
    rw [List.mem_filter, consistent.mem_liveSlots, List.mem_map]
    constructor
    · rintro ⟨⟨key, _⟩, listed, rfl⟩
      have bound := (ShardedMap.get?_eq_some_iff later.table.toOrdered).mpr listed
      rw [left, Option.filter_eq_some_iff] at bound
      exact ⟨⟨key, bound.1⟩, bound.2⟩
    · rintro ⟨⟨key, there⟩, stays⟩
      have bound : d.table.get? key = some id := by
        rw [left]
        exact Option.filter_eq_some_iff.mpr ⟨there, stays⟩
      exact ⟨(key, id), (ShardedMap.get?_eq_some_iff later.table.toOrdered).mp bound, rfl⟩
  have go : gone.Perm (c.liveSlots.filter fun id => id ∈ gone) := by
    apply (List.perm_ext_iff_of_nodup distinct (consistent.nodup_liveSlots.filter _)).mpr
    intro id
    rw [List.mem_filter, decide_eq_true_eq]
    exact ⟨fun member => ⟨live id member, member⟩, And.right⟩
  have parts := List.length_eq_length_filter_add (l := c.liveSlots) fun id => id ∈ gone
  have others := stay.length_eq
  rw [List.length_map] at others
  rw [size, later.table.counted, others, go.length_eq, ← length_liveSlots, parts, Nat.add_comm]
  simp only [decide_not]

end

end Cache

end ReclaimableCache
