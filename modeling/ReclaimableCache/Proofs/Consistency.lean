import ReclaimableCache.Proofs.Growth
import ReclaimableCache.Proofs.Table

/-!
# Consistency

The parts of a cache agree: the places in its pin queue are the pins of all slots that it ever made,
its table is one finite map, and each entry leads to a slot that was made for the key. Every single
move keeps this, so that it holds wherever code of a caller can look, however deep in a cleaner.
-/

namespace ReclaimableCache

variable {K V : Type}

section

variable [DecidableEq K]

/-- Each entry leads to a slot that was made for its key. -/
def Cache.Keyed (c : Cache K V) : Prop :=
  ∀ key id, c.table.get? key = some id → ∃ slot, c.pool.get? id = some slot ∧ slot.key = key

/-- The parts of a cache agree. -/
structure Cache.Consistent (c : Cache K V) : Prop where
  pins : c.queue.Counts c.pool
  table : c.table.WellFormed
  keyed : c.Keyed

namespace Cache

/-! ### What a move keeps -/

/-- Slots keep their keys, so that entries which were right stay right. -/
theorem Keyed.grow {c d : Cache K V} (keyed : c.Keyed) (grows : c.pool.Grows d.pool)
    (kept : ∀ key id, d.table.get? key = some id → c.table.get? key = some id) : d.Keyed := by
  intro key id found
  obtain ⟨slot, here, same⟩ := keyed key id (kept key id found)
  obtain ⟨later, there, ages⟩ := grows.ages id slot here
  exact ⟨later, there, ages.key.trans same⟩

theorem wellFormed_sweepOut {pool : SlotPool K V} (ids : List SlotId) {table : ShardedMap K}
    (wf : table.WellFormed) : (sweepOut pool ids table).1.WellFormed := by
  induction ids generalizing table with
  | nil => exact wf
  | cons id ids ih =>
    unfold sweepOut
    split
    · exact ih wf
    · exact ih (wf.eraseIfSame _ id)

/-- What a sweep counts is what the table loses. -/
theorem size_sweepOut (pool : SlotPool K V) (ids : List SlotId) {table : ShardedMap K}
    (wf : table.WellFormed) :
    (sweepOut pool ids table).1.size + (sweepOut pool ids table).2 = table.size := by
  induction ids generalizing table with
  | nil => rfl
  | cons id ids ih =>
    rw [sweepOut]
    cases pool.get? id with
    | none => exact ih wf
    | some slot =>
      have erased := wf.size_eraseIfSame slot.key id
      have rest := ih (wf.eraseIfSame slot.key id)
      dsimp only
      cases current : table.isCurrent slot.key id <;> simp [current] at erased ⊢ <;> omega

theorem Consistent.size_sweep {c : Cache K V} (consistent : c.Consistent) :
    c.sweep.1.size + c.sweep.2 = c.size :=
  size_sweepOut c.pool c.pending consistent.table

theorem Consistent.sweep {c : Cache K V} (consistent : c.Consistent) : c.sweep.1.Consistent :=
  ⟨consistent.pins, wellFormed_sweepOut _ consistent.table,
    consistent.keyed.grow (.refl _) fun _ _ found => get?_of_sweepOut found⟩

omit [DecidableEq K] in
theorem counts_detachUnlessPinned {q : PinQueue} {p : SlotPool K V} (counts : q.Counts p)
    (id : SlotId) : q.Counts (p.detachUnlessPinned id).1 := by
  unfold SlotPool.detachUnlessPinned
  split
  · exact counts
  · rename_i slot found
    apply counts.modify id
    intro other same
    rw [found] at same
    cases same
    unfold Slot.detachUnlessPinned
    split <;> rfl

omit [DecidableEq K] in
theorem counts_detachAll {q : PinQueue} {p : SlotPool K V} (counts : q.Counts p)
    (ids : List SlotId) : q.Counts (p.detachAll ids).1 := by
  induction ids generalizing p with
  | nil => exact counts
  | cons id ids ih => exact ih (counts_detachUnlessPinned counts id)

omit [DecidableEq K] in
theorem counts_detach {q : PinQueue} {p : SlotPool K V} (counts : q.Counts p) (id : SlotId) :
    q.Counts (p.detach id).1 := by
  unfold SlotPool.detach
  split
  · exact counts
  · rename_i slot found
    apply counts.modify id
    intro other same
    rw [found] at same
    cases same
    rfl

theorem Consistent.releaseValues {c : Cache K V} (consistent : c.Consistent) (budget : Nat) :
    (c.releaseValues budget).1.Consistent :=
  ⟨counts_detachAll consistent.pins _, consistent.table,
    consistent.keyed.grow (SlotPool.grows_detachAll _ _) fun _ _ found => found⟩

theorem Consistent.releaseValueOf {c : Cache K V} (consistent : c.Consistent) (key : K) :
    (c.releaseValueOf key).1.Consistent := by
  unfold Cache.releaseValueOf
  split
  · exact consistent
  · exact ⟨counts_detach consistent.pins _, consistent.table,
      consistent.keyed.grow (SlotPool.grows_detach _ _) fun _ _ found => found⟩

theorem Consistent.tally {c : Cache K V} (consistent : c.Consistent)
    (count : Counters → Counters) : (c.tally count).Consistent :=
  ⟨consistent.pins, consistent.table, consistent.keyed⟩

theorem Consistent.pin {c : Cache K V} (consistent : c.Consistent) {id : SlotId}
    (made : id < c.pool.nextId) : (c.pin id).Consistent :=
  ⟨consistent.pins.pin made, consistent.table,
    consistent.keyed.grow (PinQueue.grows_pin _ _ id) fun _ _ found => found⟩

theorem Consistent.takeOutSlot {c : Cache K V} (consistent : c.Consistent) (key : K)
    (id : SlotId) : (c.takeOutSlot key id).1.Consistent := by
  refine ⟨consistent.pins, consistent.table.eraseIfSame key id,
    consistent.keyed.grow (.refl _) fun k slot found => ?_⟩
  simp only [Cache.takeOutSlot, ShardedMap.get?_eraseIfSame] at found
  split at found
  · cases found
  · exact found

theorem Consistent.takeOut {c : Cache K V} (consistent : c.Consistent) (key : K) :
    (c.takeOut key).1.Consistent := by
  unfold Cache.takeOut
  split
  · exact consistent
  · refine ⟨consistent.pins, consistent.table.erase key,
      consistent.keyed.grow (.refl _) fun k slot found => ?_⟩
    simp only [Cache.tally, ShardedMap.get?_erase] at found
    split at found
    · cases found
    · exact found

theorem Consistent.lt_nextId {c : Cache K V} (consistent : c.Consistent) {key : K} {id : SlotId}
    (bound : c.table.get? key = some id) : id < c.pool.nextId := by
  obtain ⟨slot, found, _⟩ := consistent.keyed key id bound
  exact SlotPool.lt_nextId found

/-- No slot stands under two keys. -/
theorem Consistent.key_unique {c : Cache K V} (consistent : c.Consistent) {key other : K}
    {id : SlotId} (bound : c.table.get? key = some id) (also : c.table.get? other = some id) :
    key = other := by
  obtain ⟨slot, found, rfl⟩ := consistent.keyed key id bound
  obtain ⟨same, there, rfl⟩ := consistent.keyed other id also
  rw [found] at there
  cases there
  rfl

theorem Consistent.touch {c : Cache K V} (consistent : c.Consistent) (key : K) :
    (c.touch key).1.Consistent := by
  unfold Cache.touch
  split
  · exact consistent.tally _
  · rename_i id bound
    have pinned := consistent.pin (consistent.lt_nextId bound)
    dsimp only
    split
    · exact pinned.tally _
    · exact (pinned.takeOutSlot key id).tally _

/-- A new slot is pinned before it enters the table. -/
theorem Consistent.store {c : Cache K V} (consistent : c.Consistent) (key : K) (value : V) :
    (c.store key value).1.Consistent := by
  have made : Consistent { c with pool := c.pool.add (.fresh key value) } :=
    ⟨consistent.pins.add key value, consistent.table,
      consistent.keyed.grow (c.pool.grows_add _) fun _ _ found => found⟩
  have inside : c.pool.nextId < (c.pool.add (.fresh key value)).nextId := by
    rw [SlotPool.nextId_add]
    exact Nat.lt_succ_self _
  have pinned := made.pin inside
  refine ⟨pinned.pins, consistent.table.insert key _, fun k id found => ?_⟩
  simp only [Cache.store, Cache.tally, ShardedMap.get?_insert] at found
  by_cases equal : k = key
  · rw [if_pos equal] at found
    cases found
    have there : (c.pool.add (.fresh key value)).get? c.pool.nextId = some (.fresh key value) := by
      rw [SlotPool.get?_add, if_pos rfl]
    obtain ⟨later, found, ages⟩ := (PinQueue.grows_pin c.queue _ c.pool.nextId).ages _ _ there
    exact ⟨later, found, ages.key.trans equal.symm⟩
  · rw [if_neg equal] at found
    exact pinned.keyed k id found

theorem Consistent.unpinAll {c : Cache K V} (consistent : c.Consistent) : c.unpinAll.Consistent :=
  ⟨consistent.pins.clear, consistent.table,
    consistent.keyed.grow (PinQueue.grows_clear _ _) fun _ _ found => found⟩

theorem Consistent.dropEntries {c : Cache K V} (consistent : c.Consistent) :
    c.dropEntries.Consistent :=
  ⟨consistent.pins, c.table.wellFormed_clear, fun key id found => by
    simp [Cache.dropEntries] at found⟩

/-- No move makes the parts of a cache disagree. -/
theorem Consistent.effect {c : Cache K V} (consistent : c.Consistent) (m : Move K V)
    (board : PressureBoard) : (m.effect board c).Consistent := by
  cases m with
  | sweep _ => exact consistent.sweep
  | releaseValues _ budget => exact consistent.releaseValues budget
  | releaseValue _ key => exact consistent.releaseValueOf key
  | look _ key => exact consistent.touch key
  | place _ key value => exact consistent.store key value
  | takeOut _ key => exact consistent.takeOut key
  | takeOutSlot _ key slot => exact consistent.takeOutSlot key slot
  | unpinAll _ => exact consistent.unpinAll
  | dropEntries _ => exact consistent.dropEntries
  | _ => exact ⟨consistent.pins, consistent.table, consistent.keyed⟩

/-- A cache as it is built: nothing was stored yet. -/
structure New (config : Config K V) (board : PressureBoard) (c : Cache K V) : Prop where
  pool : c.pool = .empty
  table : ∃ shardCount, c.table = .empty config.hasher shardCount
  queue : PinQueue.create config.pinCapacity = .ok c.queue
  pending : c.pending = []
  counters : c.counters = {}
  consulted : c.consulted = 0
  watch : c.watch = config.signal.map (Watch.start board)
  cleaner : c.cleaner = config.cleaner

omit [DecidableEq K] in
theorem new_assemble {config : Config K V} {board : PressureBoard} {c : Cache K V}
    (made : config.assemble board = .ok c) : New config board c := by
  rw [Config.assemble, ShardedMap.create] at made
  generalize config.shardCount = shardCount at made
  cases room : Panic.reserve shardCount ShardedMap.shardBytes with
  | error p =>
    rw [room] at made
    cases made
  | ok done =>
    cases queued : PinQueue.create config.pinCapacity with
    | error p =>
      rw [room, queued] at made
      cases made
    | ok queue =>
      rw [room, queued] at made
      cases made
      exact ⟨rfl, ⟨shardCount, rfl⟩, queued, rfl, rfl, rfl, rfl, rfl⟩

theorem New.get? {config : Config K V} {board : PressureBoard} {c : Cache K V}
    (new : New config board c) (key : K) :
    c.table.get? key = none := by
  obtain ⟨shardCount, empty⟩ := new.table
  rw [empty, ShardedMap.get?_empty]

theorem New.consistent {config : Config K V} {board : PressureBoard} {c : Cache K V}
    (new : New config board c) : c.Consistent := by
  refine ⟨?_, ?_, ?_⟩
  · rw [new.pool]
    exact .create new.queue
  · obtain ⟨shardCount, empty⟩ := new.table
    rw [empty]
    exact ShardedMap.wellFormed_empty _ _
  · intro key id found
    rw [new.get?] at found
    cases found

/-- Where the parts agree, the check finds nothing. -/
theorem Consistent.check {c : Cache K V} (consistent : c.Consistent) : c.check = .ok () := by
  have bounded : ¬ c.queue.capacity < c.pinned := Nat.not_lt.mpr consistent.pins.bounded
  have right : c.table.toList.any c.misplaced = false := by
    rw [List.any_eq_false]
    rintro ⟨key, id⟩ member
    have bound := (ShardedMap.get?_eq_some_iff consistent.table.toOrdered).mpr member
    obtain ⟨slot, found, same⟩ := consistent.keyed key id bound
    simp [misplaced, found, same]
  have counted : ¬ c.table.toList.length ≠ c.size := not_not_intro consistent.table.counted.symm
  rw [Cache.check, if_neg bounded, consistent.pins.countsMatch, survey_eq, right, if_neg counted]
  rfl

end Cache

/-! ### Hosts and runs -/

/-- The parts of every cache agree. -/
def Host.Consistent (h : Host K V) : Prop :=
  ∀ d cache, h.cache? d = some cache → cache.Consistent

namespace Host

theorem Consistent.make {h : Host K V} (consistent : h.Consistent) (m : Move K V) :
    (m.make h).1.Consistent := by
  intro d cache found
  rcases Move.exists_of_cache?_make m found with ⟨old, there, rfl⟩ | ⟨_, config, _, _, made⟩
  · unfold Move.effectOn
    split
    · exact (consistent d old there).effect m h.board
    · exact consistent d old there
  · exact (Cache.new_assemble made).consistent

theorem Consistent.setCache {h : Host K V} (consistent : h.Consistent) {c : CacheId}
    {old cache : Cache K V} (found : h.cache? c = some old) (new : cache.Consistent) :
    (h.setCache c cache).Consistent := by
  intro d other there
  rw [cache?_setCache found] at there
  split at there
  · cases there
    exact new
  · exact consistent d other there

theorem consistent_empty (board : PressureBoard) : (empty board : Host K V).Consistent := by
  intro d cache found
  simp [empty, cache?] at found

/-- Nothing that is done to a host makes the parts of a cache disagree, not even for a moment. -/
theorem Consistent.work {α : Type} {h : Host K V} (consistent : h.Consistent)
    (w : Work K V α) : (∀ s ∈ w.steps h, s.before.Consistent) ∧ (w.run h).1.Consistent :=
  w.invariant (fun m _ holds => holds.make m) consistent

end Host

namespace Session

variable [BEq V]

/-- At all points of time of a run the parts of every cache agree. -/
theorem consistent_states (limit : Nat) (board : PressureBoard) (acts : List (Act K V)) :
    ∀ h ∈ (empty board : Session K V).states limit acts, h.Consistent := by
  have throughout := (Host.consistent_empty (K := K) (V := V) board).work
    (Act.workAll limit ([] : Cursors K) acts)
  intro h seen
  rcases List.mem_append.mp seen with seen | seen
  · obtain ⟨s, member, rfl⟩ := List.mem_map.mp seen
    exact throughout.1 s member
  · rw [List.mem_singleton] at seen
    exact seen ▸ throughout.2

/-- Wherever code of a caller can look, between calls or however deep in a cleaner, the queue is not
    too long, the pins of every slot are its places in the queue, each entry leads to a slot of its
    key and stands in the shard of the key and nowhere else, entries are counted, and the check
    succeeds. -/
theorem consistent_throughout (limit : Nat) (board : PressureBoard) (acts : List (Act K V))
    (h : Host K V) (seen : h ∈ (empty board).states limit acts) (d : CacheId)
    (cache : Cache K V) (found : h.cache? d = some cache) :
    cache.pinned ≤ cache.queue.capacity ∧
      (∀ id, (cache.pool.pins id).toNat = cache.queue.ids.count id) ∧
      (∀ i key id, (key, id) ∈ cache.table.shardEntries i →
        (∃ slot, cache.pool.get? id = some slot ∧ slot.key = key) ∧
        cache.table.shardIndex key = i ∧
        ((cache.table.shardEntries i).map Prod.fst).count key = 1) ∧
      cache.size = cache.table.toList.length ∧
      cache.check = .ok () := by
  have consistent := consistent_states limit board acts h seen d cache found
  refine ⟨consistent.pins.bounded, consistent.pins.pins_eq, fun i key id member => ?_,
    consistent.table.counted, consistent.check⟩
  have ordered := consistent.table.toOrdered
  obtain ⟨shard, there, inside⟩ := ShardedMap.mem_shardEntries.mp member
  refine ⟨consistent.keyed key id ?_, ordered.placed i shard there _ inside,
    List.count_eq_one_of_mem (ShardedMap.nodup_shardEntries_keys ordered i)
      (List.mem_map_of_mem member)⟩
  have listed := ShardedMap.mem_toList.mpr ⟨i, shard, there, inside⟩
  exact (ShardedMap.get?_eq_some_iff ordered).mpr listed

end Session

end

/-- A cache of one pin. Its cleaner stores each value again in the first cache, one larger, releases
    what it can there, looks the key up, and fails. -/
def Config.restoring : Config UInt64 Nat where
  pinCapacity := 1
  shards := some 2
  hasher := .standard
  cleaner := some {
    callbacks := fun call =>
      .inTurn 0 [.insert call.key (call.value + 1), .releaseUnpinned, .get call.key] ()
    verdict := fun _ => .failed (.cleanup "refused") }
  policy := .manual
  signal := none

/-- Two such caches; releasing a value of the second one also releases what the first one holds. -/
def restoringActs : List (Act UInt64 Nat) :=
  [.build .restoring, .build .restoring, .on 0 (.request (.insert 1 10)),
    .on 0 (.request (.get 1)), .on 1 (.request (.insert 2 20)), .on 1 (.request (.reclaim 2))]

/-- Inside the third of three nested calls of cleaners. -/
theorem consistent_in_nested_cleaner :
    ∃ h ∈ (Session.empty .empty).states 2 restoringActs, ∃ cache, h.active = 3 ∧
      h.cache? 0 = some cache ∧ cache.pinned ≤ cache.queue.capacity ∧
      (∀ id, (cache.pool.pins id).toNat = cache.queue.ids.count id) ∧ cache.check = .ok () := by
  have facts : ((Session.empty .empty).states 2 restoringActs)[43]?.map (fun h =>
      (h.active, (h.cache? 0).isSome)) = some (3, true) := by decide +kernel
  obtain ⟨h, there, shown⟩ := Option.map_eq_some_iff.mp facts
  obtain ⟨active, present⟩ := Prod.mk.inj shown
  obtain ⟨cache, found⟩ := Option.isSome_iff_exists.mp present
  have seen := List.mem_of_getElem? there
  obtain ⟨bounded, pins, _, _, checked⟩ :=
    Session.consistent_throughout 2 .empty restoringActs h seen 0 cache found
  exact ⟨h, seen, cache, active, found, bounded, pins, checked⟩

end ReclaimableCache
