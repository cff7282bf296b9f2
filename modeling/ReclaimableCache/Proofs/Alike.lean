import ReclaimableCache.Proofs.Quiescence

/-!
# Caches that are alike

Two caches are alike if they differ only in their shards, and so in the order of their entries and of
the slots that wait to be swept out, and in what the first one has behind it: slots that it made and
no longer leads to, and what it counted by then. Whatever is done to both of them, they stay alike and
give the same answers, up to the order of what is listed. Only a pass that has to choose between
values could tell them apart. Two hosts are alike if they have the same signals, some of their caches
are alike, and the others are the same.
-/

namespace ReclaimableCache

variable {K V α β : Type}

/-- Related options are both there or both not. -/
theorem rel_cases {R : α → β → Prop} {a : Option α} {b : Option β} (related : Option.Rel R a b) :
    (a = none ∧ b = none) ∨ ∃ x y, a = some x ∧ b = some y ∧ R x y := by
  cases related with
  | none => exact .inl ⟨rfl, rfl⟩
  | some same => exact .inr ⟨_, _, rfl, rfl, same⟩

/-! ### What is counted on top -/

namespace Counters

/-- Counters that went on from others. -/
def onTop (n before : Counters) : Counters where
  hits := before.hits + n.hits
  misses := before.misses + n.misses
  newInserts := before.newInserts + n.newInserts
  updates := before.updates + n.updates
  removals := before.removals + n.removals
  reclaimed := before.reclaimed + n.reclaimed
  evicted := before.evicted + n.evicted
  swept := before.swept + n.swept
  cleanerFailures := before.cleanerFailures + n.cleanerFailures
  pressureEvents := before.pressureEvents + n.pressureEvents

@[simp] theorem onTop_nothing (n : Counters) : n.onTop {} = n := by simp [onTop]

@[simp] theorem nothing_onTop (before : Counters) : Counters.onTop {} before = before := by
  simp [onTop]

/-- What is counted adds to what was counted before. -/
def Adds (count : Counters → Counters) : Prop :=
  ∀ n before, count (n.onTop before) = (count n).onTop before

/-- Each way of counting adds to what was counted before, whatever that is. -/
theorem adds_hit : Adds hit := fun n before => by simp [hit, onTop, UInt64.add_assoc]

theorem adds_miss : Adds miss := fun n before => by simp [miss, onTop, UInt64.add_assoc]

theorem adds_newInsert : Adds newInsert := fun n before => by
  simp [newInsert, onTop, UInt64.add_assoc]

theorem adds_update : Adds update := fun n before => by simp [update, onTop, UInt64.add_assoc]

theorem adds_remove : Adds remove := fun n before => by simp [remove, onTop, UInt64.add_assoc]

theorem adds_sweep (swept : UInt64) : Adds fun n => n.sweep swept := fun n before => by
  simp [sweep, onTop, UInt64.add_assoc]

theorem adds_pressureEvent : Adds pressureEvent := fun n before => by
  simp [pressureEvent, onTop, UInt64.add_assoc]

theorem adds_closePass (released failures : UInt64) :
    Adds fun n => (n.evict released).cleanerFailure failures := fun n before => by
  simp [evict, cleanerFailure, onTop, UInt64.add_assoc]

theorem adds_countReclaim (failures : UInt64) :
    Adds fun n => n.reclaim.cleanerFailure failures := fun n before => by
  simp [reclaim, cleanerFailure, onTop, UInt64.add_assoc]

end Counters

/-- Snapshots of which the counters went on from others. -/
def Snapshot.onTop (s : Snapshot) (before : Counters) : Snapshot :=
  { s with toCounters := s.toCounters.onTop before }

@[simp] theorem Snapshot.onTop_nothing (s : Snapshot) : s.onTop {} = s := by
  rw [onTop, Counters.onTop_nothing]

/-- What a cache has behind it: the slots that it made first, and what it counted by then. -/
structure Past where
  slots : Nat
  counters : Counters

/-- What a cache has behind it that was just built. -/
def Past.blank : Past := ⟨0, {}⟩

/-! ### Slots behind others -/

/-- The victim of which the slot is so many places further on. -/
def Victim.behind (n : Nat) (v : Victim K V) : Victim K V := { v with id := n + v.id }

namespace SlotPool

/-- What can be released in a slot. -/
def victim? (p : SlotPool K V) (id : SlotId) : Option (Victim K V) :=
  (p.get? id).map fun slot => ⟨id, slot.key, slot.content⟩

/-- Victims are settled by their slots. -/
theorem Releases.filterMap_victim? {p q : SlotPool K V} {vs : List (Victim K V)}
    (releases : p.Releases q vs) : (vs.map Victim.id).filterMap p.victim? = vs := by
  have were : ∀ v ∈ vs, p.victim? v.id = some v := by
    intro v member
    obtain ⟨slot, found, key, value, _⟩ := releases.were v member
    rw [victim?, found, Option.map_some, key, value]
  rw [List.filterMap_map]
  exact (List.filterMap_congr were).trans List.filterMap_some

/-- The slots of the second pool are those of the first one behind the first `n`. -/
structure Trails (n : Nat) (p q : SlotPool K V) : Prop where
  get? : ∀ id, p.get? (n + id) = q.get? id
  nextId : p.nextId = n + q.nextId

namespace Trails

variable {n : Nat} {p q : SlotPool K V} (trails : p.Trails n q)

include trails

/-- A slot behind others holds what its twin holds. -/
theorem value? (id : SlotId) : p.value? (n + id) = q.value? id := by
  rw [SlotPool.value?, SlotPool.value?, trails.get?]

theorem isLive (id : SlotId) : p.isLive (n + id) = q.isLive id := by
  rw [SlotPool.isLive, SlotPool.isLive, trails.value?]

theorem evictable (id : SlotId) : p.evictable (n + id) = q.evictable id := by
  rw [SlotPool.evictable, SlotPool.evictable, trails.get?]

theorem victim? (id : SlotId) : p.victim? (n + id) = (q.victim? id).map (Victim.behind n) := by
  rw [SlotPool.victim?, SlotPool.victim?, trails.get?, Option.map_map]
  rfl

/-- A new slot comes behind the others as well. -/
theorem add (slot : Slot K V) : (p.add slot).Trails n (q.add slot) := by
  refine ⟨fun id => ?_, ?_⟩
  · rw [get?_add, get?_add, trails.nextId, trails.get?]
    simp only [Nat.add_left_cancel_iff]
  · rw [nextId_add, nextId_add, trails.nextId, Nat.add_assoc]

/-- What is done to the slot behind is done to its twin. -/
theorem modify (i : SlotId) (f : Slot K V → Slot K V) :
    (p.modify (n + i) f).Trails n (q.modify i f) := by
  refine ⟨fun id => ?_, ?_⟩
  · rw [get?_modify, get?_modify, trails.get?]
    simp only [Nat.add_left_cancel_iff]
  · rw [nextId_modify, nextId_modify, trails.nextId]

theorem detach (id : SlotId) :
    (p.detach (n + id)).1.Trails n (q.detach id).1 ∧
      (p.detach (n + id)).2 = (q.detach id).2.map (Victim.behind n) := by
  rw [SlotPool.detach, SlotPool.detach, trails.get?]
  cases q.get? id with
  | none => exact ⟨trails, rfl⟩
  | some slot => exact ⟨trails.modify id _, by rw [Option.map_map]; rfl⟩

/-- Pins are taken off in the same order. -/
theorem foldl_dropPin (ids : List SlotId) :
    ((ids.map (n + ·)).foldl dropPin p).Trails n (ids.foldl dropPin q) := by
  induction ids generalizing p q with
  | nil => exact trails
  | cons id ids ih => exact ih (trails.modify id Slot.dropPin)

/-- Where the same slots are released, pools go on behind each other, and the victims are the same. -/
theorem releases {p' q' : SlotPool K V} {vs ws : List (Victim K V)} (first : p.Releases p' vs)
    (second : q.Releases q' ws) (ids : ((ws.map Victim.id).map (n + ·)).Perm (vs.map Victim.id)) :
    p'.Trails n q' ∧ (ws.map (Victim.behind n)).Perm vs := by
  refine ⟨⟨fun id => ?_, ?_⟩, ?_⟩
  · have released : n + id ∈ vs.map Victim.id ↔ id ∈ ws.map Victim.id := by
      rw [← ids.mem_iff, List.mem_map_of_injective (fun _ _ => Nat.add_left_cancel)]
    rw [first.get?, second.get?, trails.get?]
    simp only [released]
  · rw [first.nextId, second.nextId, trails.nextId]
  · have victims : ((ws.map Victim.id).map (n + ·)).filterMap p.victim? =
        ws.map (Victim.behind n) := by
      have shown := second.filterMap_victim?
      rw [List.filterMap_map]
      conv_rhs => rw [← shown, List.map_filterMap]
      exact List.filterMap_congr fun id _ => trails.victim? id
    rw [← victims, ← first.filterMap_victim?]
    exact ids.filterMap _

end Trails

end SlotPool

namespace PinQueue

/-- The queue of which the slots are so many places further on. -/
def behind (n : Nat) (q : PinQueue) : PinQueue := { q with ids := q.ids.map (n + ·) }

variable {n : Nat} {p q : SlotPool K V} (trails : p.Trails n q) (queue : PinQueue)

include trails

/-- The oldest pin is that of the twin. -/
theorem behind_trim : ((queue.behind n).trim p).1 = (queue.trim q).1.behind n ∧
    ((queue.behind n).trim p).2.Trails n (queue.trim q).2 := by
  have length : (queue.behind n).length = queue.length := List.length_map _
  have room : (queue.behind n).capacity = queue.capacity := rfl
  have places : (queue.behind n).ids = queue.ids.map (n + ·) := rfl
  rw [trim, trim, length, room, places]
  by_cases long : queue.capacity < queue.length
  · rw [if_pos long, if_pos long]
    cases queue.ids with
    | nil => exact ⟨rfl, trails⟩
    | cons oldest ids => exact ⟨rfl, trails.modify oldest Slot.dropPin⟩
  · rw [if_neg long, if_neg long]
    exact ⟨rfl, trails⟩

/-- Queues behave the same with larger numbers. -/
theorem behind_pin (id : SlotId) :
    ((queue.behind n).pin p (n + id)).1 = (queue.pin q id).1.behind n ∧
      ((queue.behind n).pin p (n + id)).2.Trails n (queue.pin q id).2 := by
  have added : (queue.behind n).ids ++ [n + id] = (queue.ids ++ [id]).map (n + ·) := by
    rw [List.map_append]
    rfl
  have trimmed := behind_trim (trails.modify id Slot.addPin) { queue with ids := queue.ids ++ [id] }
  have room : (queue.behind n).capacity = queue.capacity := rfl
  rw [pin, pin, added, room]
  by_cases none : queue.capacity = 0
  · rw [if_pos none, if_pos none]
    exact ⟨rfl, trails⟩
  · rw [if_neg none, if_neg none]
    exact trimmed

end PinQueue

section

variable [DecidableEq K]

/-! ### Tables that are alike -/

namespace ShardedMap

/-- Both tables bind the same keys, and the slots of the first one are so many places further on. -/
def Trails (n : Nat) (m l : ShardedMap K) : Prop := ∀ key, m.get? key = (l.get? key).map (n + ·)

namespace Trails

variable {n : Nat} {m l : ShardedMap K} (trails : m.Trails n l)

include trails

/-- An entry leads to the slot behind if its twin leads to the twin. -/
theorem eq_some_iff (key : K) (id : SlotId) : m.get? key = some (n + id) ↔ l.get? key = some id := by
  rw [trails key]
  cases l.get? key <;> simp

theorem isCurrent (key : K) (id : SlotId) : m.isCurrent key (n + id) = l.isCurrent key id :=
  Bool.eq_iff_iff.mpr ((isCurrent_iff ..).trans ((trails.eq_some_iff key id).trans
    (isCurrent_iff ..).symm))

theorem insert (key : K) (id : SlotId) : (m.insert key (n + id)).Trails n (l.insert key id) := by
  intro k
  rw [get?_insert, get?_insert, trails k]
  split <;> rfl

theorem erase (key : K) : (m.erase key).Trails n (l.erase key) := by
  intro k
  rw [get?_erase, get?_erase, trails k]
  split <;> rfl

/-- Whether an entry is still installed is the same for its twin. -/
theorem eraseIfSame (key : K) (id : SlotId) :
    (m.eraseIfSame key (n + id)).Trails n (l.eraseIfSame key id) := by
  rw [ShardedMap.eraseIfSame, ShardedMap.eraseIfSame, trails.isCurrent]
  split
  · exact trails.erase key
  · exact trails

omit trails in
theorem clear : m.clear.Trails n l.clear := by
  intro key
  rw [get?_clear, get?_clear]
  rfl

/-- Tables with the same bindings list the same entries. -/
theorem toList_perm (ordered : m.Ordered) (also : l.Ordered) :
    (l.toList.map fun e => (e.1, n + e.2)).Perm m.toList := by
  have injective : Function.Injective fun e : K × SlotId => (e.1, n + e.2) := by
    rintro ⟨key, id⟩ ⟨k, i⟩ same
    simpa using same
  refine (List.perm_ext_iff_of_nodup ((nodup_toList also).map injective)
    (nodup_toList ordered)).mpr ?_
  rintro ⟨key, id⟩
  rw [← get?_eq_some_iff ordered, trails key, Option.map_eq_some_iff, List.mem_map]
  constructor
  · rintro ⟨⟨k, i⟩, listed, same⟩
    cases same
    exact ⟨i, (get?_eq_some_iff also).mpr listed, rfl⟩
  · rintro ⟨i, bound, rfl⟩
    exact ⟨(key, i), (get?_eq_some_iff also).mp bound, rfl⟩

/-- Equally many keys are installed, in whatever order. -/
theorem size (wf : m.WellFormed) (also : l.WellFormed) : l.size = m.size := by
  rw [wf.counted, also.counted, ← (trails.toList_perm wf.toOrdered also.toOrdered).length_eq,
    List.length_map]

end Trails

end ShardedMap

/-! ### Caches -/

namespace Cache

/-- A pass that may release as many values as there are chooses every slot that it can. -/
theorem Consistent.perm_candidates {c : Cache K V} (consistent : c.Consistent) {budget : Nat}
    (room : c.size ≤ budget) (start : Nat) :
    (c.candidates budget start).Perm ((c.table.toList.map Prod.snd).filter c.pool.evictable) := by
  have walked := c.table.perm_slotsFrom start
  have few : ((c.table.slotsFrom start).filter c.pool.evictable).length ≤ budget := by
    refine (List.length_filter_le _ _).trans ?_
    rw [walked.length_eq, List.length_map, ← consistent.table.counted]
    exact room
  rw [candidates_eq, List.take_of_length_le few]
  exact walked.filter _

/-- The second cache is the first one with its entries in other shards, and has no past. -/
structure Alike (past : Past) (c d : Cache K V) : Prop where
  pool : c.pool.Trails past.slots d.pool
  table : c.table.Trails past.slots d.table
  queue : c.queue = d.queue.behind past.slots
  pending : (d.pending.map (past.slots + ·)).Perm c.pending
  counters : c.counters = d.counters.onTop past.counters
  policy : d.policy = c.policy
  watch : d.watch = c.watch
  cleaner : d.cleaner = c.cleaner

namespace Alike

variable {past : Past} {c d : Cache K V} (alike : c.Alike past d)

include alike

/-! ### What they answer -/

/-- Both caches answer the same. -/
theorem peek (key : K) : d.peek key = c.peek key := by
  rw [Cache.peek, Cache.peek, alike.table key]
  cases d.table.get? key with
  | none => rfl
  | some id => exact (alike.pool.value? id).symm

theorem containsKey (key : K) : d.containsKey key = c.containsKey key := by
  rw [Cache.containsKey, Cache.containsKey, alike.table key]
  cases d.table.get? key with
  | none => rfl
  | some id => exact (alike.pool.isLive id).symm

theorem containsEntry [BEq V] (key : K) (value : V) :
    d.containsEntry key value = c.containsEntry key value := by
  rw [Cache.containsEntry, Cache.containsEntry, alike.peek]

theorem length_pending : d.pending.length = c.pending.length := by
  rw [← alike.pending.length_eq, List.length_map]

theorem pinned : d.pinned = c.pinned := by
  rw [Cache.pinned, Cache.pinned, alike.queue, PinQueue.length, PinQueue.length, PinQueue.behind,
    List.length_map]

theorem slotHolding? [BEq V] (key : K) (value : V) :
    c.slotHolding? key value = (d.slotHolding? key value).map (past.slots + ·) := by
  rw [Cache.slotHolding?, Cache.slotHolding?, alike.table key]
  cases d.table.get? key with
  | none => rfl
  | some id =>
    rw [Option.map_some, Option.filter_some, Option.filter_some, alike.pool.value?]
    split <;> rfl

section

variable (consistent : c.Consistent) (also : d.Consistent)

include consistent also

/-- Both tables have the same entries, in some order. -/
theorem perm_entries : (d.table.toList.map fun e => (e.1, past.slots + e.2)).Perm c.table.toList :=
  alike.table.toList_perm consistent.table.toOrdered also.table.toOrdered

theorem size : d.size = c.size := alike.table.size consistent.table also.table

theorem toList : d.toList.Perm c.toList := by
  have entries := (alike.perm_entries consistent also).filterMap c.liveEntry?
  rw [List.filterMap_map] at entries
  have live : (c.liveEntry? ∘ fun e => (e.1, past.slots + e.2)) = d.liveEntry? := by
    funext e
    rw [Function.comp_apply, liveEntry?, liveEntry?, alike.pool.value?]
  rwa [live] at entries

theorem containsValue [BEq V] (value : V) : d.containsValue value = c.containsValue value :=
  (alike.toList consistent also).any_eq

/-- What was counted before is on top. -/
theorem snapshot : c.snapshot = d.snapshot.onTop past.counters := by
  rw [Cache.snapshot, Cache.snapshot, alike.counters, ← alike.size consistent also, ← alike.pinned,
    alike.queue]
  rfl

theorem usage (board : PressureBoard) : d.usage board = c.usage board := by
  rw [Cache.usage, Cache.usage, alike.size consistent also, alike.queue, alike.watch]
  rfl

/-- Caches are compared as maps. -/
theorem sameEntries [BEq V] {a b : Cache K V} (entries : b.toList.Perm a.toList)
    (peek : b.peek = a.peek) : d.sameEntries b = c.sameEntries a := by
  have contained : (fun e : K × V => b.containsEntry e.1 e.2) =
      fun e => a.containsEntry e.1 e.2 := by
    funext e
    rw [Cache.containsEntry, Cache.containsEntry, peek]
  have lists := alike.toList consistent also
  rw [Cache.sameEntries, Cache.sameEntries, contained, lists.length_eq, lists.all_eq,
    entries.length_eq]

end

/-! ### What is done to them -/

/-- What is counted comes on top of what was counted before. -/
theorem tally {count : Counters → Counters} (adds : Counters.Adds count) :
    (c.tally count).Alike past (d.tally count) := by
  refine { alike with counters := ?_ }
  rw [Cache.tally, alike.counters]
  exact adds _ _

theorem pin (id : SlotId) : (c.pin (past.slots + id)).Alike past (d.pin id) := by
  have pinned := d.queue.behind_pin alike.pool id
  rw [← alike.queue] at pinned
  exact { alike with queue := pinned.1, pool := pinned.2 }

/-- Both queues are emptied. -/
theorem unpinAll : c.unpinAll.Alike past d.unpinAll := by
  have unpinned := alike.pool.foldl_dropPin d.queue.ids
  refine { alike with pool := ?_, queue := ?_ }
  · rw [Cache.unpinAll, alike.queue]
    exact unpinned
  · rw [Cache.unpinAll, alike.queue]
    rfl

theorem dropEntries : c.dropEntries.Alike past d.dropEntries := { alike with table := .clear }

theorem enqueue (id : SlotId) : (c.enqueue (past.slots + id)).Alike past (d.enqueue id) := by
  refine { alike with pending := ?_ }
  rw [Cache.enqueue, List.map_append]
  exact alike.pending.append_right _

/-- Caches stay alike when their tables change in the same way, whatever then waits in line. -/
theorem with_table {m l : ShardedMap K} {ids slots : List SlotId} (table : m.Trails past.slots l)
    (waiting : (slots.map (past.slots + ·)).Perm ids) :
    ({ c with table := m, pending := ids } : Cache K V).Alike past
      { d with table := l, pending := slots } :=
  { alike with table := table, pending := waiting }

/-- Caches stay alike when their pools change in the same way. -/
theorem with_pool {p q : SlotPool K V} (pool : p.Trails past.slots q) (i j : UInt64) :
    ({ c with pool := p, passes := i } : Cache K V).Alike past { d with pool := q, passes := j } :=
  { alike with pool := pool }

/-- Both policies are told the same, since both sizes are. -/
theorem consult (consistent : c.Consistent) (also : d.Consistent) (board : PressureBoard) :
    (c.consult board).Alike past (d.consult board) := by
  refine { alike with counters := ?_, watch := ?_ }
  · rw [Cache.consult, Cache.consult, alike.usage consistent also board]
    dsimp only
    rw [alike.counters]
    split
    · exact Counters.adds_pressureEvent _ _
    · rfl
  · rw [Cache.consult, Cache.consult, alike.watch]

/-- A look-up finds the same, dead or alive. -/
theorem touch (key : K) :
    (c.touch key).1.Alike past (d.touch key).1 ∧ (d.touch key).2 = (c.touch key).2 := by
  rw [Cache.touch, Cache.touch, alike.table key]
  cases d.table.get? key with
  | none => exact ⟨alike.tally Counters.adds_miss, rfl⟩
  | some id =>
    dsimp only [Option.map_some]
    rw [(alike.pin id).pool.value? id]
    cases (d.pin id).pool.value? id with
    | some value => exact ⟨(alike.pin id).tally Counters.adds_hit, rfl⟩
    | none =>
      have erased := alike.table.eraseIfSame key id
      exact ⟨((alike.pin id).with_table erased alike.pending).tally Counters.adds_miss, rfl⟩

/-- The new slots are twins. -/
theorem store (key : K) (value : V) :
    (c.store key value).1.Alike past (d.store key value).1 ∧
      (d.store key value).2 = (c.store key value).2 := by
  have made := alike.with_pool (alike.pool.add (.fresh key value)) c.passes d.passes
  have pinned := made.pin d.pool.nextId
  have inserted := alike.table.insert key d.pool.nextId
  rw [Cache.store, Cache.store, alike.table key, alike.pool.nextId]
  refine ⟨?_, ?_⟩
  · rw [Option.isSome_map]
    refine (pinned.with_table inserted alike.pending).tally ?_
    split
    · exact Counters.adds_update
    · exact Counters.adds_newInsert
  · cases d.table.get? key with
    | none => rfl
    | some id => exact (pinned.pool.value? id).symm

/-- The same value is taken out. -/
theorem takeOut (key : K) :
    (c.takeOut key).1.Alike past (d.takeOut key).1 ∧ (d.takeOut key).2 = (c.takeOut key).2 := by
  rw [Cache.takeOut, Cache.takeOut, alike.table key]
  cases d.table.get? key with
  | none => exact ⟨alike, rfl⟩
  | some id =>
    exact ⟨(alike.with_table (alike.table.erase key) alike.pending).tally Counters.adds_remove,
      (alike.pool.value? id).symm⟩

theorem takeOutSlot (key : K) (id : SlotId) :
    (c.takeOutSlot key (past.slots + id)).1.Alike past (d.takeOutSlot key id).1 ∧
      (d.takeOutSlot key id).2 = (c.takeOutSlot key (past.slots + id)).2 :=
  ⟨alike.with_table (alike.table.eraseIfSame key id) alike.pending,
    (alike.table.isCurrent key id).symm⟩

/-- The value that is released is that of the twin. -/
theorem releaseValueOf (key : K) :
    (c.releaseValueOf key).1.Alike past (d.releaseValueOf key).1 ∧
      (c.releaseValueOf key).2 = (d.releaseValueOf key).2.map (Victim.behind past.slots) := by
  rw [Cache.releaseValueOf, Cache.releaseValueOf, alike.table key]
  cases d.table.get? key with
  | none => exact ⟨alike, rfl⟩
  | some id =>
    have detached := alike.pool.detach id
    exact ⟨{ alike with pool := detached.1 }, detached.2⟩

variable (consistent : c.Consistent) (also : d.Consistent)

include consistent also

/-- Both queues hold twins, so that the same entries are swept out. -/
theorem sweep : c.sweep.1.Alike past d.sweep.1 ∧ d.sweep.2 = c.sweep.2 := by
  have waits : ∀ id, past.slots + id ∈ c.pending ↔ id ∈ d.pending := by
    intro id
    rw [← alike.pending.mem_iff, List.mem_map_of_injective (fun _ _ => Nat.add_left_cancel)]
  have same : c.sweep.1.table.Trails past.slots d.sweep.1.table := by
    intro key
    rw [consistent.get?_sweep, also.get?_sweep, alike.table key]
    cases d.table.get? key with
    | none => rfl
    | some id =>
      rw [Option.map_some, Option.filter_some, Option.filter_some]
      simp only [List.contains_eq_mem, waits]
      split <;> rfl
  -- The slots are swept out in different orders, but as many entries go as the table loses.
  have left := same.size consistent.sweep.table also.sweep.table
  have lost : (sweepOut d.pool d.pending d.table).2 = (sweepOut c.pool c.pending c.table).2 := by
    have size := alike.size consistent also
    have here := consistent.size_sweep
    have there := also.size_sweep
    simp only [Cache.sweep, Cache.tally, Cache.size] at left size here there
    omega
  have none : (([] : List SlotId).map (past.slots + ·)).Perm [] := List.Perm.refl []
  have swept := (alike.with_table same none).tally
    (Counters.adds_sweep (sweepOut c.pool c.pending c.table).2.toUInt64)
  rw [Cache.sweep, Cache.sweep, lost]
  exact ⟨swept, rfl⟩

/-- A pass that releases as many values as there are. -/
theorem releaseValues (room : c.size ≤ Policy.unlimited) :
    (c.releaseValues Policy.unlimited).1.Alike past (d.releaseValues Policy.unlimited).1 ∧
      ((d.releaseValues Policy.unlimited).2.map (Victim.behind past.slots)).Perm
        (c.releaseValues Policy.unlimited).2 := by
  have entries := (alike.perm_entries consistent also).map Prod.snd
  have ids : (((d.releaseValues Policy.unlimited).2.map Victim.id).map (past.slots + ·)).Perm
      ((c.releaseValues Policy.unlimited).2.map Victim.id) := by
    rw [consistent.ids_releaseValues, also.ids_releaseValues]
    have chosen := (also.perm_candidates ((alike.size consistent also).trans_le room)
      d.startShard).map (past.slots + ·)
    refine chosen.trans (List.Perm.trans ?_ (consistent.perm_candidates room _).symm)
    have ready : c.pool.evictable ∘ (past.slots + ·) = d.pool.evictable :=
      funext alike.pool.evictable
    rw [← ready, ← List.filter_map]
    refine List.Perm.filter _ ?_
    rw [List.map_map] at entries ⊢
    exact entries
  have released := alike.pool.releases (Cache.releases_releaseValues c Policy.unlimited)
    (Cache.releases_releaseValues d Policy.unlimited) ids
  exact ⟨alike.with_pool released.1 _ _, released.2⟩

end Alike

end Cache

end

/-! ### Hosts that are alike -/

/-- The cleaner makes no requests, so that it is quiet and reticent, and how a call of it ends depends on
    the key and the value alone. -/
structure Cleaner.Plain (cleaner : Cleaner K V) : Prop where
  silent : cleaner.Only fun _ => false
  verdict : ∀ call other, other.key = call.key → other.value = call.value →
    cleaner.verdict other = cleaner.verdict call

/-- A plain cleaner does nothing else than to return. -/
theorem Cleaner.Plain.callbacks {cleaner : Cleaner K V} (plain : cleaner.Plain)
    (call : Cleaning K V) : cleaner.callbacks call = .done () := by
  have silent := plain.silent call
  cases made : cleaner.callbacks call with
  | done result => rfl
  | ask c request next =>
    rw [made] at silent
    cases silent.1

/-- A cache of which a drain releases all values that it may or none, with a plain cleaner. -/
structure Cache.Plain (c : Cache K V) : Prop where
  policy : c.policy = .onPressure ∨ c.policy = .manual
  cleaner : ∀ cleaner, c.cleaner = some cleaner → cleaner.Plain

/-- The shards of a configuration can be made. -/
def Config.Sharded (c : Config K V) : Prop :=
  c.shards ≠ some 0 ∧
    Panic.reserve c.shardCount ShardedMap.shardBytes = .ok ()

/-- The second configuration is the first one, of a plain cache, with other shards. -/
structure Config.Alike (c d : Config K V) : Prop where
  rest : d = { c with shards := d.shards, hasher := d.hasher, threads := d.threads }
  policy : c.policy = .onPressure ∨ c.policy = .manual
  cleaner : ∀ cleaner, c.cleaner = some cleaner → cleaner.Plain
  sharded : c.Sharded
  also : d.Sharded

/-- The caches of a host have no more entries than a budget can ask for. -/
def Host.Countable (h : Host K V) : Prop :=
  ∀ c cache, h.cache? c = some cache → cache.size ≤ Policy.unlimited

/-- How many slots there are behind those of a cache. A cache that is compared with itself has
    none. -/
def Past.before (past : Option Past) : Nat := past.elim 0 Past.slots

theorem Victim.behind_zero (v : Victim K V) : v.behind 0 = v := by rw [behind, Nat.zero_add]

section

variable [DecidableEq K]

/-- Caches that are alike where the first one may have a past, and the same elsewhere. -/
def Cache.Kin : Option Past → Cache K V → Cache K V → Prop
  | none, c, d => d = c
  | some past, c, d => c.Alike past d

/-- The second host is the first one in which some caches have no past, and their entries are in
    other shards. -/
structure Host.Alike (past : CacheId → Option Past) (h g : Host K V) : Prop where
  aside : g.aside = h.aside
  nextCache : g.nextCache = h.nextCache
  consistent : h.Consistent
  also : g.Consistent
  plain : ∀ c cache, (past c).isSome → h.cache? c = some cache → cache.Plain
  caches : ∀ c, Option.Rel (Cache.Kin (past c)) (h.cache? c) (g.cache? c)

/-- The moves that do the same on hosts that are alike and name no slots. -/
def Move.even : Move K V → Bool
  | view | build _ | releaseValues .. | releaseValue .. | enterCleaner .. | leaveCleaner ..
  | enqueue .. | takeOutSlot .. => false
  | _ => true

omit [DecidableEq K] in
/-- What a plain cache is asked to release. -/
theorem Cache.Plain.budget {c : Cache K V} (plain : c.Plain) (usage : Usage) :
    c.budget usage = 0 ∨ c.budget usage = Policy.unlimited := by
  rcases plain.policy with policy | policy <;> rw [Cache.budget, policy, Policy.budget]
  · split
    · exact .inr rfl
    · exact .inl rfl
  · exact .inl rfl

omit [DecidableEq K] in
/-- It does not matter how often the policy of a plain cache was asked before. -/
theorem Cache.Plain.budget_congr {c d : Cache K V} (plain : c.Plain) (same : d.policy = c.policy)
    (usage : Usage) : d.budget usage = c.budget usage := by
  rw [Cache.budget, Cache.budget, same]
  rcases plain.policy with policy | policy <;> rw [policy] <;> rfl

/-- A cache stays plain. -/
theorem Cache.Plain.grow {c d : Cache K V} (plain : c.Plain) (grows : c.Grows d) : d.Plain :=
  ⟨grows.policy ▸ plain.policy, grows.cleaner ▸ plain.cleaner⟩

theorem Cache.Plain.twin {past : Past} {c d : Cache K V} (plain : c.Plain)
    (alike : c.Alike past d) : d.Plain :=
  ⟨alike.policy ▸ plain.policy, alike.cleaner ▸ plain.cleaner⟩

omit [DecidableEq K] in
theorem Host.cache?_of_caches {h h' : Host K V} (caches : h'.caches = h.caches) :
    h'.cache? = h.cache? := by
  funext c
  rw [cache?, caches, cache?]

namespace Cache

/-- An even move does the same to both. -/
theorem Alike.effect {past : Past} {c d : Cache K V} (alike : c.Alike past d)
    (consistent : c.Consistent) (also : d.Consistent) {m : Move K V} (even : m.even = true)
    (board : PressureBoard) : (m.effect board c).Alike past (m.effect board d) := by
  cases m with
  | sweep _ => exact (alike.sweep consistent also).1
  | consult _ => exact alike.consult consistent also board
  | closePass _ released failures => exact alike.tally (Counters.adds_closePass _ _)
  | countReclaim _ failed => exact alike.tally (Counters.adds_countReclaim _)
  | look _ key => exact (alike.touch key).1
  | place _ key value => exact (alike.store key value).1
  | takeOut _ key => exact (alike.takeOut key).1
  | unpinAll _ => exact alike.unpinAll
  | dropEntries _ => exact alike.dropEntries
  | raise _ => exact alike
  | noteServed _ request reply => exact alike
  | _ => cases even

namespace Kin

variable {past : Option Past} {c d : Cache K V} (kin : Kin past c d)

include kin

/-- What is the same of caches that are alike is the same of kin. -/
theorem elim {f : Cache K V → α} (same : ∀ p, past = some p → c.Alike p d → f d = f c) :
    f d = f c := by
  cases past with
  | none => exact congrArg f kin
  | some p => exact same p rfl kin

theorem cleaner : d.cleaner = c.cleaner := kin.elim fun _ _ alike => alike.cleaner

/-- The same live entries are shown, in some order. -/
theorem perm_toList (consistent : c.Consistent) (also : d.Consistent) : d.toList.Perm c.toList := by
  cases past with
  | none =>
    cases kin
    exact List.Perm.refl _
  | some p => exact Alike.toList kin consistent also

theorem effect (consistent : c.Consistent) (also : d.Consistent) {m : Move K V}
    (even : m.even = true) (board : PressureBoard) :
    Kin past (m.effect board c) (m.effect board d) := by
  cases past with
  | none => exact congrArg (fun c => m.effect board c) kin
  | some p => exact Alike.effect kin consistent also even board

theorem enqueue (id : SlotId) : Kin past (c.enqueue (Past.before past + id)) (d.enqueue id) := by
  cases past with
  | none =>
    cases kin
    exact congrArg c.enqueue (Nat.zero_add id).symm
  | some p => exact Alike.enqueue kin id

theorem takeOutSlot (key : K) (id : SlotId) :
    Kin past (c.takeOutSlot key (Past.before past + id)).1 (d.takeOutSlot key id).1 ∧
      (d.takeOutSlot key id).2 = (c.takeOutSlot key (Past.before past + id)).2 := by
  cases past with
  | none =>
    cases kin
    have same := congrArg (c.takeOutSlot key) (Nat.zero_add id).symm
    exact ⟨congrArg Prod.fst same, congrArg Prod.snd same⟩
  | some p => exact Alike.takeOutSlot kin key id

theorem releaseValueOf (key : K) :
    Kin past (c.releaseValueOf key).1 (d.releaseValueOf key).1 ∧
      (c.releaseValueOf key).2 = (d.releaseValueOf key).2.map (Victim.behind (Past.before past)) := by
  cases past with
  | none =>
    cases kin
    refine ⟨rfl, ?_⟩
    have none : Victim.behind (K := K) (V := V) 0 = id := funext Victim.behind_zero
    show _ = Option.map (Victim.behind 0) _
    rw [none, Option.map_id_apply]
  | some p => exact Alike.releaseValueOf kin key

end Kin

end Cache

namespace Host.Alike

variable {past : CacheId → Option Past} {h g : Host K V} (alike : h.Alike past g)

include alike

theorem board : g.board = h.board := congrArg Prod.fst alike.aside

/-- A cache is on both hosts or on none. -/
theorem twins (c : CacheId) :
    (h.cache? c = none ∧ g.cache? c = none) ∨
      ∃ cache twin, h.cache? c = some cache ∧ g.cache? c = some twin ∧
        Cache.Kin (past c) cache twin ∧ cache.Consistent ∧ twin.Consistent := by
  rcases rel_cases (alike.caches c) with absent | ⟨cache, twin, here, there, same⟩
  · exact .inl absent
  · exact .inr ⟨cache, twin, here, there, same, alike.consistent c cache here,
      alike.also c twin there⟩

theorem onCache (c : CacheId) (otherwise : α) {f : Cache K V → Cache K V × α}
    (same : ∀ {cache twin p}, cache.Alike p twin → cache.Consistent → twin.Consistent →
      (f twin).2 = (f cache).2) :
    (g.onCache c otherwise f).2 = (h.onCache c otherwise f).2 := by
  rw [Host.onCache, Host.onCache]
  rcases alike.twins c with ⟨here, there⟩ | ⟨cache, twin, here, there, kin, consistent, also⟩
  · rw [here, there]
  · rw [here, there]
    exact kin.elim (f := fun cache => (f cache).2) fun p _ twins => same twins consistent also

theorem consult (c : CacheId) : (g.consult c).2 = (h.consult c).2 := by
  rw [Host.consult, Host.consult]
  rcases alike.twins c with ⟨here, there⟩ | ⟨cache, twin, here, there, kin, consistent, also⟩
  · rw [here, there]
  · rw [here, there]
    dsimp only
    rw [alike.board]
    refine kin.elim (f := fun cache => cache.budget (cache.usage h.board)) fun p known twins => ?_
    have plain := alike.plain c cache (known ▸ rfl) here
    rw [twins.usage consistent also, plain.budget_congr twins.policy]

theorem look (c : CacheId) (key : K) : (g.look c key).2 = (h.look c key).2 := by
  have looked : ∀ h : Host K V,
      (h.look c key).2 = (h.cache? c).bind fun cache => (cache.touch key).2 := by
    intro h
    rw [Host.look]
    cases h.cache? c with
    | none => rfl
    | some cache =>
      dsimp only [Option.bind_some]
      split <;> rfl
  rw [looked, looked]
  rcases alike.twins c with ⟨here, there⟩ | ⟨cache, twin, here, there, kin, _⟩
  · rw [here, there]
  · rw [here, there]
    exact kin.elim (f := fun cache => (cache.touch key).2) fun p _ twins => (twins.touch key).2

theorem place (c : CacheId) (key : K) (value : V) :
    (g.place c key value).2 = (h.place c key value).2 := by
  rw [Host.place, Host.place]
  rcases alike.twins c with ⟨here, there⟩ | ⟨cache, twin, here, there, kin, _⟩
  · rw [here, there]
  · rw [here, there]
    exact kin.elim (f := fun cache => (cache.store key value).2) fun p _ twins =>
      (twins.store key value).2

/-- An even move gives the same back on both hosts. -/
theorem result {m : Move K V} (even : m.even = true) : (m.make g).2 = (m.make h).2 := by
  cases m with
  | consult c => exact alike.consult c
  | look c key => exact alike.look c key
  | place c key value => exact alike.place c key value
  | takeOut c key => exact alike.onCache c none fun twins _ _ => (twins.takeOut key).2
  | view => cases even
  | build config => cases even
  | releaseValues c budget => cases even
  | releaseValue c key => cases even
  | takeOutSlot c key slot => cases even
  | enterCleaner c victim => cases even
  | leaveCleaner call replies verdict => cases even
  | _ => rfl

/-- What else changes on hosts does not matter. -/
theorem of_caches {h' g' : Host K V} (here : h'.caches = h.caches) (there : g'.caches = g.caches)
    (aside : g'.aside = h'.aside) : h'.Alike past g' := by
  have same := cache?_of_caches here
  have also := cache?_of_caches there
  refine ⟨aside, ?_, ?_, ?_, ?_, ?_⟩
  · rw [Host.nextCache, Host.nextCache, here, there]
    exact alike.nextCache
  · rw [Host.Consistent, same]
    exact alike.consistent
  · rw [Host.Consistent, also]
    exact alike.also
  · rw [same]
    exact alike.plain
  · rw [same, also]
    exact alike.caches

/-- Hosts stay alike when moves on the same cache leave kin. -/
theorem on_target {m m' : Move K V} {c : CacheId} (target : m.target = some c)
    (also : m'.target = some c)
    (effects : ∀ cache twin, h.cache? c = some cache → Cache.Kin (past c) cache twin →
      cache.Consistent → twin.Consistent →
      Cache.Kin (past c) (m.effect h.board cache) (m'.effect h.board twin)) :
    (m.make h).1.Alike past (m'.make g).1 := by
  have noCall : ∀ {m : Move K V}, m.target = some c → m.calls = false := by
    intro m target
    cases m <;> first | rfl | cases target
  have noRaise : ∀ {m : Move K V}, m.target = some c → ∀ signal, m ≠ .raise signal := by
    rintro m target signal rfl
    cases target
  have noBuild : ∀ {m : Move K V}, m.target = some c → ∀ config, m ≠ .build config := by
    rintro m target config rfl
    cases target
  refine ⟨?_, ?_, alike.consistent.make m, alike.also.make m', ?_, fun d => ?_⟩
  · rw [aside_make (noCall target) (noRaise target), aside_make (noCall also) (noRaise also)]
    exact alike.aside
  · rw [nextCache_make (noBuild target), nextCache_make (noBuild also)]
    exact alike.nextCache
  · intro d cache known found
    rw [Move.cache?_make m h d (noBuild target), Option.map_eq_some_iff] at found
    obtain ⟨old, there, rfl⟩ := found
    exact (alike.plain d old known there).grow (old.grows_effectOn m h.board d)
  · rw [Move.cache?_make m h d (noBuild target), Move.cache?_make m' g d (noBuild also), alike.board]
    rcases alike.twins d with ⟨here, there⟩ | ⟨cache, twin, here, there, kin, consistent, alsoToo⟩
    · rw [here, there]
      exact .none
    · rw [here, there, Option.map_some, Option.map_some, Move.effectOn, Move.effectOn, target, also]
      by_cases same : c = d
      · subst same
        rw [if_pos rfl, if_pos rfl]
        exact .some (effects cache twin here kin consistent alsoToo)
      · have elsewhere : ¬ (some c = some d) := fun equal => same (Option.some.inj equal)
        rw [if_neg elsewhere, if_neg elsewhere]
        exact .some kin

/-- An even move does the same on both hosts. -/
theorem make {m : Move K V} (even : m.even = true) : (m.make h).1.Alike past (m.make g).1 := by
  cases target : m.target with
  | some c =>
    exact alike.on_target target target fun _ _ _ kin consistent also =>
      kin.effect consistent also even h.board
  | none =>
    have aside := alike.aside
    cases m with
    | raise signal =>
      refine alike.of_caches rfl rfl ?_
      simp only [Host.aside, Prod.mk.injEq] at aside ⊢
      exact ⟨congrArg (fun board => board.raise signal) aside.1, aside.2⟩
    | noteServed c request reply => exact alike.of_caches rfl rfl aside
    | view => cases even
    | build config => cases even
    | enterCleaner c victim => cases even
    | leaveCleaner call replies verdict => cases even
    | _ => cases target

/-- A call of a cleaner begins on the same value on both hosts. -/
theorem enterCleaner (c : CacheId) (victim : Victim K V) :
    (h.enterCleaner c victim).1.Alike past (g.enterCleaner c victim).1 ∧
      (g.enterCleaner c victim).2 = (h.enterCleaner c victim).2 := by
  have aside := alike.aside
  simp only [Host.aside, Prod.mk.injEq] at aside
  obtain ⟨board, cleanings, active⟩ := aside
  refine ⟨alike.of_caches rfl rfl ?_, ?_⟩
  · simp only [Host.aside, Host.enterCleaner, board, cleanings, active]
  · simp only [Host.enterCleaner, cleanings, active]

/-- How a call ended is noted in the same way. -/
theorem leaveCleaner (call : Cleaning K V) (replies : List (Reply V)) (verdict : Verdict) :
    (h.leaveCleaner call replies verdict).1.Alike past (g.leaveCleaner call replies verdict).1 ∧
      (g.leaveCleaner call replies verdict).2 = (h.leaveCleaner call replies verdict).2 := by
  have aside := alike.aside
  simp only [Host.aside, Prod.mk.injEq] at aside
  obtain ⟨board, cleanings, _⟩ := aside
  cases verdict <;> refine ⟨alike.of_caches rfl rfl ?_, rfl⟩ <;>
    simp only [Host.aside, Host.leaveCleaner, Host.log, Host.record, board, cleanings]

theorem enqueue (c : CacheId) (id : SlotId) :
    ((Move.enqueue c (Past.before (past c) + id)).make h).1.Alike past
      ((Move.enqueue c id).make g).1 :=
  alike.on_target rfl rfl fun _ _ _ kin _ _ => kin.enqueue id

theorem takeOutSlot (c : CacheId) (key : K) (id : SlotId) :
    ((Move.takeOutSlot c key (Past.before (past c) + id)).make h).1.Alike past
        ((Move.takeOutSlot c key id).make g).1 ∧
      ((Move.takeOutSlot c key id).make g).2 =
        ((Move.takeOutSlot c key (Past.before (past c) + id)).make h).2 := by
  refine ⟨alike.on_target rfl rfl fun _ _ _ kin _ _ => (kin.takeOutSlot key id).1, ?_⟩
  rw [Move.make, Move.make, Host.onCache, Host.onCache]
  rcases alike.twins c with ⟨here, there⟩ | ⟨cache, twin, here, there, kin, _⟩
  · rw [here, there]
  · rw [here, there]
    exact (kin.takeOutSlot key id).2

theorem releaseValue (c : CacheId) (key : K) :
    ((Move.releaseValue c key).make h).1.Alike past ((Move.releaseValue c key).make g).1 ∧
      ((Move.releaseValue c key).make h).2 =
        ((Move.releaseValue c key).make g).2.map (Victim.behind (Past.before (past c))) := by
  refine ⟨alike.on_target rfl rfl fun _ _ _ kin _ _ => (kin.releaseValueOf key).1, ?_⟩
  rw [Move.make, Move.make, Host.onCache, Host.onCache]
  rcases alike.twins c with ⟨here, there⟩ | ⟨cache, twin, here, there, kin, _⟩
  · rw [here, there]
    rfl
  · rw [here, there]
    exact (kin.releaseValueOf key).2

/-- The same cache releases the same values. -/
theorem releaseValues_same {c : CacheId} (same : past c = none) (budget : Nat) :
    ((Move.releaseValues c budget).make h).1.Alike past
        ((Move.releaseValues c budget).make g).1 ∧
      ((Move.releaseValues c budget).make g).2 = ((Move.releaseValues c budget).make h).2 := by
  have equal : ∀ {cache twin : Cache K V}, Cache.Kin (past c) cache twin → twin = cache := by
    intro cache twin kin
    rwa [same] at kin
  refine ⟨alike.on_target rfl rfl fun cache twin _ kin _ _ => ?_, ?_⟩
  · have twins := equal kin
    subst twins
    rw [same]
    exact rfl
  · rw [Move.make, Move.make, Host.onCache, Host.onCache]
    rcases alike.twins c with ⟨here, there⟩ | ⟨cache, twin, here, there, kin, _⟩
    · rw [here, there]
    · rw [here, there, equal kin]

/-- A pass that releases as many values as there are releases the same values on both hosts. -/
theorem releaseValues (few : h.Countable) {c : CacheId} {p : Past} (known : past c = some p) :
    ((Move.releaseValues c Policy.unlimited).make h).1.Alike past
        ((Move.releaseValues c Policy.unlimited).make g).1 ∧
      (((Move.releaseValues c Policy.unlimited).make g).2.map (Victim.behind p.slots)).Perm
        ((Move.releaseValues c Policy.unlimited).make h).2 := by
  refine ⟨alike.on_target rfl rfl fun cache twin here kin consistent also => ?_, ?_⟩
  · rw [known] at kin ⊢
    exact (Cache.Alike.releaseValues kin consistent also (few c cache here)).1
  · rw [Move.make, Move.make, Host.onCache, Host.onCache]
    rcases alike.twins c with ⟨here, there⟩ | ⟨cache, twin, here, there, kin, consistent, also⟩
    · rw [here, there]
      exact List.Perm.refl []
    · rw [here, there]
      rw [known] at kin
      exact (Cache.Alike.releaseValues kin consistent also (few c cache here)).2

end Host.Alike

/-! ### Building -/

namespace Config.Alike

variable {c d : Config K V} (alike : c.Alike d)

include alike

omit [DecidableEq K] in
/-- Configurations that differ in their shards are accepted or refused alike. -/
theorem check : d.check = c.check := by
  rw [Config.check, Config.check, if_neg alike.sharded.1, if_neg alike.also.1, alike.rest]

/-- Both configurations fail to make a cache, or make caches that are alike. -/
theorem assemble (board : PressureBoard) :
    (∃ p, c.assemble board = .error p ∧ d.assemble board = .error p) ∨
      ∃ cache twin, c.assemble board = .ok cache ∧ d.assemble board = .ok twin ∧
        cache.Alike .blank twin ∧ cache.Plain := by
  have created : ∀ {config : Config K V}, config.Sharded →
      ShardedMap.create config.hasher config.shardCount =
        .ok (.empty config.hasher config.shardCount) := by
    intro config sharded
    rw [ShardedMap.create, sharded.2]
    rfl
  rw [Config.assemble, Config.assemble, created alike.sharded, created alike.also, alike.rest]
  cases queued : PinQueue.create c.pinCapacity with
  | error p => exact .inl ⟨p, rfl, rfl⟩
  | ok queue =>
    refine .inr ⟨_, _, rfl, rfl, ⟨⟨fun id => ?_, rfl⟩, fun key => ?_, ?_, List.Perm.refl _,
      (Counters.nothing_onTop _).symm, rfl, rfl, rfl⟩, alike.policy, alike.cleaner⟩
    · rw [SlotPool.get?_empty, SlotPool.get?_empty]
    · rw [ShardedMap.get?_empty, ShardedMap.get?_empty]
      rfl
    · obtain ⟨capacity, ids⟩ := queue
      have none : ids = [] := PinQueue.ids_create queued
      subst none
      rfl

end Config.Alike

omit [DecidableEq K] in
theorem Host.nextCache_build (h : Host K V) (config : Config K V) :
    (h.build config).1.nextCache = h.nextCache + 1 := by
  rw [build]
  split
  · exact Array.size_push ..
  · dsimp only
    split <;> exact Array.size_push ..

namespace Host.Alike

variable {past : CacheId → Option Past} {h g : Host K V} (alike : h.Alike past g)
  {c d : Config K V} (same : c.Alike d)

include alike same

/-- Hence a cache is built with both, or with none. -/
theorem build_result : (g.build d).2 = (h.build c).2 := by
  have made := same.assemble h.board
  rw [Host.build, Host.build, same.check]
  cases c.check with
  | error e => rfl
  | ok checked =>
    have board : (g.log (.building d.pinCapacity d.shards
        (Text.inspect d.policy).compact)).board = h.board := alike.board
    have here : (h.log (.building c.pinCapacity c.shards
        (Text.inspect c.policy).compact)).board = h.board := rfl
    dsimp only
    rw [board, here]
    rcases made with ⟨p, failed, also⟩ | ⟨cache, twin, built, also, _⟩
    · rw [failed, also]
    · rw [built, also]

/-- What is built has no past. -/
theorem build (new : past h.nextCache = some .blank) : (h.build c).1.Alike past (g.build d).1 := by
  have made := same.assemble h.board
  have caches : ∀ e, (h.build c).1.cache? e = _ := Move.cache?_make_build c h
  have twins : ∀ e, (g.build d).1.cache? e = _ := Move.cache?_make_build d g
  have added : Option.Rel (Cache.Kin (past h.nextCache)) (c.built? h.board) (d.built? g.board) := by
    rw [Config.built?, Config.built?, same.check, alike.board]
    cases c.check with
    | error e => exact .none
    | ok checked =>
      dsimp only
      rcases made with ⟨p, failed, also⟩ | ⟨cache, twin, built, also, related, _⟩
      · rw [failed, also]
        exact .none
      · rw [built, also, new]
        exact .some related
  refine ⟨?_, ?_, alike.consistent.make (.build c), alike.also.make (.build d), ?_, fun e => ?_⟩
  · have here := aside_make (m := .build c) rfl (fun _ same => by cases same) h
    have there := aside_make (m := .build d) rfl (fun _ same => by cases same) g
    exact there.trans (alike.aside.trans here.symm)
  · rw [nextCache_build, nextCache_build, alike.nextCache]
  · intro e cache known found
    rw [caches] at found
    split at found
    · rw [Config.built?] at found
      split at found
      · rcases made with ⟨p, failed, _⟩ | ⟨cache, twin, built, _, _, plain⟩
        · rw [failed] at found
          cases found
        · rw [built] at found
          cases found
          exact plain
      · cases found
    · exact alike.plain e cache known found
  · rw [caches, twins, alike.nextCache]
    split
    · rename_i equal
      rw [equal]
      exact added
    · exact alike.caches e

end Host.Alike

end

end ReclaimableCache
