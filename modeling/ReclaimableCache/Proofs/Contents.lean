import ReclaimableCache.Proofs.PlainMap
import ReclaimableCache.Proofs.Quiescence

/-!
# What a cache holds

The plain map that a cache stands for shows the value under each key, `Cache.peek`. Storing and
taking out act on it as on any map, looking up and sweeping leave it alone, and releasing values
takes out the keys that they stood under, none of which was pinned if a pass released them.
-/

namespace ReclaimableCache

variable {K V : Type} [DecidableEq K]

namespace Cache

/-! ### Looking at values -/

/-- What is found under a key is the value of a live slot. -/
theorem peek_eq_liveSlot? (c : Cache K V) (key : K) :
    c.peek key = (c.liveSlot? key).bind c.pool.value? := by
  rw [peek, liveSlot?]
  cases c.table.get? key with
  | none => rfl
  | some id => cases value : c.pool.value? id <;> simp [Option.filter, SlotPool.isLive, value]

theorem containsKey_eq (c : Cache K V) (key : K) : c.containsKey key = (c.peek key).isSome := by
  rw [containsKey, peek]
  cases c.table.get? key <;> rfl

theorem Accounts.peek_sweep {c : Cache K V} {flight : List SlotId} (accounts : c.Accounts flight)
    (consistent : c.Consistent) : c.sweep.1.peek = c.peek := by
  funext key
  rw [peek_eq_liveSlot?, peek_eq_liveSlot?, accounts.liveSlot?_sweep consistent]
  rfl

/-- Pins do not matter to what is found. -/
theorem peek_of_sameValues {c d : Cache K V} (table : d.table = c.table)
    (same : c.pool.SameValues d.pool) : d.peek = c.peek := by
  funext key
  rw [peek, peek, table]
  congr 1
  funext id
  exact same.value? id

theorem peek_pin (c : Cache K V) (id : SlotId) : (c.pin id).peek = c.peek :=
  peek_of_sameValues rfl (PinQueue.sameValues_pin c.queue c.pool id)

/-- Entries that are those of the table, each once, show the map that the cache stands for. -/
theorem lists_of_entries (c : Cache K V) {entries : List (K × SlotId)}
    (distinct : (entries.map Prod.fst).Nodup)
    (all : ∀ key id, (key, id) ∈ entries ↔ c.table.get? key = some id) :
    PlainMap.Lists c.peek (entries.filterMap c.liveEntry?) := by
  have key : ∀ e item, Cache.liveEntry? c e = some item → item.1 = e.1 := by
    intro e item live
    obtain ⟨value, _, rfl⟩ := Option.map_eq_some_iff.mp live
    rfl
  refine ⟨?_, ?_⟩
  · rw [List.Nodup, List.pairwise_map, List.pairwise_filterMap]
    refine (List.pairwise_map.mp distinct).imp fun different item live other also => ?_
    rw [key _ item live, key _ other also]
    exact different
  · intro k value
    rw [List.mem_filterMap, peek, Option.bind_eq_some_iff]
    constructor
    · rintro ⟨⟨_, id⟩, member, live⟩
      obtain ⟨_, found, shown⟩ := Option.map_eq_some_iff.mp live
      cases shown
      exact ⟨id, (all _ id).mp member, found⟩
    · rintro ⟨id, bound, found⟩
      exact ⟨(k, id), (all k id).mpr bound, Option.map_eq_some_iff.mpr ⟨value, found, rfl⟩⟩

/-- The listing of a cache shows the map that it stands for. -/
theorem Consistent.lists {c : Cache K V} (consistent : c.Consistent) :
    PlainMap.Lists c.peek c.toList :=
  c.lists_of_entries (ShardedMap.nodup_toList_keys consistent.table.toOrdered) fun _ _ =>
    (ShardedMap.get?_eq_some_iff consistent.table.toOrdered).symm

/-! ### Looking up, storing and taking out -/

theorem touch_snd (c : Cache K V) (key : K) : (c.touch key).2 = c.peek key := by
  cases bound : c.table.get? key with
  | none => simp [touch, peek, bound]
  | some id =>
    have value : (c.pin id).pool.value? id = c.pool.value? id :=
      (PinQueue.sameValues_pin c.queue c.pool id).value? id
    simp only [touch, peek, bound, Option.bind_some]
    rw [← value]
    cases (c.pin id).pool.value? id <;> rfl

theorem look_snd {h : Host K V} {d : CacheId} {c : Cache K V} (found : h.cache? d = some c)
    (key : K) : ((Move.look d key).make h).2 = c.peek key := by
  rw [← c.touch_snd key]
  simp only [Move.make, Host.look, found]
  cases c.table.get? key <;> rfl

/-- An entry that a look-up takes out has no value. -/
theorem peek_touch (c : Cache K V) (key : K) : (c.touch key).1.peek = c.peek := by
  cases bound : c.table.get? key with
  | none => simp only [touch, bound]; rfl
  | some id =>
    simp only [touch, bound]
    cases value : (c.pin id).pool.value? id with
    | some _ => exact c.peek_pin id
    | none =>
      rw [← c.peek_pin id]
      funext k
      simp only [peek, tally, ShardedMap.get?_eraseIfSame]
      split
      · rename_i here
        rw [here.1, here.2, Option.bind_some, value]
        rfl
      · rfl

theorem get?_store (c : Cache K V) (key k : K) (value : V) :
    (c.store key value).1.table.get? k =
      if k = key then some c.pool.nextId else c.table.get? k := by
  simp only [store, tally, pin, ShardedMap.get?_insert]

theorem value?_store (c : Cache K V) (key : K) (value : V) (id : SlotId) :
    (c.store key value).1.pool.value? id =
      if id = c.pool.nextId then some value else c.pool.value? id := by
  apply ((PinQueue.sameValues_pin c.queue (c.pool.add (.fresh key value)) _).value? id).trans
  rw [SlotPool.value?, SlotPool.get?_add]
  split <;> rfl

theorem peek_store {c : Cache K V} (consistent : c.Consistent) (key : K) (value : V) :
    (c.store key value).1.peek = PlainMap.bind c.peek key value := by
  funext k
  rw [PlainMap.bind, peek, get?_store]
  by_cases here : k = key
  · rw [if_pos here, if_pos here, Option.bind_some, value?_store, if_pos rfl]
  · rw [if_neg here, if_neg here, peek]
    cases bound : c.table.get? k with
    | none => rfl
    | some id =>
      have known := Nat.ne_of_lt (consistent.lt_nextId bound)
      rw [Option.bind_some, value?_store, if_neg known, Option.bind_some]

/-- Storing gives back what was in the slot that it replaces. -/
theorem store_snd_of_bound {c : Cache K V} {key : K} {id : SlotId}
    (bound : c.table.get? key = some id) (known : id ≠ c.pool.nextId) (value : V) :
    (c.store key value).2 = c.pool.value? id := by
  have previous : (c.store key value).2 = (c.store key value).1.pool.value? id := by
    simp only [store, bound, Option.bind_some]
    rfl
  rw [previous, value?_store, if_neg known]

theorem store_snd {c : Cache K V} (consistent : c.Consistent) (key : K) (value : V) :
    (c.store key value).2 = c.peek key := by
  cases bound : c.table.get? key with
  | none => simp only [store, peek, bound, Option.bind_none]
  | some id =>
    rw [store_snd_of_bound bound (Nat.ne_of_lt (consistent.lt_nextId bound)), peek, bound,
      Option.bind_some]

theorem takeOut_snd (c : Cache K V) (key : K) : (c.takeOut key).2 = c.peek key := by
  cases bound : c.table.get? key <;> simp [takeOut, peek, bound]

theorem peek_takeOut (c : Cache K V) (key : K) :
    (c.takeOut key).1.peek = PlainMap.unbind c.peek key := by
  funext k
  rw [PlainMap.unbind]
  cases bound : c.table.get? key with
  | none =>
    simp only [takeOut, bound]
    split
    · rename_i here
      rw [here, peek, bound]
      rfl
    · rfl
  | some id =>
    simp only [takeOut, bound, peek, tally, ShardedMap.get?_erase]
    split <;> rfl

theorem peek_takeOutSlot {c : Cache K V} {key : K} {id : SlotId}
    (current : c.table.get? key = some id) :
    (c.takeOutSlot key id).1.peek = PlainMap.unbind c.peek key := by
  funext k
  simp only [takeOutSlot, PlainMap.unbind, peek, ShardedMap.get?_eraseIfSame, current, and_true]
  split <;> rfl

theorem peek_dropEntries (c : Cache K V) : c.dropEntries.peek = PlainMap.empty := by
  funext key
  rw [peek, dropEntries, ShardedMap.get?_clear]
  rfl

theorem New.peek {config : Config K V} {board : PressureBoard} {c : Cache K V}
    (new : New config board c) :
    c.peek = PlainMap.empty := by
  funext key
  rw [Cache.peek, new.get?]
  rfl

/-! ### Releasing values -/

/-- Whether the slot under a key has no pins. -/
def Free (c : Cache K V) (key : K) : Prop :=
  ∃ id, c.table.get? key = some id ∧ c.pool.pins id = 0

/-- Released values are not found any more, and all others are. -/
theorem peek_of_releases {c d : Cache K V} (consistent : c.Consistent)
    {victims : List (Victim K V)} (releases : c.pool.Releases d.pool victims)
    (table : d.table = c.table) (installed : ∀ v ∈ victims, c.table.get? v.key = some v.id) :
    d.peek = PlainMap.without c.peek (victims.map Victim.key).toFinset := by
  funext key
  simp only [PlainMap.without, List.mem_toFinset, peek, table]
  cases bound : c.table.get? key with
  | none =>
    rw [Option.bind_none, Option.bind_none, ite_self]
  | some id =>
    have named : key ∈ victims.map Victim.key ↔ id ∈ victims.map Victim.id := by
      constructor
      · intro member
        obtain ⟨v, victim, rfl⟩ := List.mem_map.mp member
        rw [installed v victim] at bound
        cases bound
        exact List.mem_map_of_mem victim
      · intro member
        obtain ⟨v, victim, rfl⟩ := List.mem_map.mp member
        obtain ⟨slot, found, rfl⟩ := consistent.keyed key v.id bound
        obtain ⟨other, there, same, _⟩ := releases.were v victim
        rw [found] at there
        cases there
        exact same ▸ List.mem_map_of_mem victim
    rw [Option.bind_some, Option.bind_some, SlotPool.value?, releases.get?]
    by_cases released : id ∈ victims.map Victim.id
    · rw [if_pos released, if_pos (named.mpr released), Option.bind_map]
      cases c.pool.get? id <;> rfl
    · rw [if_neg released, if_neg fun member => released (named.mp member)]
      rfl

/-- A pass releases values of installed slots that have no pins. -/
theorem Consistent.mem_releaseValues {c : Cache K V} (consistent : c.Consistent) {budget : Nat}
    {v : Victim K V} (member : v ∈ (c.releaseValues budget).2) :
    c.table.get? v.key = some v.id ∧ (c.peek v.key).isSome = true ∧ c.pool.pins v.id = 0 := by
  obtain ⟨slot, found, key, _, live⟩ := (c.releases_releaseValues budget).were v member
  have chosen : v.id ∈ c.candidates budget c.startShard :=
    consistent.ids_releaseValues budget ▸ List.mem_map_of_mem member
  obtain ⟨⟨k, bound⟩, ready⟩ := consistent.mem_candidates chosen
  obtain ⟨same, there, rfl⟩ := consistent.keyed k v.id bound
  rw [found] at there
  cases there
  rw [key] at bound
  rw [SlotPool.evictable, found, Option.any_some, Slot.evictable, Bool.and_eq_true] at ready
  refine ⟨bound, ?_, ?_⟩
  · rw [peek, bound, Option.bind_some, SlotPool.value?, found, Option.bind_some,
      Slot.value?_isSome]
    exact live
  · rw [SlotPool.pins, found]
    exact beq_iff_eq.mp ready.2

/-- A value without pins is released, unless the budget runs out. -/
theorem Consistent.mem_of_free {c : Cache K V} (consistent : c.Consistent) {budget : Nat}
    (left : (c.releaseValues budget).2.length < budget) {key : K}
    (bound : (c.peek key).isSome = true) (free : c.Free key) :
    key ∈ (c.releaseValues budget).2.map Victim.key := by
  obtain ⟨id, installed, pins⟩ := free
  obtain ⟨slot, found, same⟩ := consistent.keyed key id installed
  rw [peek, installed, Option.bind_some, SlotPool.value?, found, Option.bind_some,
    Slot.value?_isSome] at bound
  rw [SlotPool.pins, found] at pins
  have ready : c.pool.evictable id = true := by
    rw [SlotPool.evictable, found, Option.any_some, Slot.evictable, bound, Bool.true_and]
    exact beq_iff_eq.mpr pins
  have ids := consistent.ids_releaseValues budget
  have walked : id ∈ c.table.slotsFrom c.startShard :=
    (c.table.perm_slotsFrom _).mem_iff.mpr (List.mem_map_of_mem
      ((ShardedMap.get?_eq_some_iff consistent.table.toOrdered).mp installed))
  have chosen : id ∈ c.candidates budget c.startShard := by
    rw [← List.length_map Victim.id, ids, candidates_eq, List.length_take] at left
    rw [candidates_eq, List.take_of_length_le (by omega)]
    exact List.mem_filter.mpr ⟨walked, ready⟩
  rw [← ids] at chosen
  obtain ⟨v, member, rfl⟩ := List.mem_map.mp chosen
  obtain ⟨other, there, key', _⟩ := (c.releases_releaseValues budget).were v member
  rw [found] at there
  cases there
  rw [← same, key']
  exact List.mem_map_of_mem member

theorem Consistent.nodup_keys_releaseValues {c : Cache K V} (consistent : c.Consistent)
    (budget : Nat) : ((c.releaseValues budget).2.map Victim.key).Nodup := by
  have distinct := (c.releases_releaseValues budget).nodup
  rw [List.Nodup, List.pairwise_map] at distinct ⊢
  refine distinct.imp_of_mem fun {v w} first second different same => different ?_
  have installed := (consistent.mem_releaseValues first).1
  rw [same, (consistent.mem_releaseValues second).1] at installed
  exact (Option.some.inj installed).symm

theorem isSome_releaseValueOf (c : Cache K V) (key : K) :
    (c.releaseValueOf key).2.isSome = (c.peek key).isSome := by
  rw [releaseValueOf, peek]
  cases c.table.get? key with
  | none => rfl
  | some id =>
    simp only [releaseValue, SlotPool.detach, Option.bind_some, SlotPool.value?]
    cases c.pool.get? id with
    | none => rfl
    | some slot => exact Option.isSome_map

/-- A reclaim takes the binding of the key out, if there is one. -/
theorem Consistent.peek_releaseValueOf {c : Cache K V} (consistent : c.Consistent) (key : K) :
    (c.releaseValueOf key).1.peek = PlainMap.unbind c.peek key := by
  have releases := c.releases_releaseValueOf key
  have there := c.isSome_releaseValueOf key
  have table : (c.releaseValueOf key).1.table = c.table := by
    unfold Cache.releaseValueOf
    split <;> rfl
  have keys : ∀ v ∈ (c.releaseValueOf key).2.toList, v.key = key := by
    intro v member
    obtain ⟨slot, found, rfl⟩ := consistent.keyed key v.id (mem_releaseValueOf member)
    obtain ⟨other, same, named, _⟩ := releases.were v member
    rw [found] at same
    cases same
    exact named.symm
  rw [peek_of_releases consistent releases table fun v member => by
    rw [keys v member]
    exact mem_releaseValueOf member]
  funext k
  simp only [PlainMap.without, PlainMap.unbind, List.mem_toFinset]
  cases victim : (c.releaseValueOf key).2 with
  | none =>
    rw [victim, Option.isSome_none] at there
    simp only [Option.toList_none, List.map_nil, List.not_mem_nil, if_false]
    split
    · rename_i here
      rw [here]
      exact Option.not_isSome_iff_eq_none.mp (Bool.not_eq_true _ ▸ there.symm)
    · rfl
  | some v =>
    have same := keys v (by rw [victim, Option.toList_some]; exact List.mem_singleton_self v)
    simp only [Option.toList_some, List.map_cons, List.map_nil, List.mem_singleton, same]

/-! ### Losing bindings -/

/-- One cache stands for the map that is left of the other's once some free keys are lost, and no
    key has become free. -/
structure Loses (c d : Cache K V) (lost : Finset K) : Prop where
  peek : d.peek = PlainMap.without c.peek lost
  were : PlainMap.MayLose c.peek c.Free lost
  free : ∀ key, d.Free key → c.Free key

theorem Loses.nothing {c d : Cache K V} (peek : d.peek = c.peek)
    (free : ∀ key, d.Free key → c.Free key) : c.Loses d ∅ := by
  refine ⟨?_, fun key member => absurd member (Finset.notMem_empty key), free⟩
  rw [peek]
  funext key
  exact (if_neg (Finset.notMem_empty key)).symm

/-- Changes of a cache that are neither in its table nor in its slots. -/
theorem Loses.aside {c d : Cache K V} (table : d.table = c.table) (pool : d.pool = c.pool) :
    c.Loses d ∅ := by
  refine .nothing ?_ ?_
  · funext key
    rw [Cache.peek, Cache.peek, table, pool]
  · intro key free
    rwa [Free, table, pool] at free

theorem Loses.trans {c d e : Cache K V} {lost more : Finset K} (first : c.Loses d lost)
    (second : d.Loses e more) : c.Loses e (lost ∪ more) := by
  refine ⟨?_, ?_, fun key free => first.free key (second.free key free)⟩
  · rw [second.peek, first.peek]
    funext key
    simp only [PlainMap.without, Finset.mem_union]
    by_cases before : key ∈ lost <;> simp [before]
  · intro key member
    rcases Finset.mem_union.mp member with before | later
    · exact first.were key before
    · obtain ⟨bound, free⟩ := second.were key later
      refine ⟨?_, first.free key free⟩
      rw [first.peek, PlainMap.without] at bound
      split at bound
      · cases bound
      · exact bound

theorem Accounts.loses_sweep {c : Cache K V} {flight : List SlotId} (accounts : c.Accounts flight)
    (consistent : c.Consistent) : c.Loses c.sweep.1 ∅ := by
  refine .nothing (accounts.peek_sweep consistent) ?_
  rintro key ⟨id, bound, pins⟩
  rw [consistent.get?_sweep, Option.filter_eq_some_iff] at bound
  exact ⟨id, bound.1, pins⟩

theorem Consistent.loses_releaseValues {c : Cache K V} (consistent : c.Consistent) (budget : Nat) :
    c.Loses (c.releaseValues budget).1
      ((c.releaseValues budget).2.map Victim.key).toFinset := by
  have releases := c.releases_releaseValues budget
  refine ⟨?_, ?_, ?_⟩
  · exact peek_of_releases consistent releases rfl fun v member =>
      (consistent.mem_releaseValues member).1
  · intro key member
    obtain ⟨v, victim, rfl⟩ := List.mem_map.mp (List.mem_toFinset.mp member)
    obtain ⟨installed, bound, pins⟩ := consistent.mem_releaseValues victim
    exact ⟨bound, v.id, installed, pins⟩
  · rintro key ⟨id, installed, pins⟩
    exact ⟨id, installed, (releases.pins id).symm.trans pins⟩

end Cache

end ReclaimableCache
