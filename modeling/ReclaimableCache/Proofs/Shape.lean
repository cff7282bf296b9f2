import ReclaimableCache.Proofs.Effect
import ReclaimableCache.Proofs.Work

/-!
# The shape of a table

How many shards a table has, and which of them a key belongs in, is settled when a cache is built. No
move changes it.
-/

namespace ReclaimableCache

variable {K V : Type}

/-- Two tables have equally many shards and keep keys in the same ones. -/
structure ShardedMap.SameShape (m n : ShardedMap K) : Prop where
  hasher : n.hasher = m.hasher
  shards : n.shards.size = m.shards.size

namespace ShardedMap

theorem SameShape.refl (m : ShardedMap K) : m.SameShape m := ⟨rfl, rfl⟩

theorem SameShape.trans {m n o : ShardedMap K} (first : m.SameShape n) (second : n.SameShape o) :
    m.SameShape o :=
  ⟨second.hasher.trans first.hasher, second.shards.trans first.shards⟩

/-- In tables of one shape a key belongs in the same shard. -/
theorem SameShape.shardIndex {m n : ShardedMap K} (same : m.SameShape n) (key : K) :
    n.shardIndex key = m.shardIndex key := by
  rw [ShardedMap.shardIndex, ShardedMap.shardIndex, shardCount, shardCount, same.hasher, same.shards]

/-- What is done to one shard leaves the others where they are. -/
theorem sameShape_modifyShard (m : ShardedMap K) (index size : Nat) (f : Shard K → Shard K) :
    m.SameShape (m.modifyShard index f size) :=
  ⟨rfl, Array.size_modify⟩

theorem sameShape_clear (m : ShardedMap K) : m.SameShape m.clear := ⟨rfl, Array.size_map⟩

variable [DecidableEq K]

theorem sameShape_erase (m : ShardedMap K) (key : K) : m.SameShape (m.erase key) := by
  rw [erase]
  split
  · exact m.sameShape_modifyShard _ _ _
  · exact .refl m

/-- Nothing happens to the shape, whether or not the slot is still installed. -/
theorem sameShape_eraseIfSame (m : ShardedMap K) (key : K) (id : SlotId) :
    m.SameShape (m.eraseIfSame key id) := by
  rw [eraseIfSame]
  split
  · exact m.sameShape_erase key
  · exact .refl m

/-- However many dead entries are swept out. -/
theorem sameShape_sweepOut (pool : SlotPool K V) (ids : List SlotId) (m : ShardedMap K) :
    m.SameShape (Cache.sweepOut pool ids m).1 := by
  induction ids generalizing m with
  | nil => exact .refl m
  | cons id ids ih =>
    rw [Cache.sweepOut]
    split
    · exact ih m
    · exact (m.sameShape_eraseIfSame _ id).trans (ih _)

end ShardedMap

variable [DecidableEq K]

/-- No move changes the shape of a table. -/
theorem Cache.sameShape_effect (c : Cache K V) (m : Move K V) (board : PressureBoard) :
    c.table.SameShape (m.effect board c).table := by
  cases m with
  | sweep d => exact ShardedMap.sameShape_sweepOut _ _ _
  | look d key =>
    rw [Move.effect, touch]
    split
    · exact .refl _
    · dsimp only
      split
      · exact .refl _
      · exact ShardedMap.sameShape_eraseIfSame _ _ _
  | place d key value => exact ShardedMap.sameShape_modifyShard _ _ _ _
  | releaseValue d key =>
    rw [Move.effect, releaseValueOf]
    split <;> exact .refl _
  | takeOut d key =>
    rw [Move.effect, takeOut]
    split
    · exact .refl _
    · exact ShardedMap.sameShape_erase _ _
  | takeOutSlot d key slot => exact ShardedMap.sameShape_eraseIfSame _ _ _
  | dropEntries d => exact ShardedMap.sameShape_clear _
  | _ => exact .refl _

namespace Host

/-- A cache that the host has keeps its keys in certain shards. -/
def Lays (h : Host K V) (c : CacheId) (home : K → Nat) (count : Nat) : Prop :=
  ∃ cache, h.cache? c = some cache ∧ cache.table.shardIndex = home ∧
    cache.table.shardCount = count

variable {h : Host K V} {c : CacheId} {home : K → Nat} {count : Nat}

/-- A table is laid out once and for all. -/
theorem Lays.make (lays : h.Lays c home count) (m : Move K V) :
    (m.make h).1.Lays c home count := by
  obtain ⟨cache, found, rfl, rfl⟩ := lays
  have same : cache.table.SameShape (m.effectOn h.board c cache).table := by
    rw [Move.effectOn]
    split
    · exact cache.sameShape_effect m h.board
    · exact .refl _
  exact ⟨_, Move.cache?_make_of_some found m, funext same.shardIndex, same.shards⟩

theorem Lays.run {α : Type} (lays : h.Lays c home count) (w : Work K V α) :
    (w.run h).1.Lays c home count :=
  (w.invariant (P := fun h => h.Lays c home count) (fun m _ holds => holds.make m) lays).2

omit [DecidableEq K] in
/-- A cache has one layout. -/
theorem Lays.unique {home' : K → Nat} {count' : Nat} (lays : h.Lays c home count)
    (also : h.Lays c home' count') : home = home' ∧ count = count' := by
  obtain ⟨cache, found, rfl, rfl⟩ := lays
  obtain ⟨same, there, rfl, rfl⟩ := also
  rw [found] at there
  cases there
  exact ⟨rfl, rfl⟩

end Host

end ReclaimableCache
