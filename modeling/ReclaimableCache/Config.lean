import ReclaimableCache.Cache

/-!
# Configurations

What a cache is built from. A configuration is checked first: some value has to be pinned, and a
number of shards that is given has to be positive. Then the parts are made, which fails only if one
of them would be too large for any memory.
-/

namespace ReclaimableCache

open Text

/-- What a cache is built from. -/
structure Config (K V : Type) where
  pinCapacity : Nat
  /-- The number of shards, if it is not left to the cache. -/
  shards : Option Nat
  hasher : Hasher K
  cleaner : Option (Cleaner K V)
  policy : Policy
  /-- The pressure signal to watch. -/
  signal : Option SignalId
  /-- How many threads can run at a time. It decides the number of shards that is left to the cache,
      and nothing else. -/
  threads : Nat := 4

namespace Config

variable {K V : Type}

/-- The number of values that are pinned if nothing else is configured. -/
def defaultPinCapacity : Nat := 20

/-- The number of shards for each thread that can run at a time, if no number is configured. -/
def shardsPerThread : Nat := 4

/-- The configuration in which nothing is configured but the hasher. -/
def standard (hasher : Hasher K) : Config K V where
  pinCapacity := defaultPinCapacity
  shards := none
  hasher := hasher
  cleaner := none
  policy := .onPressure
  signal := none

/-- Whether a cache can be built. -/
def check (c : Config K V) : Except CacheError Unit :=
  if c.pinCapacity = 0 then .error .zeroPinCapacity
  else if c.shards = some 0 then .error .zeroShards
  else .ok ()

/-- The number of shards; one that is not configured has to fit a machine word. -/
def shardCount (c : Config K V) : Nat :=
  c.shards.getD (min (c.threads * shardsPerThread) (UInt64.size - 1))

/-- Makes the parts of a cache, which sees no raise of its signal that was made before. -/
def assemble (c : Config K V) (board : PressureBoard) : Except Panic (Cache K V) := do
  let table ← ShardedMap.create c.hasher c.shardCount
  let queue ← PinQueue.create c.pinCapacity
  return {
    pool := .empty
    table := table
    queue := queue
    pending := []
    passes := 0
    counters := {}
    policy := c.policy
    consulted := 0
    watch := c.signal.map (Watch.start board)
    cleaner := c.cleaner }

/-- How a configuration is shown. -/
def inspectWith (c : Config K V) (board : PressureBoard) : Inspection :=
  .record "SoftCacheBuilder"
    [("pin_capacity", inspect c.pinCapacity), ("shards", inspect c.shards),
      ("has_cleaner", inspect c.cleaner.isSome), ("strategy", inspect c.policy),
      ("pressure", inspect (c.signal.map board.inspectSignal))] true

end Config

end ReclaimableCache
