import ReclaimableCache.Text.Inspection

/-!
# Metrics

Counters of what a cache has done, and snapshots that add its present sizes to them. All counters
are 64-bit words and wrap.
-/

namespace ReclaimableCache

open Text

/-- What a cache has done since it was built. -/
structure Counters where
  hits : UInt64 := 0
  misses : UInt64 := 0
  newInserts : UInt64 := 0
  updates : UInt64 := 0
  removals : UInt64 := 0
  reclaimed : UInt64 := 0
  evicted : UInt64 := 0
  swept : UInt64 := 0
  cleanerFailures : UInt64 := 0
  pressureEvents : UInt64 := 0
  deriving DecidableEq

namespace Counters

/-- Counts a lookup that found a value. -/
def hit (c : Counters) : Counters := { c with hits := c.hits + 1 }

/-- Counts a lookup that found none. -/
def miss (c : Counters) : Counters := { c with misses := c.misses + 1 }

/-- Counts a value stored under a new key. -/
def newInsert (c : Counters) : Counters := { c with newInserts := c.newInserts + 1 }

/-- Counts a value stored over an entry. -/
def update (c : Counters) : Counters := { c with updates := c.updates + 1 }

/-- Counts an entry taken out on request. -/
def remove (c : Counters) : Counters := { c with removals := c.removals + 1 }

/-- Counts a value released on request. -/
def reclaim (c : Counters) : Counters := { c with reclaimed := c.reclaimed + 1 }

/-- Counts values released by a pass, which are also reclaimed. -/
def evict (c : Counters) (n : UInt64) : Counters :=
  { c with reclaimed := c.reclaimed + n, evicted := c.evicted + n }

/-- Counts entries swept out after their values were released. -/
def sweep (c : Counters) (n : UInt64) : Counters := { c with swept := c.swept + n }

/-- Counts cleaners that failed. -/
def cleanerFailure (c : Counters) (n : UInt64) : Counters :=
  { c with cleanerFailures := c.cleanerFailures + n }

/-- Counts a reaction to memory pressure. -/
def pressureEvent (c : Counters) : Counters := { c with pressureEvents := c.pressureEvents + 1 }

/-- The counters by name, in the order in which they are shown. -/
def fields (c : Counters) : List (String × UInt64) :=
  [("get_hits", c.hits), ("get_misses", c.misses), ("insert_new", c.newInserts),
    ("insert_updates", c.updates), ("removes", c.removals), ("reclaimed", c.reclaimed),
    ("evicted", c.evicted), ("swept", c.swept), ("cleaner_failures", c.cleanerFailures),
    ("pressure_events", c.pressureEvents)]

instance : Inspect Counters where
  inspect c := .record "SoftCacheCounters" (c.fields.map fun f => (f.1, inspect f.2)) false

end Counters

/-- The counters together with the present sizes of the cache. -/
structure Snapshot extends Counters where
  entries : UInt64 := 0
  pinned : UInt64 := 0
  pinCapacity : UInt64 := 0
  deriving DecidableEq

namespace Snapshot

/-- The sizes by name, in the order in which they are shown. -/
def gauges (s : Snapshot) : List (String × UInt64) :=
  [("cache_len", s.entries), ("pinned_len", s.pinned), ("pin_capacity", s.pinCapacity)]

/-- All numbers by name, counters first. -/
def fields (s : Snapshot) : List (String × UInt64) := s.toCounters.fields ++ s.gauges

/-- The share of lookups that found a value, zero before the first lookup. -/
def hitRate (s : Snapshot) : Float :=
  let lookups := s.hits + s.misses
  if lookups = 0 then 0.0 else s.hits.toFloat / lookups.toFloat

instance : Inspect Snapshot where
  inspect s := .record "SoftCacheMetricsSnapshot" (s.fields.map fun f => (f.1, inspect f.2)) false

end Snapshot

end ReclaimableCache
