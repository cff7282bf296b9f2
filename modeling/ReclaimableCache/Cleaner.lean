import ReclaimableCache.Fault
import ReclaimableCache.Routine

/-!
# Cleaners

A cleaner is called with each value that is released. Before it returns it may make requests to
caches, its `callbacks`; then it succeeds, fails or panics, its `verdict`. The two are apart, so
that one can be changed without the other.
-/

namespace ReclaimableCache

/-- One call of a cleaner. -/
structure Cleaning (K V : Type) where
  /-- The cache that the value was in. -/
  cache : CacheId
  /-- The slot that the value was in. -/
  slot : SlotId
  /-- The number of calls made before this one. -/
  serial : Nat
  /-- The number of calls that had not returned when this one was made. -/
  active : Nat
  key : K
  value : V
  deriving DecidableEq

/-- How a call of a cleaner ends. -/
inductive Verdict where
  | succeeded
  | failed (error : CacheError)
  | panicked (panic : Panic)
  deriving DecidableEq

/-- What is called with released values. -/
structure Cleaner (K V : Type) where
  callbacks : Cleaning K V → Routine K V Unit
  verdict : Cleaning K V → Verdict

/-- What became of a released value. -/
inductive Disposal where
  /-- There was no cleaner to call. -/
  | skipped
  /-- The cleaner succeeded. -/
  | cleaned
  /-- The cleaner failed or panicked. -/
  | failed
  deriving DecidableEq

end ReclaimableCache
