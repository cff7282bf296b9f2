import ReclaimableCache.Host

/-!
# Moves

What a host does at a time. No code of a caller runs in the course of a move, so that the states
between moves are all that such code can ever see. Each move changes one cache at most.
-/

namespace ReclaimableCache

/-- One thing that a host does. -/
inductive Move (K V : Type) where
  /-- Looks at everything and changes nothing. -/
  | view
  | build (config : Config K V)
  | raise (signal : SignalId)
  /-- Sweeps the entries of released values out of a cache. -/
  | sweep (cache : CacheId)
  /-- Asks the policy of a cache for a budget. -/
  | consult (cache : CacheId)
  /-- Chooses values within a budget and releases them all, the first half of a pass. -/
  | releaseValues (cache : CacheId) (budget : Nat)
  /-- Releases the value under a key, whatever pins there are. -/
  | releaseValue (cache : CacheId) (key : K)
  /-- Calls a cleaner on a value; what follows are its callbacks. -/
  | enterCleaner (cache : CacheId) (victim : Victim K V)
  /-- Ends a call of a cleaner, the replies to its callbacks being known. -/
  | leaveCleaner (call : Cleaning K V) (replies : List (Reply V)) (verdict : Verdict)
  /-- Puts a slot whose value is released in line to be swept out. -/
  | enqueue (cache : CacheId) (slot : SlotId)
  /-- Counts what a pass released and how often the cleaner failed in it. -/
  | closePass (cache : CacheId) (released failures : Nat)
  /-- Counts a value released on request. -/
  | countReclaim (cache : CacheId) (failed : Bool)
  /-- Looks a value up and pins its slot. -/
  | look (cache : CacheId) (key : K)
  /-- Stores a value in a new slot. -/
  | place (cache : CacheId) (key : K) (value : V)
  /-- Takes the entry of a key out. -/
  | takeOut (cache : CacheId) (key : K)
  /-- Takes an entry out if it leads to a given slot. -/
  | takeOutSlot (cache : CacheId) (key : K) (slot : SlotId)
  /-- Takes all pins off. -/
  | unpinAll (cache : CacheId)
  /-- Takes all entries out. -/
  | dropEntries (cache : CacheId)
  /-- Notes that a request was served. -/
  | noteServed (cache : CacheId) (request : Request K V) (reply : Reply V)

namespace Host

variable {K V : Type}

/-- Asks the policy of a cache for a budget. -/
def consult (h : Host K V) (c : CacheId) : Host K V × Nat :=
  match h.cache? c with
  | none => (h, 0)
  | some cache =>
      let usage := cache.usage h.board
      let budget := cache.budget usage
      let asked := (h.setCache c (cache.consult h.board)).record (.consultation c usage budget)
      (if usage.underPressure then asked.log (.pressure budget) else asked, budget)

/-- Calls a cleaner on a value; the call has its number and knows how many others have not
    returned. -/
def enterCleaner (h : Host K V) (c : CacheId) (victim : Victim K V) : Host K V × Cleaning K V :=
  ({ h with cleanings := h.cleanings + 1, active := h.active + 1 },
    { cache := c, slot := victim.id, serial := h.cleanings, active := h.active
      key := victim.key, value := victim.value })

/-- Ends a call of a cleaner. The call is in the journal before what came of it. -/
def leaveCleaner (h : Host K V) (call : Cleaning K V) (replies : List (Reply V)) :
    Verdict → Host K V × Disposal :=
  let after := { h with active := call.active }.record (.cleaning call replies)
  fun
  | .succeeded => (after, .cleaned)
  | .failed e => (after.log (.cleanerFailed e), .failed)
  | .panicked p => (after.log (.cleanerPanicked p), .failed)

/-- Counts what a pass released; a pass that released nothing is not reported. -/
def closePass (h : Host K V) (c : CacheId) (released failures : Nat) : Host K V :=
  let h := if released = 0 then h else h.log (.released released failures)
  h.modifyCache c fun cache => cache.tally fun n =>
    (n.evict released.toUInt64).cleanerFailure failures.toUInt64

/-- Takes all entries of a cache out. -/
def dropEntries (h : Host K V) (c : CacheId) : Host K V :=
  match h.cache? c with
  | none => h
  | some cache => (h.setCache c cache.dropEntries).record (.cleared c cache.size)

section

variable [DecidableEq K]

/-- Sweeps the entries of released values out of a cache. -/
def sweep (h : Host K V) (c : CacheId) : Host K V :=
  let swept := h.onCache c 0 Cache.sweep
  if swept.2 = 0 then swept.1 else swept.1.log (.swept swept.2)

/-- Looks a value up in a cache, and pins it. -/
def look (h : Host K V) (c : CacheId) (key : K) : Host K V × Option V :=
  match h.cache? c with
  | none => (h, none)
  | some cache =>
      let looked := cache.touch key
      let h := h.setCache c looked.1
      match cache.table.get? key with
      | none => (h, looked.2)
      | some id =>
          let h := h.record (.pinned c id)
          (if looked.2.isSome then h else h.record (.dropped c id), looked.2)

/-- Stores a value in a cache, and returns the one that was there. -/
def place (h : Host K V) (c : CacheId) (key : K) (value : V) : Host K V × Option V :=
  match h.cache? c with
  | none => (h, none)
  | some cache =>
      let stored := cache.store key value
      ((h.setCache c stored.1).record (.pinned c cache.pool.nextId), stored.2)

end

end Host

namespace Move

variable {K V : Type}

/-- What a move gives back. -/
abbrev Result : Move K V → Type
  | view => Host K V
  | build _ => Except Fault Unit
  | consult _ => Nat
  | releaseValues .. => List (Victim K V)
  | releaseValue .. => Option (Victim K V)
  | enterCleaner .. => Cleaning K V
  | leaveCleaner .. => Disposal
  | look .. => Option V
  | place .. => Option V
  | takeOut .. => Option V
  | takeOutSlot .. => Bool
  | raise .. => Unit
  | sweep .. => Unit
  | enqueue .. => Unit
  | closePass .. => Unit
  | countReclaim .. => Unit
  | unpinAll .. => Unit
  | dropEntries .. => Unit
  | noteServed .. => Unit

/-- Makes a move. -/
def make [DecidableEq K] (h : Host K V) : (m : Move K V) → Host K V × m.Result
  | view => (h, h)
  | build config => h.build config
  | raise signal => (h.raise signal, ())
  | sweep c => (h.sweep c, ())
  | consult c => h.consult c
  | releaseValues c budget => h.onCache c [] fun cache => cache.releaseValues budget
  | releaseValue c key => h.onCache c none fun cache => cache.releaseValueOf key
  | enterCleaner c victim => h.enterCleaner c victim
  | leaveCleaner call replies verdict => h.leaveCleaner call replies verdict
  | enqueue c slot => (h.modifyCache c fun cache => cache.enqueue slot, ())
  | closePass c released failures => (h.closePass c released failures, ())
  | countReclaim c failed => (h.modifyCache c fun cache => cache.countReclaim failed, ())
  | look c key => h.look c key
  | place c key value => h.place c key value
  | takeOut c key => h.onCache c none fun cache => cache.takeOut key
  | takeOutSlot c key slot => h.onCache c false fun cache => cache.takeOutSlot key slot
  | unpinAll c => (h.modifyCache c Cache.unpinAll, ())
  | dropEntries c => (h.dropEntries c, ())
  | noteServed c request reply => (h.record (.served c request reply), ())

end Move

end ReclaimableCache
