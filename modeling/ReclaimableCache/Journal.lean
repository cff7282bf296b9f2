import ReclaimableCache.Cleaner
import ReclaimableCache.Policy

/-!
# The journal

All that is noted while caches work, in the order in which it happens: events for people to read,
caches that were built, requests that were served, questions to release policies, calls of cleaners,
and the moves of slots that the sizes of a cache do not show.
-/

namespace ReclaimableCache

/-- How much an event matters. -/
inductive Level where
  | trace
  | debug
  | error
  deriving DecidableEq

/-- The word for a level. -/
def Level.word : Level → String
  | trace => "TRACE"
  | debug => "DEBUG"
  | error => "ERROR"

/-- Something that people may want to know. -/
inductive Event where
  /-- A cache is built; its number of shards is given if it was configured. -/
  | building (pinCapacity : Nat) (shards : Option Nat) (policy : String)
  /-- Entries without a value left the table. -/
  | swept (count : Nat)
  /-- A cache reacts to memory pressure. -/
  | pressure (budget : Nat)
  /-- A pass over the table released values. -/
  | released (count cleanerFailures : Nat)
  /-- A cleaner failed. -/
  | cleanerFailed (error : CacheError)
  /-- A cleaner panicked. -/
  | cleanerPanicked (panic : Panic)
  deriving DecidableEq

namespace Event

/-- How much an event matters. -/
def level : Event → Level
  | building .. => .debug
  | swept .. => .trace
  | pressure .. => .debug
  | released .. => .debug
  | cleanerFailed .. => .error
  | cleanerPanicked .. => .error

/-- What an event says. -/
def message : Event → String
  | building .. => "building soft cache"
  | swept .. => "swept reclaimed entries"
  | pressure .. => "memory pressure signalled"
  | released .. => "released unpinned entries"
  | cleanerFailed .. => "value cleaner failed while releasing a cached value"
  | cleanerPanicked .. => "value cleaner panicked while releasing a cached value"

/-- The particulars of an event by name. -/
def fields : Event → List (String × String)
  | building pinCapacity shards policy =>
      [("pin_capacity", toString pinCapacity), ("shards", (shards.map toString).getD "default"),
        ("strategy", policy)]
  | swept count => [("swept", toString count)]
  | pressure budget => [("budget", toString budget)]
  | released count cleanerFailures =>
      [("released", toString count), ("cleaner_failures", toString cleanerFailures)]
  | cleanerFailed error => [("error", error.message)]
  | cleanerPanicked panic => [("panic", panic.message)]

end Event

/-- One record of the journal. -/
inductive Record (K V : Type) where
  | event (event : Event)
  /-- A cache was built. -/
  | built (cache : CacheId)
  /-- A request was served; its reply is given now. -/
  | served (cache : CacheId) (request : Request K V) (reply : Reply V)
  /-- A cache asked its policy for a budget. -/
  | consultation (cache : CacheId) (usage : Usage) (budget : Nat)
  /-- A cleaner was called; the replies are those to its callbacks. -/
  | cleaning (call : Cleaning K V) (replies : List (Reply V))
  /-- A slot was pinned, because it was stored or because a look-up found it. -/
  | pinned (cache : CacheId) (slot : SlotId)
  /-- A look-up found a slot without a value and took its entry out. -/
  | dropped (cache : CacheId) (slot : SlotId)
  /-- A cache was cleared of a number of entries. -/
  | cleared (cache : CacheId) (entries : Nat)
  deriving DecidableEq

namespace Record

variable {K V : Type}

/-- The event in a record. -/
def event? : Record K V → Option Event
  | event e => some e
  | _ => none

/-- The call of a cleaner in a record, with the replies to its callbacks. -/
def cleaning? : Record K V → Option (Cleaning K V × List (Reply V))
  | cleaning call replies => some (call, replies)
  | _ => none

/-- The question to a policy in a record, with the cache that asked. -/
def consultation? : Record K V → Option (CacheId × Usage)
  | consultation cache usage _ => some (cache, usage)
  | _ => none

end Record

/-- All records so far, oldest first. -/
structure Journal (K V : Type) where
  records : Array (Record K V)

namespace Journal

variable {K V : Type}

/-- A journal without records. -/
def empty : Journal K V := ⟨#[]⟩

/-- Adds a record. -/
def add (j : Journal K V) (r : Record K V) : Journal K V := ⟨j.records.push r⟩

/-- The number of records. -/
def length (j : Journal K V) : Nat := j.records.size

/-- The records from a given one on. -/
def since (j : Journal K V) (start : Nat) : List (Record K V) :=
  (j.records.extract start j.records.size).toList

@[simp] theorem toList_add (j : Journal K V) (r : Record K V) :
    (j.add r).records.toList = j.records.toList ++ [r] := by
  simp [add]

end Journal

end ReclaimableCache
