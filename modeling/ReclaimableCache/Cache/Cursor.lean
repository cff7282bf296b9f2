import ReclaimableCache.Cache.Entries

/-!
# Cursors

A cursor walks over a cache that may change between its steps. It copies a shard when it reaches it
and then passes over entries that are no longer live or no longer in the table. It remembers the
entry that it yielded last, which can be taken out through it once. A walk shows whole entries, or
only their keys, or only their values; one that shows values only tells no key.
-/

namespace ReclaimableCache

/-- What a walk shows of an entry. -/
inductive Facet where
  | entry
  | key
  | value
  deriving DecidableEq

/-- An entry as a walk shows it. -/
inductive Shown (K V : Type) where
  | entry (key : K) (value : V)
  | key (key : K)
  | value (value : V)
  deriving DecidableEq

namespace Shown

variable {K V : Type}

/-- An entry of which one facet is shown. -/
def ofEntry (e : K × V) : Facet → Shown K V
  | .entry => .entry e.1 e.2
  | .key => .key e.1
  | .value => .value e.2

/-- The key, if it is shown. -/
def key? : Shown K V → Option K
  | .entry k _ | .key k => some k
  | .value _ => none

end Shown

/-- A walk over a cache. -/
structure Cursor (K : Type) where
  /-- The shard that is copied next. -/
  nextShard : Nat
  /-- What is left of the copied shard. -/
  upcoming : List (K × SlotId)
  /-- The entry that was yielded last. -/
  last : Option (K × SlotId)
  deriving DecidableEq

namespace Cursor

variable {K V : Type}

/-- A cursor before the first shard. -/
def start : Cursor K := ⟨0, [], none⟩

section

variable [DecidableEq K]

/-- What a cursor yields for an entry that it copied earlier: nothing if the entry lost its value or
    left the table since. -/
def current? (c : Cache K V) (e : K × SlotId) : Option (K × V) :=
  if c.table.isCurrent e.1 e.2 then c.liveEntry? e else none

/-- The first of several copied entries that can be yielded, what is yielded for it, and the entries
    behind it. -/
def firstCurrent (c : Cache K V) :
    List (K × SlotId) → Option ((K × SlotId) × (K × V) × List (K × SlotId))
  | [] => none
  | e :: rest =>
      match current? c e with
      | some item => some (e, item, rest)
      | none => firstCurrent c rest

/-- Goes on to the next entry, copying at most `shardsLeft` more shards. -/
def advance (c : Cache K V) : Nat → Cursor K → Cursor K × Option (K × V)
  | shardsLeft, cursor =>
      match firstCurrent c cursor.upcoming with
      | some (e, item, rest) => ({ cursor with upcoming := rest, last := some e }, some item)
      | none =>
          match shardsLeft, c.table.shardEntries? cursor.nextShard with
          | shardsLeft + 1, some entries =>
              advance c shardsLeft
                { cursor with nextShard := cursor.nextShard + 1, upcoming := entries }
          | _, _ => ({ cursor with upcoming := [] }, none)

/-- Yields the next entry, or nothing at the end. -/
def next (c : Cache K V) (cursor : Cursor K) : Cursor K × Option (K × V) :=
  advance c (c.table.shardCount - cursor.nextShard) cursor

/-- The entries that the cursor still has to look at if nothing changes any more. -/
def ahead (c : Cache K V) (cursor : Cursor K) : List (K × SlotId) :=
  cursor.upcoming
    ++ ((List.range c.table.shardCount).drop cursor.nextShard).flatMap c.table.shardEntries

/-- Yields all remaining entries at once. -/
def rest (c : Cache K V) (cursor : Cursor K) : Cursor K × List (K × V) :=
  let yielded := (cursor.ahead c).filter fun e => (current? c e).isSome
  ({ nextShard := max cursor.nextShard c.table.shardCount
     upcoming := []
     last := (yielded.getLast?).or cursor.last },
    yielded.filterMap (current? c))

end

/-- The cursor once the entry that it yielded last is taken out through it. -/
def forgetLast (cursor : Cursor K) : Cursor K := { cursor with last := none }

end Cursor

end ReclaimableCache
