import ReclaimableCache.Cleaner
import ReclaimableCache.Metrics
import ReclaimableCache.PinQueue
import ReclaimableCache.Policy
import ReclaimableCache.ShardedMap

/-!
# Caches

A cache maps keys to slots, pins the slots that were touched last, and keeps a queue of slots whose
values are released but whose entries are still in the table. This module holds what a cache does
without calling a cleaner: looking up, storing, taking out, sweeping released entries out, and
choosing the values that a pass releases.
-/

namespace ReclaimableCache

/-- A cache. -/
structure Cache (K V : Type) where
  /-- Every slot that the cache ever made. -/
  pool : SlotPool K V
  table : ShardedMap K
  queue : PinQueue
  /-- Slots whose values are released and whose entries wait to be swept out, oldest first. -/
  pending : List SlotId
  /-- The number of passes that were made over the table to release values. -/
  passes : UInt64
  counters : Counters
  policy : Policy
  /-- How often the policy was asked. -/
  consulted : Nat
  watch : Option Watch
  cleaner : Option (Cleaner K V)

/-- A value that was just released. -/
structure Victim (K V : Type) where
  id : SlotId
  key : K
  value : V
  deriving DecidableEq

namespace SlotPool

variable {K V : Type}

/-- Releases the value in a slot and says which it was. -/
def detach (p : SlotPool K V) (id : SlotId) : SlotPool K V × Option (Victim K V) :=
  match p.get? id with
  | none => (p, none)
  | some slot =>
      (p.modify id fun _ => slot.detach.1, slot.detach.2.map fun value => ⟨id, slot.key, value⟩)

/-- Releases the value in a slot if no pin protects it. -/
def detachUnlessPinned (p : SlotPool K V) (id : SlotId) : SlotPool K V × Option (Victim K V) :=
  match p.get? id with
  | none => (p, none)
  | some slot =>
      (p.modify id fun _ => slot.detachUnlessPinned.1,
        slot.detachUnlessPinned.2.map fun value => ⟨id, slot.key, value⟩)

/-- Releases the values in those of several slots that no pin protects. -/
def detachAll (p : SlotPool K V) : List SlotId → SlotPool K V × List (Victim K V)
  | [] => (p, [])
  | id :: ids =>
      let first := p.detachUnlessPinned id
      let others := first.1.detachAll ids
      (others.1, first.2.toList ++ others.2)

end SlotPool

namespace Cache

variable {K V : Type}

/-- Counts something. -/
def tally (c : Cache K V) (count : Counters → Counters) : Cache K V :=
  { c with counters := count c.counters }

/-- The number of entries, with those that wait to be swept out. -/
def size (c : Cache K V) : Nat := c.table.size

/-- The number of pins. -/
def pinned (c : Cache K V) : Nat := c.queue.length

/-- The counters together with the present sizes. -/
def snapshot (c : Cache K V) : Snapshot :=
  { c.counters with
    entries := c.size.toUInt64
    pinned := c.pinned.toUInt64
    pinCapacity := c.queue.capacity.toUInt64 }

/-- Pins a slot as the one touched last. -/
def pin (c : Cache K V) (id : SlotId) : Cache K V :=
  let pinned := c.queue.pin c.pool id
  { c with queue := pinned.1, pool := pinned.2 }

/-- Takes all pins off. -/
def unpinAll (c : Cache K V) : Cache K V :=
  let cleared := c.queue.clear c.pool
  { c with queue := cleared.1, pool := cleared.2 }

/-- Takes all entries out. -/
def dropEntries (c : Cache K V) : Cache K V := { c with table := c.table.clear }

/-- Puts a slot whose value is released in line to be swept out. -/
def enqueue (c : Cache K V) (id : SlotId) : Cache K V := { c with pending := c.pending ++ [id] }

/-! ### Asking the policy -/

/-- What the policy is told now. -/
def usage (c : Cache K V) (board : PressureBoard) : Usage where
  entries := c.size
  pinCapacity := c.queue.capacity
  underPressure := c.watch.any fun w => w.isRaised board

/-- What the policy answers. -/
def budget (c : Cache K V) (usage : Usage) : Nat := c.policy.budget c.consulted usage

/-- The cache once it has asked its policy: a raise of the signal is seen once. -/
def consult (c : Cache K V) (board : PressureBoard) : Cache K V :=
  { c with
    watch := c.watch.map fun w => w.look board
    consulted := c.consulted + 1
    counters :=
      if (c.usage board).underPressure then c.counters.pressureEvent else c.counters }

/-! ### Choosing values to release -/

/-- Slots that a pass may release, in the order of the table from shard `start` on, until there are
    as many as the budget allows. -/
def candidates (c : Cache K V) (budget start : Nat) : List SlotId :=
  if budget = 0 then []
  else
    (c.table.visitFrom start (fun (found : Array SlotId) id =>
      let found := if c.pool.evictable id then found.push id else found
      (found, decide (found.size < budget))) #[]).toList

/-- The shard that the next pass starts at. -/
def startShard (c : Cache K V) : Nat := c.passes.toNat % c.table.shardCount

/-- The first half of a pass: values are released, and no cleaner is called yet. -/
def releaseValues (c : Cache K V) (budget : Nat) : Cache K V × List (Victim K V) :=
  let detached := c.pool.detachAll (c.candidates budget c.startShard)
  ({ c with pool := detached.1, passes := c.passes + 1 }, detached.2)

/-- Releases one value whatever pins there are. -/
def releaseValue (c : Cache K V) (id : SlotId) : Cache K V × Option (Victim K V) :=
  let detached := c.pool.detach id
  ({ c with pool := detached.1 }, detached.2)

/-- Counts a value released on request, and a failure of its cleaner. -/
def countReclaim (c : Cache K V) (failed : Bool) : Cache K V :=
  c.tally fun n => n.reclaim.cleanerFailure (if failed then 1 else 0)

section

variable [DecidableEq K]

/-- Releases the value under a key. -/
def releaseValueOf (c : Cache K V) (key : K) : Cache K V × Option (Victim K V) :=
  match c.table.get? key with
  | none => (c, none)
  | some id => c.releaseValue id

/-! ### Looking up -/

/-- The value under a key. -/
def peek (c : Cache K V) (key : K) : Option V := (c.table.get? key).bind c.pool.value?

/-- Whether there is a value under a key. -/
def containsKey (c : Cache K V) (key : K) : Bool := (c.table.get? key).any c.pool.isLive

/-- Looks a value up and pins its slot. The slot is pinned before it is read; an entry that has no
    value any more is taken out on the spot. -/
def touch (c : Cache K V) (key : K) : Cache K V × Option V :=
  match c.table.get? key with
  | none => (c.tally .miss, none)
  | some id =>
      let c := c.pin id
      match c.pool.value? id with
      | some value => (c.tally .hit, some value)
      | none => ({ c with table := c.table.eraseIfSame key id }.tally .miss, none)

/-! ### Storing and taking out -/

/-- Stores a value in a new slot, which is pinned before it enters the table, and returns the value
    that was there. -/
def store (c : Cache K V) (key : K) (value : V) : Cache K V × Option V :=
  let previous := c.table.get? key
  let id := c.pool.nextId
  let c := { c with pool := c.pool.add (.fresh key value) }.pin id
  let c := { c with table := c.table.insert key id }
  (c.tally (if previous.isSome then .update else .newInsert), previous.bind c.pool.value?)

/-- Takes the entry of a key out and returns its value. -/
def takeOut (c : Cache K V) (key : K) : Cache K V × Option V :=
  match c.table.get? key with
  | none => (c, none)
  | some id => ({ c with table := c.table.erase key }.tally .remove, c.pool.value? id)

/-- Takes an entry out if it leads to a given slot, and says whether it did. -/
def takeOutSlot (c : Cache K V) (key : K) (id : SlotId) : Cache K V × Bool :=
  ({ c with table := c.table.eraseIfSame key id }, c.table.isCurrent key id)

/-- The slot under a key, if it holds a given value. -/
def slotHolding? [BEq V] (c : Cache K V) (key : K) (value : V) : Option SlotId :=
  (c.table.get? key).filter fun id => (c.pool.value? id).any fun current => current == value

/-! ### Sweeping -/

/-- Takes the entries of slots out of a table, each only if it still leads to that slot, and counts
    those that were taken out. -/
def sweepOut (pool : SlotPool K V) : List SlotId → ShardedMap K → ShardedMap K × Nat
  | [], table => (table, 0)
  | id :: ids, table =>
      match pool.get? id with
      | none => sweepOut pool ids table
      | some slot =>
          let others := sweepOut pool ids (table.eraseIfSame slot.key id)
          (others.1, others.2 + if table.isCurrent slot.key id then 1 else 0)

/-- Sweeps the entries of released values out of the table, and counts them. -/
def sweep (c : Cache K V) : Cache K V × Nat :=
  let swept := sweepOut c.pool c.pending c.table
  ({ c with table := swept.1, pending := [] }.tally fun n => n.sweep swept.2.toUInt64, swept.2)

end

end Cache

end ReclaimableCache
