import ReclaimableCache.Cache.Cursor
import ReclaimableCache.Host.Serve

/-!
# Operations with code of the caller

Operations on a cache in the course of which code of the caller runs: the source of a bulk insert,
the computation of a missing value, and the predicate of `retain`. Such code may make requests to
any cache, and the first two may panic; what was done by then stays done.
-/

namespace ReclaimableCache

namespace Work

variable {K V : Type} [DecidableEq K]

/-- Runs code of the caller. -/
def follow {α : Type} (limit : Nat) (routine : Routine K V α) : Work K V α :=
  Prod.snd <$> routine.work (Host.serve limit)

/-- Stores a value only if there is one, and returns the value that was there. -/
def insertOptional (limit : Nat) (c : CacheId) (key : K) (value : Option V) :
    Work K V (Except CacheError (Option V)) :=
  match value with
  | none => pure (.error .absentValue)
  | some value => .ok <$> insert (Host.runCallbacks limit) c key value

/-- Stores a value; returns the one that was there, and whether a look-up now finds the very value
    that was stored. -/
def insertShared (limit : Nat) (c : CacheId) (key : K) (value : V) :
    Work K V (Option V × Bool) := do
  drain (Host.runCallbacks limit) c
  let before ← make .view
  let previous ← make (.place c key value)
  let after ← make .view
  return (previous, match before.cache? c, after.cache? c with
    | some earlier, some later =>
        later.table.isCurrent key earlier.pool.nextId && later.pool.isLive earlier.pool.nextId
    | _, _ => false)

/-- Stores values one after the other, each as an operation of its own. -/
def insertEach (limit : Nat) (c : CacheId) : List (K × V) → Work K V Unit
  | [] => pure ()
  | e :: rest => do
      let _ ← insert (Host.runCallbacks limit) c e.1 e.2
      insertEach limit c rest

/-- Stores what a source gives until it is exhausted or panics. -/
def storeAll (limit : Nat) (c : CacheId) :
    List (Routine K V (Except Panic (K × V))) → Work K V (Except Panic Unit)
  | [] => pure (.ok ())
  | next :: rest => do
      match ← follow limit next with
      | .error p => return .error p
      | .ok e =>
          let _ ← make (.place c e.1 e.2)
          storeAll limit c rest

/-- Stores what a source gives as one operation: values are released at most once, before the source
    is asked. -/
def insertAll (limit : Nat) (c : CacheId) (source : List (Routine K V (Except Panic (K × V)))) :
    Work K V (Except Panic Unit) := do
  drain (Host.runCallbacks limit) c
  storeAll limit c source

/-- Looks a value up, or computes and stores it; says whether it was computed. -/
def getOrCompute (limit : Nat) (c : CacheId) (key : K) (compute : Routine K V (Except Panic V)) :
    Work K V (Except Panic (V × Bool)) := do
  match ← get (Host.runCallbacks limit) c key with
  | some value => return .ok (value, false)
  | none =>
      match ← follow limit compute with
      | .error p => return .error p
      | .ok value =>
          let _ ← insert (Host.runCallbacks limit) c key value
          return .ok (value, true)

/-- How far `retain` has come. -/
structure Retention (K V : Type) where
  /-- The number of entries taken out. -/
  removed : Nat
  /-- What the predicate was asked. -/
  heard : List (Heard K V)

namespace Retention

/-- Nothing is asked yet. -/
def start : Retention K V := ⟨0, []⟩

/-- The entries that the predicate was asked about. -/
def seen (r : Retention K V) : List (K × V) := r.heard.map Heard.item

end Retention

/-- Asks the predicate about one entry, if it is still there, and takes the entry out if it is not
    to be kept and still there after the question. -/
def retainEntry (limit : Nat) (c : CacheId) (keep : Predicate K V) (r : Retention K V)
    (e : K × SlotId) : Work K V (Retention K V) := do
  let h ← make .view
  match (h.cache? c).bind fun cache => Cursor.current? cache e with
  | none => return r
  | some item =>
      let answered ← (keep r.heard item.1 item.2).work (Host.serve limit)
      let heard := r.heard ++ [⟨item, answered.1⟩]
      if answered.2 then return ⟨r.removed, heard⟩
      let taken ← make (.takeOutSlot c e.1 e.2)
      return ⟨r.removed + if taken then 1 else 0, heard⟩

/-- Goes through one shard as it is when the walk reaches it. -/
def retainShard (limit : Nat) (c : CacheId) (keep : Predicate K V) (r : Retention K V)
    (index : Nat) : Work K V (Retention K V) := do
  let h ← make .view
  match h.cache? c with
  | none => return r
  | some cache => (cache.table.shardEntries index).foldlM (retainEntry limit c keep) r

/-- Takes out the entries that a predicate does not want to keep. -/
def retain (limit : Nat) (c : CacheId) (keep : Predicate K V) : Work K V (Retention K V) := do
  let h ← make .view
  match h.cache? c with
  | none => return .start
  | some cache => (List.range cache.table.shardCount).foldlM (retainShard limit c keep) .start

end Work

namespace Host

variable {K V : Type} [DecidableEq K]

/-- What becomes of a host when a released value is disposed of. -/
def dispose (h : Host K V) (run : CallbackRunner K V) (cleaner : Option (Cleaner K V))
    (c : CacheId) (victim : Victim K V) : Host K V × Disposal :=
  (Work.dispose run cleaner c victim).run h

/-- What becomes of a host when one of its caches stores what a source gives. -/
def insertAll (limit : Nat) (h : Host K V) (c : CacheId)
    (source : List (Routine K V (Except Panic (K × V)))) : Host K V × Except Panic Unit :=
  (Work.insertAll limit c source).run h

end Host

end ReclaimableCache
