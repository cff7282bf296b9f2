import ReclaimableCache.Fault
import ReclaimableCache.Pressure

/-!
# Routines

Code of a caller that runs in the middle of a cache's own work, such as a cleaner, is held as data:
a `Routine` asks caches to do things, may look at each reply before it goes on, and ends with a
result.

An operation in the course of which code of a caller runs is made up of several requests, with that
code between them: a bulk insert begins once and then stores pair after pair, and a value is computed
after a look-up that found none and before it is stored.
-/

namespace ReclaimableCache

/-- The number of a cache. -/
abbrev CacheId := Nat

/-- What a cache can be asked from inside a routine. -/
inductive Request (K V : Type) where
  | get (key : K)
  | peek (key : K)
  | containsKey (key : K)
  /-- Stores a value, which the caller may go on sharing. -/
  | insert (key : K) (value : V)
  /-- Stores a value only if there is one. -/
  | insertOptional (key : K) (value : Option V)
  /-- Begins a bulk insert: values are released at most once, now. -/
  | beginBulk
  /-- Stores the next pair of a bulk insert. -/
  | storeNext (key : K) (value : V)
  | remove (key : K)
  /-- Takes the entry of a key out if it leads to the slot that was made so many slots before the one
      that was made last, as a walk does with an entry that it has seen. -/
  | removeRecent (key : K) (age : Nat)
  | reclaim (key : K)
  | releaseUnpinned
  | clear
  | pending
  | length
  | raise (signal : SignalId)
  deriving DecidableEq

/-- What comes back from a request. -/
inductive Reply (V : Type) where
  | value (value : Option V)
  | flag (flag : Bool)
  | count (count : Nat)
  | done
  | error (error : CacheError)
  /-- There is no such cache, and nothing was done. -/
  | noCache
  deriving DecidableEq

/-- The replies that are noted: a request to a cache that is not there leaves none. -/
def Reply.noted {V : Type} : Reply V → List (Reply V)
  | noCache => []
  | reply => [reply]

/-- Code that makes requests to caches and ends with a result. -/
inductive Routine (K V α : Type) where
  | done (result : α)
  | ask (cache : CacheId) (request : Request K V) (next : Reply V → Routine K V α)

namespace Routine

variable {K V α : Type}

/-- Makes requests to one cache in turn, whatever the replies. -/
def inTurn (cache : CacheId) : List (Request K V) → α → Routine K V α
  | [], result => done result
  | request :: requests, result => ask cache request fun _ => inTurn cache requests result

variable {β : Type}

/-- Goes on with other code that depends on a result. -/
def andThen : Routine K V α → (α → Routine K V β) → Routine K V β
  | done result, f => f result
  | ask cache request next, f => ask cache request fun reply => (next reply).andThen f

/-- Stores what a source gives until it is exhausted or panics. -/
def storeAll (cache : CacheId) :
    List (Routine K V (Except Panic (K × V))) → Routine K V (Except Panic Unit)
  | [] => done (.ok ())
  | next :: rest => next.andThen fun
      | .error p => done (.error p)
      | .ok e => ask cache (.storeNext e.1 e.2) fun _ => storeAll cache rest

/-- Stores what a source gives as one operation. -/
def insertAll (cache : CacheId) (source : List (Routine K V (Except Panic (K × V)))) :
    Routine K V (Except Panic Unit) :=
  ask cache .beginBulk fun _ => storeAll cache source

/-- Stores a value, if the computation of it did not panic. -/
def storeComputed (cache : CacheId) (key : K) :
    Except Panic V → Routine K V (Except Panic (Option V))
  | .error p => done (.error p)
  | .ok value => ask cache (.insert key value) fun _ => done (.ok (some value))

/-- Looks a value up, or computes and stores it. There is no value if there is no such cache. -/
def getOrCompute (cache : CacheId) (key : K) (compute : Routine K V (Except Panic V)) :
    Routine K V (Except Panic (Option V)) :=
  ask cache (.get key) fun
    | .value (some value) => done (.ok (some value))
    | .value none => compute.andThen (storeComputed cache key)
    | _ => done (.ok none)

end Routine

/-- A question that a predicate was asked. -/
structure Heard (K V : Type) where
  /-- The entry that it was asked about. -/
  item : K × V
  /-- The replies to its requests. -/
  replies : List (Reply V)

/-- Code that says of an entry whether it is to be kept. What it was asked before is known to it. -/
abbrev Predicate (K V : Type) := List (Heard K V) → K → V → Routine K V Bool

end ReclaimableCache
