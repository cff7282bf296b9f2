import ReclaimableCache.Host.Release

/-!
# Serving requests

The operations on a cache that may also be asked for from inside a cleaner. The callbacks of a
cleaner are served in the same way, so that the operations call each other; a limit on the nesting
of callbacks bounds this. `Host.serve limit` serves a request, and a cleaner that is called at
nesting `limit` or deeper makes no callbacks.
-/

namespace ReclaimableCache

/-- Serves the requests of a routine in turn; gives its result and the replies to it. -/
def Routine.work {K V α : Type} (serve : CacheId → Request K V → Work K V (Reply V)) :
    Routine K V α → Work K V (List (Reply V) × α)
  | done result => pure ([], result)
  | ask c request next => do
      let reply ← serve c request
      let rest ← (next reply).work serve
      return (reply.noted ++ rest.1, rest.2)

namespace Work

variable {K V : Type}

/-- Looks a value up and pins it. -/
def get (run : CallbackRunner K V) (c : CacheId) (key : K) : Work K V (Option V) := do
  drain run c
  make (.look c key)

/-- Stores a value and returns the one that was there. -/
def insert (run : CallbackRunner K V) (c : CacheId) (key : K) (value : V) :
    Work K V (Option V) := do
  drain run c
  make (.place c key value)

/-- Takes an entry out and returns its value. -/
def remove (run : CallbackRunner K V) (c : CacheId) (key : K) : Work K V (Option V) := do
  drain run c
  make (.takeOut c key)

/-- Releases the value under a key, whatever pins there are, and says whether there was one. The
    entry waits to be swept out from the moment the cleaner returns. -/
def reclaim (run : CallbackRunner K V) (c : CacheId) (key : K) : Work K V Bool := do
  match ← make (.releaseValue c key) with
  | none => return false
  | some victim =>
      let disposal ← clean run c victim
      make (.countReclaim c (disposal = .failed))
      make (.enqueue c victim.id)
      return true

/-- Releases every value that no pin protects, sweeps, and returns how many there were. -/
def releaseUnpinned (run : CallbackRunner K V) (c : CacheId) : Work K V Nat := do
  let released ← evict run c Policy.unlimited
  make (.sweep c)
  return released

/-- Takes all pins off and all entries out; no cleaner is called. -/
def clear (c : CacheId) : Work K V Unit := do
  make (.unpinAll c)
  make (.sweep c)
  make (.dropEntries c)

/-- Takes the entry of a key out if it leads to a given slot. -/
def removeSlot (c : CacheId) (key : K) : Option SlotId → Work K V Bool
  | none => pure false
  | some id => make (.takeOutSlot c key id)

/-- Carries out a request to a cache that is there. -/
def performOn [DecidableEq K] (run : CallbackRunner K V) (c : CacheId) (cache : Cache K V) :
    Request K V → Work K V (Reply V)
  | .get key => .value <$> get run c key
  | .peek key => pure (.value (cache.peek key))
  | .containsKey key => pure (.flag (cache.containsKey key))
  | .insert key value => .value <$> insert run c key value
  | .insertOptional _ none => pure (.error .absentValue)
  | .insertOptional key (some value) => .value <$> insert run c key value
  | .beginBulk => do drain run c; return .done
  | .storeNext key value => .value <$> make (.place c key value)
  | .remove key => .value <$> remove run c key
  | .removeRecent key age => .flag <$> removeSlot c key (cache.pool.recent? age)
  | .reclaim key => .flag <$> reclaim run c key
  | .releaseUnpinned => .count <$> releaseUnpinned run c
  | .clear => do clear c; return .done
  | .pending => pure (.count cache.pending.length)
  | .length => pure (.count cache.size)
  | .raise signal => do make (.raise signal); return .done

end Work

namespace Host

variable {K V : Type}

/-- Carries out a request, given a way to run the callbacks of cleaners. -/
def perform [DecidableEq K] (run : CallbackRunner K V) (c : CacheId) (request : Request K V) :
    Work K V (Reply V) := do
  let h ← .make .view
  match h.cache? c with
  | none => return .noCache
  | some cache =>
      let reply ← .performOn run c cache request
      .make (.noteServed c request reply)
      return reply

/-- Runs callbacks that may be nested `limit` deep; with no nesting left they are not made. -/
def runCallbacks [DecidableEq K] : Nat → CallbackRunner K V
  | 0 => fun _ => pure []
  | limit + 1 => fun routine => Prod.fst <$> routine.work (perform (runCallbacks limit))

/-- Serves a request; callbacks may be nested `limit` deep. -/
def serve [DecidableEq K] (limit : Nat) (c : CacheId) (request : Request K V) :
    Work K V (Reply V) :=
  perform (runCallbacks limit) c request

end Host

end ReclaimableCache
