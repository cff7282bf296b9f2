import ReclaimableCache.Config
import ReclaimableCache.Journal

/-!
# Hosts

A host holds caches, the pressure signals that they watch, and the journal. Caches are named by the
order in which their building was begun; one that could not be built leaves its number unused.
-/

namespace ReclaimableCache

open Text

/-- Caches that live together. -/
structure Host (K V : Type) where
  caches : Array (Option (Cache K V))
  board : PressureBoard
  journal : Journal K V
  /-- How many calls of cleaners were made. -/
  cleanings : Nat
  /-- How many of them have not returned. -/
  active : Nat

namespace Host

variable {K V : Type}

/-- A host without caches. -/
def empty (board : PressureBoard) : Host K V := ⟨#[], board, .empty, 0, 0⟩

/-- A cache by its number. -/
def cache? (h : Host K V) (c : CacheId) : Option (Cache K V) := h.caches[c]?.join

/-- The number that the next cache gets. -/
def nextCache (h : Host K V) : CacheId := h.caches.size

/-- Puts a cache in the place of the one with a number. -/
def setCache (h : Host K V) (c : CacheId) (cache : Cache K V) : Host K V :=
  { h with caches := h.caches.setIfInBounds c (some cache) }

/-- Changes a cache and takes a result from it; without the cache the result is `otherwise`. -/
def onCache {α : Type} (h : Host K V) (c : CacheId) (otherwise : α)
    (f : Cache K V → Cache K V × α) : Host K V × α :=
  match h.cache? c with
  | none => (h, otherwise)
  | some cache =>
      let changed := f cache
      (h.setCache c changed.1, changed.2)

/-- Changes a cache. -/
def modifyCache (h : Host K V) (c : CacheId) (f : Cache K V → Cache K V) : Host K V :=
  match h.cache? c with
  | none => h
  | some cache => h.setCache c (f cache)

/-- Adds a record to the journal. -/
def record (h : Host K V) (r : Record K V) : Host K V := { h with journal := h.journal.add r }

/-- Logs an event. -/
def log (h : Host K V) (e : Event) : Host K V := h.record (.event e)

/-- Raises a pressure signal. -/
def raise (h : Host K V) (signal : SignalId) : Host K V :=
  { h with board := h.board.raise signal }

/-- Gives the next number to a cache, or leaves it unused. -/
def addCache (h : Host K V) (cache : Option (Cache K V)) : Host K V :=
  { h with caches := h.caches.push cache }

/-- Builds a cache; if that fails, its number stays unused. -/
def build (h : Host K V) (config : Config K V) : Host K V × Except Fault Unit :=
  match config.check with
  | .error e => (h.addCache none, .error (.error e))
  | .ok () =>
      let h := h.log (.building config.pinCapacity config.shards (inspect config.policy).compact)
      match config.assemble h.board with
      | .error p => (h.addCache none, .error (.panic p))
      | .ok cache => ((h.addCache (some cache)).record (.built h.nextCache), .ok ())

end Host

end ReclaimableCache
