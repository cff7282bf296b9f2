import ReclaimableCache.Host.Work

/-!
# Releasing values

A pass first releases the values that it chooses, all of them, and then calls the cleaner on one
after the other. Each slot waits to be swept out from the moment its cleaner returns. A drain
sweeps, asks the policy for a budget, and makes a pass if the budget allows any release.

Everything here is given the way in which the callbacks of a cleaner are run.
-/

namespace ReclaimableCache

/-- A way to run the callbacks of a cleaner. -/
abbrev CallbackRunner (K V : Type) := Routine K V Unit → Work K V (List (Reply V))

namespace Work

variable {K V : Type}

/-- Calls a cleaner on a value. -/
def callCleaner (run : CallbackRunner K V) (cleaner : Cleaner K V) (c : CacheId)
    (victim : Victim K V) : Work K V Disposal := do
  let call ← make (.enterCleaner c victim)
  let replies ← run (cleaner.callbacks call)
  make (.leaveCleaner call replies (cleaner.verdict call))

/-- Disposes of a value that is released: it goes to the cleaner, if there is one. -/
def dispose (run : CallbackRunner K V) (cleaner : Option (Cleaner K V)) (c : CacheId)
    (victim : Victim K V) : Work K V Disposal :=
  match cleaner with
  | none => pure .skipped
  | some cleaner => callCleaner run cleaner c victim

/-- Disposes of a value that a cache released. -/
def clean (run : CallbackRunner K V) (c : CacheId) (victim : Victim K V) : Work K V Disposal := do
  let h ← make .view
  dispose run ((h.cache? c).bind Cache.cleaner) c victim

/-- The second half of a pass: calls the cleaner on each value in turn and puts each slot in line to
    be swept out; returns how often the cleaner failed. -/
def cleanAll (run : CallbackRunner K V) (c : CacheId) : List (Victim K V) → Work K V Nat
  | [] => pure 0
  | victim :: victims => do
      let disposal ← clean run c victim
      make (.enqueue c victim.id)
      let failures ← cleanAll run c victims
      return failures + if disposal = .failed then 1 else 0

/-- One pass over the table of a cache; returns how many values it released. -/
def evict (run : CallbackRunner K V) (c : CacheId) (budget : Nat) : Work K V Nat := do
  let victims ← make (.releaseValues c budget)
  let failures ← cleanAll run c victims
  make (.closePass c victims.length failures)
  return victims.length

/-- What comes before an operation that may release values: sweep, ask the policy, release as many
    values as it says, and sweep again if there were any. -/
def drain (run : CallbackRunner K V) (c : CacheId) : Work K V Unit := do
  make (.sweep c)
  let budget ← make (.consult c)
  if budget = 0 then return
  let released ← evict run c budget
  if released = 0 then return
  make (.sweep c)

end Work

end ReclaimableCache
