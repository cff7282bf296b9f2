import ReclaimableCache.Text.Inspection

/-!
# Errors and panics

What can go wrong is a `CacheError`, which the caller receives as a value, or a `Panic`, which
unwinds through the caller's own code. `CacheError.message` holds all the wording.
-/

namespace ReclaimableCache

open Text

/-- An error that a caller receives as a value. -/
inductive CacheError where
  /-- A configuration that no cache can be built from. -/
  | config (reason : String)
  /-- A cache whose parts disagree. -/
  | invariant (reason : String)
  /-- A cleaner that could not dispose of a value. -/
  | cleanup (reason : String)
  /-- A value that had to be there and was not. -/
  | nullArgument (argument : String)
  deriving DecidableEq

namespace CacheError

/-- The text of an error. -/
def message : CacheError → String
  | config reason => reason
  | invariant reason => reason
  | cleanup reason => reason
  | nullArgument argument => "argument \"" ++ argument ++ "\" must not be absent"

instance : Inspect CacheError where
  inspect
    | config reason => .tuple "ConfigError" [inspect reason]
    | invariant reason => .tuple "InvariantError" [inspect reason]
    | cleanup reason => .tuple "CleanupError" [inspect reason]
    | nullArgument argument => .record "NullArgument" [("argument", inspect argument)] false

/-- At least one value has to be pinned. -/
def zeroPinCapacity : CacheError := config "pin capacity must be greater than zero"

/-- A configured number of shards has to be positive. -/
def zeroShards : CacheError := config "shard count must be greater than zero"

/-- A soft limit has to allow at least one entry. -/
def zeroSoftLimit : CacheError := config "soft limit must be greater than zero"

/-- An operation that stores or looks for a value was given none. -/
def absentValue : CacheError := nullArgument "value"

end CacheError

/-- What a panic carries: a message, or something else that says nothing. -/
inductive Panic where
  | text (message : String)
  | silent
  deriving DecidableEq

namespace Panic

/-- The text that is reported for a panic. -/
def message : Panic → String
  | text message => message
  | silent => "non-string panic payload"

/-- A request for more memory than can be addressed. -/
def capacityOverflow : Panic := text "capacity overflow"

/-- The most bytes that can be asked for at a time. -/
def maxBytes : Nat := 0x7fffffffffffffff

/-- Asks for room for a number of items of a given size, which is there unless no memory could be so
    large. -/
def reserve (items itemBytes : Nat) : Except Panic Unit :=
  if maxBytes < items * itemBytes then .error capacityOverflow else .ok ()

end Panic

/-- How an operation can fail. -/
inductive Fault where
  | error (error : CacheError)
  | panic (panic : Panic)
  deriving DecidableEq

namespace Fault

/-- What becomes of a fault in an operation that returns no errors: an error turns into a panic
    with the same text. -/
def insist : Fault → Fault
  | error e => panic (.text e.message)
  | panic p => panic p

/-- The text of a fault. -/
def message : Fault → String
  | error e => e.message
  | panic p => p.message

@[simp] theorem message_insist (f : Fault) : f.insist.message = f.message := by
  cases f <;> rfl

end Fault

end ReclaimableCache
