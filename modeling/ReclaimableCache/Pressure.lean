import ReclaimableCache.Slot

/-!
# Memory pressure

A pressure signal counts how often it was raised. A watch on a signal remembers the count that it
saw last: polling tells whether the signal was raised since then, however often, and once only.
-/

namespace ReclaimableCache

open Text

/-- The number of a signal. -/
abbrev SignalId := Nat

/-- How often each signal was raised, modulo `2 ^ 64`. -/
structure PressureBoard where
  epochs : Array UInt64
  deriving DecidableEq

namespace PressureBoard

/-- A board without signals. -/
def empty : PressureBoard := ⟨#[]⟩

/-- The number that the next signal gets. -/
def nextSignal (b : PressureBoard) : SignalId := b.epochs.size

/-- Adds a signal that was raised a number of times before. -/
def add (b : PressureBoard) (raised : UInt64) : PressureBoard := ⟨b.epochs.push raised⟩

/-- How often a signal was raised. -/
def epoch (b : PressureBoard) (signal : SignalId) : UInt64 :=
  match b.epochs[signal]? with
  | some raised => raised
  | none => 0

/-- Raises a signal once more. -/
def raise (b : PressureBoard) (signal : SignalId) : PressureBoard :=
  ⟨b.epochs.modify signal fun raised => raised + 1⟩

/-- How a signal is shown. -/
def inspectSignal (b : PressureBoard) (signal : SignalId) : Inspection :=
  .record "MemoryPressure" [("epoch", inspect (b.epoch signal))] false

end PressureBoard

/-- What was last seen of a signal. -/
structure Watch where
  signal : SignalId
  seen : UInt64
  deriving DecidableEq

namespace Watch

/-- A watch that has seen every raise so far. -/
def start (b : PressureBoard) (signal : SignalId) : Watch := ⟨signal, b.epoch signal⟩

/-- Whether the signal was raised since it was looked at last. -/
def isRaised (w : Watch) (b : PressureBoard) : Bool := b.epoch w.signal != w.seen

/-- The watch once it has looked. -/
def look (w : Watch) (b : PressureBoard) : Watch := { w with seen := b.epoch w.signal }

/-- Who has looked sees no more until the signal is raised again. -/
@[simp] theorem isRaised_look (w : Watch) (b : PressureBoard) :
    (w.look b).isRaised b = false := by
  simp [look, isRaised]

@[simp] theorem isRaised_start (b : PressureBoard) (signal : SignalId) :
    (start b signal).isRaised b = false := by
  simp [start, isRaised]

end Watch

end ReclaimableCache
