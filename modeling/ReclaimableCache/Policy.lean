import ReclaimableCache.Fault

/-!
# Release policies

Every operation that may release values first asks the cache's policy for a budget: the number of
unpinned values to release now. The policy knows how many entries there are, how many values may be
pinned, and whether memory is short.
-/

namespace ReclaimableCache

open Text

/-- What a policy is told. -/
structure Usage where
  entries : Nat
  pinCapacity : Nat
  underPressure : Bool
  deriving DecidableEq

/-- How many values to release at a time. -/
inductive Policy where
  /-- All of them when memory is short, otherwise none. -/
  | onPressure
  /-- None, ever. -/
  | manual
  /-- All of them when memory is short, otherwise those above the limit or above the number that
      may be pinned, whichever is larger. -/
  | softLimit (maxEntries : Nat) (positive : 0 < maxEntries)
  /-- A rule of the user's own, which also knows how often it was asked before. -/
  | custom (name : String) (rule : Nat → Usage → Nat)

namespace Policy

/-- The budget that asks for every unpinned value. -/
def unlimited : Nat := 0xffffffffffffffff

/-- The policy with a soft limit, which has to be positive. -/
def softLimit? (maxEntries : Nat) : Except CacheError Policy :=
  if h : 0 < maxEntries then .ok (.softLimit maxEntries h) else .error .zeroSoftLimit

/-- The policy that answers with given budgets in turn and with zero after them. -/
def scripted (budgets : List Nat) : Policy :=
  .custom "Script" fun asked _ => budgets.getD asked 0

/-- The number of values to release, when the policy was asked `asked` times before. -/
def budget (p : Policy) (asked : Nat) (usage : Usage) : Nat :=
  match p with
  | onPressure => if usage.underPressure then unlimited else 0
  | manual => 0
  | softLimit maxEntries _ =>
      if usage.underPressure then unlimited
      else usage.entries - max maxEntries usage.pinCapacity
  | custom _ rule => rule asked usage

/-- Whether the policy is a rule of the user's own. -/
def isCustom : Policy → Bool
  | custom _ _ => true
  | _ => false

instance : Inspect Policy where
  inspect
    | onPressure => .atom "OnPressure"
    | manual => .atom "Manual"
    | softLimit maxEntries _ => .record "SoftLimit" [("max_entries", inspect maxEntries)] false
    | custom name _ => .atom name

end Policy

end ReclaimableCache
