import ReclaimableCache.Cache

/-!
# The entries of a cache

A cache seen as a collection of its live entries, in the order of the table: lists of them, search
by value, comparison of two caches, and the check that the parts of a cache agree.
-/

namespace ReclaimableCache.Cache

open Text

variable {K V : Type}

/-- The live entry that an entry of the table leads to. -/
def liveEntry? (c : Cache K V) (e : K × SlotId) : Option (K × V) :=
  (c.pool.value? e.2).map fun value => (e.1, value)

/-- The live entries in the order of the table. -/
def toList (c : Cache K V) : List (K × V) := c.table.toList.filterMap c.liveEntry?

/-- The keys of the live entries. -/
def keys (c : Cache K V) : List K := c.toList.map Prod.fst

/-- The values of the live entries. -/
def values (c : Cache K V) : List V := c.toList.map Prod.snd

/-- Whether a live entry holds a value. -/
def containsValue [BEq V] (c : Cache K V) (value : V) : Bool :=
  c.toList.any fun e => e.2 == value

/-- Whether there is a live entry with a key and a value. -/
def containsEntry [DecidableEq K] [BEq V] (c : Cache K V) (key : K) (value : V) : Bool :=
  (c.peek key).any fun current => current == value

/-- Whether two caches hold the same live entries: equally many, and each of the first one's also
    in the second. -/
def sameEntries [DecidableEq K] [BEq V] (c other : Cache K V) : Bool :=
  c.toList.length == other.toList.length
    && c.toList.all fun e => other.containsEntry e.1 e.2

/-- The cache shown as a map of its live entries. -/
def inspectMap [Inspect K] [Inspect V] (c : Cache K V) : Inspection :=
  .map (c.toList.map fun e => (inspect e.1, inspect e.2))

/-- The live entries shown as a list of pairs. -/
def inspectEntries [Inspect K] [Inspect V] (c : Cache K V) : Inspection := inspect c.toList

/-- Whether an entry of the table leads to a slot that was made for another key. -/
def misplaced [DecidableEq K] (c : Cache K V) (e : K × SlotId) : Bool :=
  (c.pool.get? e.2).any fun slot => slot.key ≠ e.1

/-- The number of entries in the table, and whether one of them leads to a slot of another key. -/
def survey [DecidableEq K] (c : Cache K V) : Nat × Bool :=
  c.table.visitAll (fun seen e => (seen.1 + 1, seen.2 || c.misplaced e)) (0, false)

theorem survey_eq [DecidableEq K] (c : Cache K V) :
    c.survey = (c.table.toList.length, c.table.toList.any c.misplaced) := by
  have seen : ∀ (entries : List (K × SlotId)) (start : Nat × Bool),
      entries.foldl (fun seen e => (seen.1 + 1, seen.2 || c.misplaced e)) start =
        (start.1 + entries.length, start.2 || entries.any c.misplaced) := by
    intro entries
    induction entries with
    | nil => simp
    | cons e entries ih =>
      intro start
      rw [List.foldl_cons, ih, List.length_cons, List.any_cons, Bool.or_assoc, Nat.add_assoc,
        Nat.add_comm 1]
  rw [survey, ShardedMap.visitAll_eq, seen, Nat.zero_add, Bool.false_or]

/-- Checks that the parts of the cache agree, and reports the first disagreement: too many pins,
    pins that are miscounted, an entry under a wrong key, or entries that are miscounted. -/
def check [DecidableEq K] (c : Cache K V) : Except CacheError Unit :=
  if c.queue.capacity < c.pinned then
    .error (.invariant ("pin ring holds " ++ toString c.pinned ++ " entries, capacity is "
      ++ toString c.queue.capacity))
  else if !c.queue.countsMatch c.pool then
    .error (.invariant "slot pin count differs from its pin ring occurrences")
  else if c.survey.2 then
    .error (.invariant "table key differs from its slot's key")
  else if c.survey.1 ≠ c.size then
    .error (.invariant ("table reports " ++ toString c.size ++ " entries, holds "
      ++ toString c.survey.1))
  else .ok ()

end ReclaimableCache.Cache
