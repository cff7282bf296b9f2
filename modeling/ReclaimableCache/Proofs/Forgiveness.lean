import ReclaimableCache.Proofs.Effect
import ReclaimableCache.Session

/-!
# Forgiveness

A host is forgiven by leaving out all that tells how calls of its cleaners ended: the verdicts of the
cleaners, the errors in the journal, and the numbers of failures. Every move does the same on hosts
that are alike once they are forgiven, and nothing but how a call ends depends on more.
-/

namespace ReclaimableCache

variable {K V α : Type}

/-! ### Forgiving -/

/-- Counters without failures of cleaners. -/
def Counters.forgiven (n : Counters) : Counters := { n with cleanerFailures := 0 }

/-- A cleaner that makes the same callbacks and always succeeds. -/
def Cleaner.forgiven (cleaner : Cleaner K V) : Cleaner K V :=
  { cleaner with verdict := fun _ => .succeeded }

/-- A cache that does not know how calls of its cleaner ended, nor how they will. -/
def Cache.forgiven (c : Cache K V) : Cache K V :=
  { c with counters := c.counters.forgiven, cleaner := c.cleaner.map Cleaner.forgiven }

/-- A configuration with a cleaner that always succeeds. -/
def Config.forgiven (config : Config K V) : Config K V :=
  { config with cleaner := config.cleaner.map Cleaner.forgiven }

/-- An event, unless it is an error; passes tell of no failures. -/
def Event.forgiven : Event → Option Event
  | .released count _ => some (.released count 0)
  | e => if e.level = .error then none else some e

/-- A record without what it tells of failures. -/
def Record.forgiven : Record K V → Option (Record K V)
  | .event e => e.forgiven.map .event
  | r => some r

/-- A journal without what it tells of failures. -/
def Journal.forgiven (j : Journal K V) : Journal K V :=
  ⟨(j.records.toList.filterMap Record.forgiven).toArray⟩

/-- A host that does not know how calls of cleaners ended, nor how they will. -/
def Host.forgiven (h : Host K V) : Host K V :=
  { h with caches := h.caches.map (Option.map Cache.forgiven), journal := h.journal.forgiven }

/-- A move without what it tells of failures. -/
def Move.forgiven : Move K V → Move K V
  | build config => build config.forgiven
  | leaveCleaner call replies _ => leaveCleaner call replies .succeeded
  | closePass c released _ => closePass c released 0
  | countReclaim c _ => countReclaim c false
  | m => m

/-- A step without what it tells of failures. -/
def Step.forgiven (s : Step K V) : Step K V := ⟨s.before.forgiven, s.move.forgiven⟩

/-! ### Caches -/

namespace Cache

variable (c : Cache K V)

/-- A reclaim that is forgiven counts as one that did not fail. -/
theorem forgiven_countReclaim (failed : Bool) :
    (c.countReclaim failed).forgiven = c.forgiven.countReclaim false := rfl

/-- A policy is not told what failed. -/
theorem consult_forgiven (board : PressureBoard) :
    c.forgiven.consult board = (c.consult board).forgiven := by
  have usage : c.forgiven.usage board = c.usage board := rfl
  rw [consult, usage, consult, forgiven, forgiven]
  cases (c.usage board).underPressure <;> rfl

variable [DecidableEq K]

/-- What a look-up finds, and what it does to the pins, does not depend on what failed. -/
theorem touch_forgiven (key : K) :
    c.forgiven.touch key = ((c.touch key).1.forgiven, (c.touch key).2) := by
  have table : c.forgiven.table = c.table := rfl
  rw [touch, touch, table]
  cases c.table.get? key with
  | none => rfl
  | some id =>
    have pinned : c.forgiven.pin id = (c.pin id).forgiven := rfl
    have pool : (c.pin id).forgiven.pool = (c.pin id).pool := rfl
    dsimp only
    rw [pinned, pool]
    cases (c.pin id).pool.value? id <;> rfl

theorem store_forgiven (key : K) (value : V) :
    c.forgiven.store key value = ((c.store key value).1.forgiven, (c.store key value).2) := by
  have table : c.forgiven.table = c.table := rfl
  rw [store, store, table]
  cases c.table.get? key <;> rfl

theorem takeOut_forgiven (key : K) :
    c.forgiven.takeOut key = ((c.takeOut key).1.forgiven, (c.takeOut key).2) := by
  have table : c.forgiven.table = c.table := rfl
  rw [takeOut, takeOut, table]
  cases c.table.get? key <;> rfl

/-- The value of an entry is released before its cleaner is called. -/
theorem releaseValueOf_forgiven (key : K) : c.forgiven.releaseValueOf key =
    ((c.releaseValueOf key).1.forgiven, (c.releaseValueOf key).2) := by
  have table : c.forgiven.table = c.table := rfl
  rw [releaseValueOf, releaseValueOf, table]
  cases c.table.get? key <;> rfl

end Cache

theorem Config.assemble_forgiven (config : Config K V) (board : PressureBoard) :
    config.forgiven.assemble board = (config.assemble board).map Cache.forgiven := by
  have shardCount : config.forgiven.shardCount = config.shardCount := rfl
  rw [assemble, assemble, shardCount]
  simp only [forgiven]
  cases ShardedMap.create config.hasher config.shardCount with
  | error p => rfl
  | ok table =>
    cases PinQueue.create config.pinCapacity with
    | error p => rfl
    | ok queue => rfl

/-! ### Hosts -/

namespace Host

variable (h : Host K V)

theorem cache?_forgiven (c : CacheId) : h.forgiven.cache? c = (h.cache? c).map Cache.forgiven := by
  rw [cache?, cache?, forgiven, Array.getElem?_map]
  cases h.caches[c]? <;> rfl

theorem forgiven_setCache (c : CacheId) (cache : Cache K V) :
    (h.setCache c cache).forgiven = h.forgiven.setCache c cache.forgiven := by
  rw [forgiven, setCache, setCache, forgiven]
  simp [Array.map_setIfInBounds]

theorem forgiven_addCache (cache : Option (Cache K V)) :
    (h.addCache cache).forgiven = h.forgiven.addCache (cache.map Cache.forgiven) := by
  rw [forgiven, addCache, addCache, forgiven]
  simp [Array.map_push]

/-- A record of a failure disappears, and the others stay. -/
theorem forgiven_record (r : Record K V) :
    (h.record r).forgiven = r.forgiven.elim h.forgiven h.forgiven.record := by
  rw [forgiven, record, Journal.forgiven, Journal.toList_add, List.filterMap_append]
  cases kept : r.forgiven with
  | none => simp [kept, forgiven, Journal.forgiven]
  | some r' => simp [kept, forgiven, record, Journal.forgiven, Journal.add]

theorem forgiven_log (e : Event) :
    (h.log e).forgiven = e.forgiven.elim h.forgiven h.forgiven.log := by
  rw [log, forgiven_record, Record.forgiven]
  cases e.forgiven <;> rfl

/-- A record that tells nothing of failures is kept. -/
theorem forgiven_record_of_kept {r : Record K V} (kept : r.forgiven = some r) :
    (h.record r).forgiven = h.forgiven.record r := by
  rw [forgiven_record, kept, Option.elim_some]

/-- An event that tells of no failure is logged as before. -/
theorem forgiven_log_of_kept {e : Event} (kept : e.forgiven = some e) :
    (h.log e).forgiven = h.forgiven.log e := by
  rw [forgiven_log, kept, Option.elim_some]

theorem forgiven_modifyCache (c : CacheId) {f g : Cache K V → Cache K V}
    (commutes : ∀ cache, (f cache).forgiven = g cache.forgiven) :
    (h.modifyCache c f).forgiven = h.forgiven.modifyCache c g := by
  rw [modifyCache, modifyCache, cache?_forgiven]
  cases h.cache? c with
  | none => rfl
  | some cache =>
    rw [Option.map_some]
    dsimp only
    rw [forgiven_setCache, commutes]

/-- What does the same to forgiven caches does the same to a forgiven host. -/
theorem onCache_forgiven (c : CacheId) (otherwise : α) {f : Cache K V → Cache K V × α}
    (commutes : ∀ cache, f cache.forgiven = ((f cache).1.forgiven, (f cache).2)) :
    h.forgiven.onCache c otherwise f =
      ((h.onCache c otherwise f).1.forgiven, (h.onCache c otherwise f).2) := by
  rw [onCache, onCache, cache?_forgiven]
  cases h.cache? c with
  | none => rfl
  | some cache =>
    rw [Option.map_some]
    dsimp only
    rw [commutes, forgiven_setCache]

/-- Building does not depend on what is logged before. -/
theorem build_eq (config : Config K V) : h.build config =
    match config.check with
    | .error e => (h.addCache none, .error (.error e))
    | .ok () =>
        let noted := h.log (.building config.pinCapacity config.shards
          (Text.inspect config.policy).compact)
        match config.assemble h.board with
        | .error p => (noted.addCache none, .error (.panic p))
        | .ok cache => ((noted.addCache (some cache)).record (.built h.nextCache), .ok ()) := rfl

/-- A cache is built in the same way, whatever its cleaner will answer. -/
theorem build_forgiven (config : Config K V) :
    h.forgiven.build config.forgiven = ((h.build config).1.forgiven, (h.build config).2) := by
  have check : config.forgiven.check = config.check := rfl
  have board : h.forgiven.board = h.board := rfl
  have next : h.forgiven.nextCache = h.nextCache := by simp [nextCache, forgiven]
  have noted : (h.log (.building config.pinCapacity config.shards
      (Text.inspect config.policy).compact)).forgiven = h.forgiven.log (.building
        config.forgiven.pinCapacity config.forgiven.shards
        (Text.inspect config.forgiven.policy).compact) := h.forgiven_log_of_kept rfl
  rw [build_eq, build_eq, check, board, config.assemble_forgiven, next]
  cases config.check with
  | error e => exact Prod.ext (h.forgiven_addCache none).symm rfl
  | ok checked =>
    dsimp only
    rw [← noted]
    cases config.assemble h.board with
    | error p => exact Prod.ext (forgiven_addCache _ none).symm rfl
    | ok cache =>
      rw [Except.map]
      dsimp only
      rw [forgiven_record_of_kept _ rfl, forgiven_addCache]
      rfl

section

variable [DecidableEq K]

/-- A look-up logs only what it found. -/
theorem look_forgiven (c : CacheId) (key : K) :
    h.forgiven.look c key = ((h.look c key).1.forgiven, (h.look c key).2) := by
  rw [look, look, cache?_forgiven]
  cases h.cache? c with
  | none => rfl
  | some cache =>
    have table : cache.forgiven.table = cache.table := rfl
    rw [Option.map_some]
    dsimp only
    rw [cache.touch_forgiven, table]
    cases cache.table.get? key with
    | none => rw [forgiven_setCache]
    | some id =>
      dsimp only
      rw [← forgiven_setCache]
      split
      · rw [forgiven_record_of_kept _ rfl]
      · rw [forgiven_record_of_kept _ rfl, forgiven_record_of_kept _ rfl]

theorem place_forgiven (c : CacheId) (key : K) (value : V) :
    h.forgiven.place c key value = ((h.place c key value).1.forgiven, (h.place c key value).2) := by
  rw [place, place, cache?_forgiven]
  cases h.cache? c with
  | none => rfl
  | some cache =>
    have pool : cache.forgiven.pool = cache.pool := rfl
    rw [Option.map_some]
    dsimp only
    rw [cache.store_forgiven, forgiven_record_of_kept _ rfl, forgiven_setCache, pool]

/-- A sweep logs how many entries it took out, and nothing of calls of cleaners. -/
theorem sweep_forgiven (c : CacheId) : h.forgiven.sweep c = (h.sweep c).forgiven := by
  have swept := h.onCache_forgiven c 0 (f := Cache.sweep) fun _ => rfl
  rw [sweep, sweep, swept]
  dsimp only
  split
  · rfl
  · exact (forgiven_log_of_kept _ rfl).symm

end

theorem dropEntries_forgiven (c : CacheId) :
    h.forgiven.dropEntries c = (h.dropEntries c).forgiven := by
  rw [dropEntries, dropEntries, cache?_forgiven]
  cases h.cache? c with
  | none => rfl
  | some cache =>
    rw [Option.map_some]
    dsimp only
    rw [forgiven_record_of_kept _ rfl, forgiven_setCache]
    rfl

theorem consult_forgiven (c : CacheId) :
    h.forgiven.consult c = ((h.consult c).1.forgiven, (h.consult c).2) := by
  rw [consult, consult, cache?_forgiven]
  cases h.cache? c with
  | none => rfl
  | some cache =>
    have usage : cache.forgiven.usage h.forgiven.board = cache.usage h.board := rfl
    have board : h.forgiven.board = h.board := rfl
    have budget : ∀ usage, cache.forgiven.budget usage = cache.budget usage := fun _ => rfl
    rw [Option.map_some]
    dsimp only
    rw [usage, board, budget, cache.consult_forgiven, ← forgiven_setCache]
    split
    · rw [forgiven_log_of_kept _ rfl, forgiven_record_of_kept _ rfl]
    · rw [forgiven_record_of_kept _ rfl]

/-- A call that failed leaves a host that differs only in the error that was logged. -/
theorem forgiven_leaveCleaner (call : Cleaning K V) (replies : List (Reply V)) (verdict : Verdict) :
    (h.leaveCleaner call replies verdict).1.forgiven =
      (h.forgiven.leaveCleaner call replies .succeeded).1 := by
  have ended : ({ h with active := call.active }.record (.cleaning call replies)).forgiven =
      { h.forgiven with active := call.active }.record (.cleaning call replies) :=
    forgiven_record_of_kept _ rfl
  cases verdict with
  | succeeded => exact ended
  | failed e => exact (forgiven_log _ _).trans ended
  | panicked p => exact (forgiven_log _ _).trans ended

/-- A pass differs only in the failures that it logs and counts. -/
theorem forgiven_closePass (c : CacheId) (released failures : Nat) :
    (h.closePass c released failures).forgiven = h.forgiven.closePass c released 0 := by
  have counted : ∀ g : Host K V,
      (g.modifyCache c fun cache => cache.tally fun n =>
        (n.evict released.toUInt64).cleanerFailure failures.toUInt64).forgiven =
      g.forgiven.modifyCache c fun cache => cache.tally fun n =>
        (n.evict released.toUInt64).cleanerFailure (0 : Nat).toUInt64 := fun g =>
    g.forgiven_modifyCache c fun cache => rfl
  rw [closePass, closePass, counted]
  split
  · rfl
  · rw [forgiven_log]
    rfl

end Host

/-! ### Moves -/

namespace Move

/-- Whether a move tells how calls of cleaners ended, or how they will. -/
def tells : Move K V → Bool
  | view | build _ | leaveCleaner .. | closePass .. | countReclaim .. => true
  | _ => false

variable [DecidableEq K]

/-- A move that tells nothing of failures does the same on a host that is forgiven. -/
theorem make_forgiven {m : Move K V} (silent : m.tells = false) (h : Host K V) :
    m.make h.forgiven = ((m.make h).1.forgiven, (m.make h).2) := by
  have unit : ∀ {g : Host K V} {g' : Host K V}, g = g'.forgiven → (g, ()) = (g'.forgiven, ()) := by
    rintro _ _ rfl
    rfl
  cases m with
  | raise signal => rfl
  | sweep c => exact unit (h.sweep_forgiven c)
  | consult c => exact h.consult_forgiven c
  | releaseValues c budget => exact h.onCache_forgiven c _ fun _ => rfl
  | releaseValue c key => exact h.onCache_forgiven c _ fun cache => cache.releaseValueOf_forgiven key
  | enterCleaner c victim => rfl
  | enqueue c slot =>
    exact unit (h.forgiven_modifyCache c (g := fun cache => cache.enqueue slot) fun _ => rfl).symm
  | look c key => exact h.look_forgiven c key
  | place c key value => exact h.place_forgiven c key value
  | takeOut c key => exact h.onCache_forgiven c _ fun cache => cache.takeOut_forgiven key
  | takeOutSlot c key slot => exact h.onCache_forgiven c _ fun _ => rfl
  | unpinAll c => exact unit (h.forgiven_modifyCache c (g := Cache.unpinAll) fun _ => rfl).symm
  | dropEntries c => exact unit (h.dropEntries_forgiven c)
  | noteServed c request reply => exact unit (h.forgiven_record_of_kept rfl).symm
  | _ => cases silent

/-- Moves that differ only in what they tell of failures do the same to hosts that are alike once they
    are forgiven. -/
theorem forgiven_make (m : Move K V) (h : Host K V) :
    (m.make h).1.forgiven = (m.forgiven.make h.forgiven).1 := by
  cases told : m.tells with
  | false =>
    have same : m.forgiven = m := by cases m <;> first | rfl | cases told
    rw [same, make_forgiven told]
  | true =>
    cases m with
    | view => rfl
    | build config => exact (congrArg Prod.fst (h.build_forgiven config)).symm
    | leaveCleaner call replies verdict => exact h.forgiven_leaveCleaner call replies verdict
    | closePass c released failures => exact h.forgiven_closePass c released failures
    | countReclaim c failed =>
      exact h.forgiven_modifyCache c fun cache => cache.forgiven_countReclaim failed
    | _ => cases told

/-- Whether a move gives back nothing of what is left out. -/
def discreet : Move K V → Bool
  | view | leaveCleaner .. => false
  | _ => true

/-- What a discreet move gives can be told from the forgiven host. -/
theorem result_make {m : Move K V} (discreet : m.discreet = true) {h g : Host K V}
    (alike : h.forgiven = g.forgiven) : (m.make h).2 = (m.make g).2 := by
  cases told : m.tells with
  | false =>
    have first := congrArg Prod.snd (make_forgiven told h)
    have second := congrArg Prod.snd (make_forgiven told g)
    rw [alike] at first
    exact first.symm.trans second
  | true =>
    cases m with
    | build config =>
      have first := congrArg Prod.snd (h.build_forgiven config)
      have second := congrArg Prod.snd (g.build_forgiven config)
      rw [alike] at first
      exact first.symm.trans second
    | closePass c released failures => rfl
    | countReclaim c failed => rfl
    | view => cases discreet
    | leaveCleaner call replies verdict => cases discreet
    | _ => cases told

end Move

end ReclaimableCache
