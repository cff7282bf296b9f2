import ReclaimableCache.Proofs.Ledger

/-!
# The log and the metrics

The events that are logged and the counters of the caches are two accounts of the same moves. Most
moves enter the same number in both. The failures of cleaners are logged when they happen and counted
when the pass or the reclaim ends that called them, and a pass that released nothing is not logged.
-/

namespace ReclaimableCache

variable {K V α β : Type}

/-! ### What is logged -/

/-- The number that an event gives under a name in decimal, nothing if it gives none. -/
def Event.number (name : String) (e : Event) : Nat :=
  ((e.fields.lookup name).map fun text => Nat.ofDigitChars 10 text.toList 0).getD 0

/-- What an event says about a counter, as it reads in the log: by its level and its message, and by
    the number under a name among its particulars. -/
def Event.tells (metric : Metric) (e : Event) : Nat :=
  match metric, e.level, e.message with
  | .swept, .trace, "swept reclaimed entries" => e.number "swept"
  | .evicted, .debug, "released unpinned entries" => e.number "released"
  | .reclaimed, .debug, "released unpinned entries" => e.number "released"
  | .cleanerFailures, .debug, "released unpinned entries" => e.number "cleaner_failures"
  | .pressureEvents, .debug, "memory pressure signalled" => 1
  | _, _, _ => 0

namespace Event

/-- A number that is written under a name is read back. -/
theorem number_of_lookup {name : String} {e : Event} {n : Nat}
    (written : e.fields.lookup name = some (toString n)) : e.number name = n := by
  rw [number, written, Option.map_some, Option.getD_some, Nat.toString_eq_repr, Nat.toList_repr,
    Nat.ofDigitChars_ten_toDigits]

variable (metric : Metric)

@[simp] theorem tells_swept (count : Nat) :
    (swept count).tells metric = if metric = .swept then count else 0 := by
  have read : (swept count).number "swept" = count := number_of_lookup rfl
  cases metric <;> simp [tells, level, message, read]

@[simp] theorem tells_released (count cleanerFailures : Nat) :
    (released count cleanerFailures).tells metric =
      if metric = .evicted ∨ metric = .reclaimed then count
      else if metric = .cleanerFailures then cleanerFailures else 0 := by
  have read : (released count cleanerFailures).number "released" = count := number_of_lookup rfl
  have failures : (released count cleanerFailures).number "cleaner_failures" = cleanerFailures :=
    number_of_lookup rfl
  cases metric <;> simp [tells, level, message, read, failures]

@[simp] theorem tells_pressure (budget : Nat) :
    (pressure budget).tells metric = if metric = .pressureEvents then 1 else 0 := by
  cases metric <;> simp [tells, level, message]

@[simp] theorem tells_building (pinCapacity : Nat) (shards : Option Nat) (policy : String) :
    (building pinCapacity shards policy).tells metric = 0 := by
  cases metric <;> simp [tells, level, message]

/-- Errors are counted, and say nothing more. -/
theorem tells_error {e : Event} (error : e.level = .error) : e.tells metric = 0 := by
  cases metric <;> simp [tells, error]

end Event

/-- Whether events say something about a counter. -/
def Metric.logged : Metric → Bool
  | swept | evicted | reclaimed | cleanerFailures | pressureEvents => true
  | _ => false

/-- Whether a record is a reclaim that released a value. -/
def Record.isReclaim : Record K V → Bool
  | served _ (.reclaim _) (.flag true) => true
  | _ => false

namespace Host

/-- All records of the journal, oldest first. -/
def records (h : Host K V) : List (Record K V) := h.journal.records.toList

/-- The events that were logged, oldest first. -/
def events (h : Host K V) : List Event := h.records.filterMap Record.event?

/-- What the events say about a counter together. -/
def told (h : Host K V) (metric : Metric) : Nat := (h.events.map (Event.tells metric)).sum

theorem told_reclaimed (h : Host K V) : h.told .reclaimed = h.told .evicted :=
  congrArg List.sum (List.map_congr_left fun e _ => by cases e <;> rfl)

/-- The number of errors that were logged. -/
def errors (h : Host K V) : Nat := h.events.countP fun e => e.level = .error

/-- The number of reclaims, on any level of nesting, that said that they released a value. -/
def reclaims (h : Host K V) : Nat := h.records.countP Record.isReclaim

@[simp] theorem records_record (h : Host K V) (r : Record K V) :
    (h.record r).records = h.records ++ [r] :=
  h.journal.toList_add r

@[simp] theorem records_log (h : Host K V) (e : Event) :
    (h.log e).records = h.records ++ [.event e] :=
  h.records_record (.event e)

@[simp] theorem records_addCache (h : Host K V) (cache : Option (Cache K V)) :
    (h.addCache cache).records = h.records := rfl

@[simp] theorem records_setCache (h : Host K V) (c : CacheId) (cache : Cache K V) :
    (h.setCache c cache).records = h.records := rfl

@[simp] theorem records_onCache (h : Host K V) (c : CacheId) (otherwise : α)
    (f : Cache K V → Cache K V × α) : (h.onCache c otherwise f).1.records = h.records := by
  rw [onCache]
  split <;> rfl

@[simp] theorem records_modifyCache (h : Host K V) (c : CacheId) (f : Cache K V → Cache K V) :
    (h.modifyCache c f).records = h.records := by
  rw [modifyCache]
  split <;> rfl

end Host

/-- The event of a cleaner that ends in some way. -/
def Verdict.event? : Verdict → Option Event
  | succeeded => none
  | failed e => some (.cleanerFailed e)
  | panicked p => some (.cleanerPanicked p)

section

variable [DecidableEq K]

/-- The records that a move adds to the journal. -/
def Move.records (h : Host K V) : Move K V → List (Record K V)
  | build config =>
      match config.check with
      | .error _ => []
      | .ok () =>
          .event (.building config.pinCapacity config.shards (Text.inspect config.policy).compact) ::
            match config.assemble h.board with
            | .error _ => []
            | .ok _ => [.built h.nextCache]
  | sweep c =>
      let count := (h.onCache c 0 Cache.sweep).2
      if count = 0 then [] else [.event (.swept count)]
  | consult c => (h.cache? c).elim [] fun cache =>
      let usage := cache.usage h.board
      .consultation c usage (cache.budget usage) ::
        if usage.underPressure then [.event (.pressure (cache.budget usage))] else []
  | leaveCleaner call replies verdict =>
      .cleaning call replies :: verdict.event?.toList.map .event
  | closePass _ released failures =>
      if released = 0 then [] else [.event (.released released failures)]
  | look c key => (h.cache? c).elim [] fun cache =>
      (cache.table.get? key).elim [] fun id =>
        .pinned c id :: if (cache.touch key).2.isSome then [] else [.dropped c id]
  | place c _ _ => (h.cache? c).elim [] fun cache => [.pinned c cache.pool.nextId]
  | dropEntries c => (h.cache? c).elim [] fun cache => [.cleared c cache.size]
  | noteServed c request reply => [.served c request reply]
  | _ => []

/-- Moves add their records to the journal, and never take one out. -/
theorem Host.records_make (h : Host K V) (m : Move K V) :
    (m.make h).1.records = h.records ++ m.records h := by
  cases m with
  | build config =>
    rw [Move.make, build, Move.records]
    cases config.check with
    | error e => simp
    | ok checked =>
      have sameBoard : (h.log (.building config.pinCapacity config.shards
        (Text.inspect config.policy).compact)).board = h.board := rfl
      have sameNext : (h.log (.building config.pinCapacity config.shards
        (Text.inspect config.policy).compact)).nextCache = h.nextCache := rfl
      dsimp only
      rw [sameBoard, sameNext]
      cases config.assemble h.board <;> simp
  | sweep c =>
    rw [Move.make, sweep, Move.records]
    dsimp only
    split <;> simp
  | consult c =>
    rw [Move.make, consult, Move.records]
    cases h.cache? c with
    | none => simp
    | some cache => cases under : (cache.usage h.board).underPressure <;> simp [under]
  | leaveCleaner call replies verdict =>
    cases verdict <;> simp [Move.make, leaveCleaner, Move.records, Verdict.event?, records, log, record]
  | closePass c released failures =>
    rw [Move.make, closePass, Move.records]
    dsimp only
    split <;> simp
  | look c key =>
    rw [Move.make, look, Move.records]
    cases h.cache? c with
    | none => simp
    | some cache =>
      dsimp only [Option.elim_some]
      cases cache.table.get? key with
      | none => simp
      | some id => cases (cache.touch key).2 <;> simp
  | place c key value =>
    rw [Move.make, place, Move.records]
    cases h.cache? c <;> simp
  | dropEntries c =>
    rw [Move.make, dropEntries, Move.records]
    cases h.cache? c <;> simp
  | noteServed c request reply => simp [Move.make, Move.records]
  | view => simp [Move.make, Move.records]
  | raise signal => exact (List.append_nil _).symm
  | enterCleaner c victim => exact (List.append_nil _).symm
  | _ => simp [Move.make, Move.records]

/-- The events that a move logs. -/
def Move.events (h : Host K V) : Move K V → List Event
  | build config =>
      match config.check with
      | .error _ => []
      | .ok () =>
          [.building config.pinCapacity config.shards (Text.inspect config.policy).compact]
  | sweep c =>
      let count := (h.onCache c 0 Cache.sweep).2
      if count = 0 then [] else [.swept count]
  | consult c => (h.cache? c).elim [] fun cache =>
      let usage := cache.usage h.board
      if usage.underPressure then [.pressure (cache.budget usage)] else []
  | leaveCleaner _ _ verdict => verdict.event?.toList
  | closePass _ released failures => if released = 0 then [] else [.released released failures]
  | _ => []

theorem Move.filterMap_records (h : Host K V) (m : Move K V) :
    (m.records h).filterMap Record.event? = m.events h := by
  cases m with
  | build config =>
    rw [records, events]
    cases config.check with
    | error e => rfl
    | ok checked => cases config.assemble h.board <;> rfl
  | sweep c =>
    rw [records, events]
    split <;> rfl
  | consult c =>
    rw [records, events]
    cases h.cache? c with
    | none => rfl
    | some cache =>
      dsimp only [Option.elim_some]
      split <;> rfl
  | leaveCleaner call replies verdict => cases verdict <;> rfl
  | closePass c released failures =>
    rw [records, events]
    split <;> rfl
  | look c key =>
    change ((look c key).records h).filterMap Record.event? = []
    rw [records]
    cases h.cache? c with
    | none => rfl
    | some cache =>
      rw [Option.elim_some]
      cases cache.table.get? key with
      | none => rfl
      | some id =>
        dsimp only [Option.elim_some]
        split <;> rfl
  | place c key value =>
    change ((place c key value).records h).filterMap Record.event? = []
    rw [records]
    cases h.cache? c <;> rfl
  | dropEntries c =>
    change ((dropEntries c).records h).filterMap Record.event? = []
    rw [records]
    cases h.cache? c <;> rfl
  | _ => rfl

namespace Step

/-- The events that are logged. -/
def events (s : Step K V) : List Event := s.move.events s.before

/-- The records that are added. -/
def records (s : Step K V) : List (Record K V) := s.move.records s.before

/-- How many values are released, whatever the cache. -/
def transitions (s : Step K V) : Nat :=
  ((List.range s.before.nextCache).map fun c => s.released c).sum

omit [DecidableEq K] in
/-- Whether a call of a cleaner ends with a failure. -/
def fails (s : Step K V) : Bool :=
  match s.move with
  | .leaveCleaner _ _ verdict => decide (verdict ≠ .succeeded)
  | _ => false

omit [DecidableEq K] in
/-- Whether a value is released by a reclaim. -/
def reclaims (s : Step K V) : Bool :=
  match s.move with
  | .releaseValue .. => true
  | _ => false

end Step

/-- Whether a reclaim of a history released the value in a slot. -/
def reclaimed (history : List (Step K V)) (c : CacheId) (id : SlotId) : Bool :=
  history.any fun s => s.releases c id && s.reclaims

/-- Whether the cleaner of a reclaim fails. -/
def Step.failsReclaim (history : List (Step K V)) (s : Step K V) : Bool :=
  match s.move with
  | .leaveCleaner call _ verdict =>
      decide (verdict ≠ .succeeded) && reclaimed history call.cache call.slot
  | _ => false

/-! ### Reclaims are noted -/

/-- A reclaim that is counted weighs as much as one that is noted to have released a value takes
    away. -/
def Step.unnoted (s : Step K V) : ℤ :=
  match s.move with
  | .countReclaim .. => 1
  | .noteServed _ (.reclaim _) (.flag true) => -1
  | _ => 0

namespace Work

/-- In the course of some work as many reclaims are counted as are noted. -/
def Notes (w : Work K V α) : Prop := ∀ h : Host K V, w.total Step.unnoted h = 0

theorem notes_pure (a : α) : (pure a : Work K V α).Notes := fun _ => rfl

theorem Notes.bind {w : Work K V α} {f : α → Work K V β} (first : w.Notes)
    (second : ∀ a, (f a).Notes) : (w >>= f).Notes := by
  intro h
  rw [total_bind, first, second, zero_add]

theorem notes_make {m : Move K V} (nothing : ∀ h : Host K V, (⟨h, m⟩ : Step K V).unnoted = 0) :
    (make m).Notes := by
  intro h
  rw [total_make, nothing]

theorem notes_disposing (m : Move K V) (disposing : m.disposing = true) : (make m).Notes :=
  notes_make fun h => by cases m <;> first | rfl | cases disposing

theorem drained_notes : Drained fun _ (w : Work K V _) => w.Notes := by
  apply drained_of_moves notes_pure (fun first second => first.bind second)
  · intro m steady
    exact notes_make fun h => by cases m <;> first | rfl | cases steady
  · intro run callbacks c budget
    refine Sequenced.evict ⟨notes_pure, fun first second => first.bind second, ?_⟩ callbacks
      notes_disposing (fun _ _ => notes_make fun _ => rfl) (fun _ _ _ => notes_make fun _ => rfl) c
      budget
    exact notes_make fun _ => rfl

section

variable {run : CallbackRunner K V} (callbacks : ∀ r, (run r).Notes)

include callbacks

/-- A reclaim is counted if it released a value. -/
theorem total_reclaim (c : CacheId) (key : K) (h : Host K V) :
    (reclaim run c key).total Step.unnoted h =
      if ((reclaim run c key).run h).2 then 1 else 0 := by
  have released : Step.unnoted (⟨h, .releaseValue c key⟩ : Step K V) = 0 := rfl
  rw [reclaim, total_bind, total_make, released, zero_add, run_bind, run_make]
  cases ((Move.releaseValue c key).make h).2 with
  | none => rfl
  | some v =>
    have cleaned : ∀ g, (clean run c v).total Step.unnoted g = 0 :=
      drained_notes.clean callbacks notes_disposing c v
    have counted : ∀ (g : Host K V) (failed : Bool), Step.unnoted ⟨g, .countReclaim c failed⟩ = 1 :=
      fun _ _ => rfl
    have queued : ∀ g : Host K V, Step.unnoted ⟨g, .enqueue c v.id⟩ = 0 := fun _ => rfl
    dsimp only
    rw [total_bind, cleaned, zero_add, total_bind, total_make, counted, total_bind, total_make, queued,
      run_bind, run_bind, run_bind, run_pure, total_pure]
    rfl

theorem notes_reclaim (c : CacheId) (key : K) : (Host.perform run c (.reclaim key)).Notes := by
  apply drained_notes.bind drained_notes.view
  intro h
  cases h.cache? c with
  | none => exact notes_pure _
  | some cache =>
    intro g
    have noted : ∀ (g : Host K V) (flag : Bool),
        Step.unnoted ⟨g, .noteServed c (.reclaim key) (.flag flag)⟩ = if flag then -1 else 0 := by
      intro g flag
      cases flag <;> rfl
    rw [total_bind, performOn, total_map, total_reclaim callbacks, run_map, total_bind, total_make,
      noted, total_pure, add_zero]
    cases ((reclaim run c key).run g).2 <;> rfl

end

theorem operated_notes : Operated fun _ (w : Work K V _) => w.Notes := by
  apply drained_notes.operated
  intro run callbacks c request
  by_cases reclaims : ∃ key, request = .reclaim key
  · obtain ⟨key, rfl⟩ := reclaims
    exact notes_reclaim callbacks c key
  · have note : ∀ reply, (make (.noteServed c request reply) : Work K V Unit).Notes := by
      intro reply
      refine notes_make fun h => ?_
      cases request <;> first | rfl | exact absurd ⟨_, rfl⟩ reclaims
    have place : ∀ key value, (make (.place c key value) : Work K V (Option V)).Notes :=
      fun key value => notes_make fun _ => rfl
    have pick : ∀ key id, (make (.takeOutSlot c key id) : Work K V Bool).Notes :=
      fun key id => notes_make fun _ => rfl
    exact drained_notes.perform callbacks c (fun key value _ => place key value)
      (fun key _ _ id => pick key id) (fun key same => absurd ⟨key, same⟩ reclaims) note

/-- The journal grows by the records of the moves. -/
theorem records_run (w : Work K V α) (h : Host K V) :
    (w.run h).1.records = h.records ++ (w.steps h).flatMap Step.records := by
  induction w generalizing h with
  | done a => exact (List.append_nil _).symm
  | move m next ih =>
    have rest := ih (m.make h).2 (m.make h).1
    rw [h.records_make m, List.append_assoc] at rest
    exact rest

end Work

/-! ### Two accounts of one move -/

namespace Step

omit [DecidableEq K] in
/-- What a move adds to a counter and does not log: the count of a reclaim. -/
def unlogged (metric : Metric) (s : Step K V) : Nat :=
  match s.move, metric with
  | .countReclaim .., .reclaimed => 1
  | .countReclaim _ failed, .cleanerFailures => failed.toNat
  | _, _ => 0

omit [DecidableEq K] in
theorem unlogged_eq_zero (s : Step K V) {metric : Metric} (notReclaimed : metric ≠ .reclaimed)
    (notFailures : metric ≠ .cleanerFailures) : s.unlogged metric = 0 := by
  obtain ⟨h, m⟩ := s
  cases m with
  | countReclaim c failed =>
    cases metric <;> first | rfl | exact absurd rfl notReclaimed | exact absurd rfl notFailures
  | _ => rfl

variable {s : Step K V}

/-- What a move logs and what it leaves out is what it counts. -/
theorem sum_tells (reports : s.Reports) {metric : Metric} (logged : metric.logged = true) :
    (s.events.map (Event.tells metric)).sum + s.unlogged metric = s.gains metric := by
  obtain ⟨h, m⟩ := s
  have silent : ∀ {m : Move K V}, m.events h = [] →
      (⟨h, m⟩ : Step K V).unlogged metric = 0 → (∀ board cache, m.gain board cache metric = 0) →
      ((m.events h).map (Event.tells metric)).sum + (⟨h, m⟩ : Step K V).unlogged metric =
        (⟨h, m⟩ : Step K V).gains metric := by
    intro m noEvents noReclaim noGain
    rw [noEvents, noReclaim, gains_eq_zero noGain]
    rfl
  cases m with
  | sweep c =>
    rw [gains_of_target rfl, events, Move.events, Host.onCache]
    cases h.cache? c with
    | none => cases metric <;> rfl
    | some cache =>
      by_cases none : cache.sweep.2 = 0 <;> cases metric <;>
        simp [none, Move.gain, unlogged]
  | build config =>
    rw [gains_eq_zero fun _ _ => by cases metric <;> rfl, events, Move.events]
    cases config.check <;> simp [unlogged]
  | consult c =>
    rw [gains_of_target rfl, events, Move.events]
    cases h.cache? c with
    | none => cases metric <;> rfl
    | some cache =>
      cases under : (cache.usage h.board).underPressure <;> cases metric <;>
        simp [under, Move.gain, unlogged]
  | leaveCleaner call replies verdict =>
    rw [gains_eq_zero fun _ _ => by cases metric <;> rfl]
    cases verdict with
    | succeeded => rfl
    | failed e =>
      have silent : (Event.cleanerFailed e).tells metric = 0 := Event.tells_error metric rfl
      simp [events, Move.events, Verdict.event?, unlogged, silent]
    | panicked p =>
      have silent : (Event.cleanerPanicked p).tells metric = 0 := Event.tells_error metric rfl
      simp [events, Move.events, Verdict.event?, unlogged, silent]
  | closePass c released failures =>
    obtain ⟨few, there⟩ := reports
    rw [gains_of_target rfl, events, Move.events]
    by_cases none : released = 0
    -- A pass that releases nothing is not logged, and then no call of it can have failed.
    · have noFailures : failures = 0 := by omega
      cases h.cache? c <;> cases metric <;> simp [none, noFailures, Move.gain, unlogged]
    · obtain ⟨cache, found⟩ := there none
      rw [found]
      cases metric <;> simp [none, Move.gain, unlogged]
  | countReclaim c failed =>
    obtain ⟨cache, found⟩ := reports
    rw [gains_of_target rfl, found]
    cases metric <;> simp [events, Move.events, Move.gain, unlogged]
  | look c key => exact silent rfl rfl fun _ _ => by cases metric <;> first | rfl | cases logged
  | place c key value =>
    exact silent rfl rfl fun _ _ => by cases metric <;> first | rfl | cases logged
  | takeOut c key => exact silent rfl rfl fun _ _ => by cases metric <;> first | rfl | cases logged
  | _ => exact silent rfl rfl fun _ _ => rfl

/-- An error is logged for each failure of a cleaner. -/
theorem countP_error : (s.events.countP fun e => e.level = .error) = s.fails.toNat := by
  obtain ⟨h, m⟩ := s
  cases m with
  | sweep c =>
    rw [events, Move.events]
    dsimp only
    split <;> rfl
  | build config =>
    rw [events, Move.events]
    cases config.check <;> rfl
  | consult c =>
    rw [events, Move.events]
    cases h.cache? c with
    | none => rfl
    | some cache =>
      dsimp only [Option.elim_some]
      split <;> rfl
  | leaveCleaner call replies verdict => cases verdict <;> rfl
  | closePass c released failures =>
    rw [events, Move.events]
    split <;> rfl
  | _ => rfl

/-- The records of reclaims come from the ends of their requests. -/
theorem countP_isReclaim :
    (s.unlogged .reclaimed : ℤ) = s.records.countP Record.isReclaim + s.unnoted := by
  obtain ⟨h, m⟩ := s
  cases m with
  | noteServed c request reply =>
    cases request with
    | reclaim key =>
      cases reply with
      | flag released => cases released <;> rfl
      | _ => rfl
    | _ => rfl
  | build config =>
    rw [records, Move.records]
    cases config.check with
    | error e => rfl
    | ok checked => cases config.assemble h.board <;> rfl
  | sweep c =>
    rw [records, Move.records]
    split <;> rfl
  | consult c =>
    rw [records, Move.records]
    cases h.cache? c with
    | none => rfl
    | some cache =>
      dsimp only [Option.elim_some]
      split <;> rfl
  | leaveCleaner call replies verdict => cases verdict <;> rfl
  | closePass c released failures =>
    rw [records, Move.records]
    split <;> rfl
  | look c key =>
    rw [records, Move.records]
    cases h.cache? c with
    | none => rfl
    | some cache =>
      rw [Option.elim_some]
      cases cache.table.get? key with
      | none => rfl
      | some id =>
        dsimp only [Option.elim_some]
        split <;> rfl
  | place c key value =>
    rw [records, Move.records]
    cases h.cache? c <;> rfl
  | dropEntries c =>
    rw [records, Move.records]
    cases h.cache? c <;> rfl
  | _ => rfl

end Step

/-! ### What is put down and taken back -/

namespace Rates

/-- A value that is released is to be counted as reclaimed. -/
def ofReleases : Rates := ⟨fun _ => 1, fun _ => 0, fun _ _ => 0, fun _ => 0, fun _ => 0⟩

/-- A failure of a cleaner is to be counted. -/
def ofFailures : Rates := ⟨fun _ => 0, fun _ => 0, fun _ _ => 1, fun _ => 1, fun _ => 1⟩

/-- A failure of the cleaner of a reclaim is to be counted by itself. -/
def ofFailedReclaims (history : List (Step K V)) : Rates :=
  ⟨fun _ => 0, fun _ => 0, fun c id => if reclaimed history c id then 1 else 0, fun _ => 0,
    fun _ => 1⟩

end Rates

namespace Step

variable {s : Step K V}

theorem gains_closePass {h : Host K V} {c : CacheId} {released failures : Nat}
    (reports : (⟨h, .closePass c released failures⟩ : Step K V).Reports) :
    (⟨h, .closePass c released failures⟩ : Step K V).gains .reclaimed = released ∧
      (⟨h, .closePass c released failures⟩ : Step K V).gains .cleanerFailures = failures := by
  obtain ⟨few, there⟩ := reports
  rw [gains_of_target rfl, gains_of_target rfl]
  by_cases none : released = 0
  · have noFailures : failures = 0 := by omega
    cases h.cache? c <;> simp [none, noFailures, Move.gain]
  · obtain ⟨cache, found⟩ := there none
    simp [found, Move.gain]

theorem gains_countReclaim {h : Host K V} {c : CacheId} {failed : Bool}
    (reports : (⟨h, .countReclaim c failed⟩ : Step K V).Reports) :
    (⟨h, .countReclaim c failed⟩ : Step K V).gains .reclaimed = 1 ∧
      (⟨h, .countReclaim c failed⟩ : Step K V).gains .cleanerFailures = failed.toNat := by
  obtain ⟨cache, found⟩ := reports
  rw [gains_of_target rfl, gains_of_target rfl]
  simp [found, Move.gain]

theorem transitions_eq_gains (consistent : s.before.Consistent) (reports : s.Reports) :
    (s.transitions : ℤ) = s.gains .reclaimed + Rates.ofReleases.weight s := by
  rw [transitions, sum_released consistent]
  obtain ⟨h, m⟩ := s
  cases m with
  | closePass c released failures =>
    rw [(gains_closePass reports).1]
    simp [victims, Rates.weight, Rates.ofReleases]
  | countReclaim c failed =>
    rw [(gains_countReclaim reports).1]
    simp [victims, Rates.weight, Rates.ofReleases]
  | _ =>
    rw [gains_eq_zero fun _ _ => rfl]
    simp [victims, Rates.weight, Rates.ofReleases]

theorem fails_eq_gains (reports : s.Reports) :
    (s.fails.toNat : ℤ) = s.gains .cleanerFailures + Rates.ofFailures.weight s := by
  obtain ⟨h, m⟩ := s
  cases m with
  | closePass c released failures =>
    rw [(gains_closePass reports).2]
    simp [fails, Rates.weight, Rates.ofFailures]
  | countReclaim c failed =>
    rw [(gains_countReclaim reports).2]
    cases failed <;> simp [fails, Rates.weight, Rates.ofFailures]
  | leaveCleaner call replies verdict =>
    rw [gains_eq_zero fun _ _ => rfl]
    cases verdict <;> simp [fails, Rates.weight, Rates.ofFailures]
  | _ =>
    rw [gains_eq_zero fun _ _ => rfl]
    simp [fails, Rates.weight, Rates.ofFailures]

theorem failsReclaim_eq_unlogged (history : List (Step K V)) (s : Step K V) :
    ((s.failsReclaim history).toNat : ℤ) =
      s.unlogged .cleanerFailures + (Rates.ofFailedReclaims history).weight s := by
  obtain ⟨h, m⟩ := s
  cases m with
  | countReclaim c failed =>
    cases failed <;> simp [failsReclaim, unlogged, Rates.weight, Rates.ofFailedReclaims]
  | leaveCleaner call replies verdict =>
    cases verdict <;> cases by_reclaim : reclaimed history call.cache call.slot <;>
      simp [failsReclaim, unlogged, Rates.weight, Rates.ofFailedReclaims, by_reclaim]
  | _ => simp [failsReclaim, unlogged, Rates.weight, Rates.ofFailedReclaims, victims]

end Step

/-! ### Runs -/

namespace Host

/-- The reclaims that are counted are noted when their requests end. -/
theorem reclaims_run {w : Work K V α} (notes : w.Notes) (h : Host K V) :
    (w.run h).1.reclaims = h.reclaims + ((w.steps h).map (Step.unlogged .reclaimed)).sum := by
  have noted := sum_eq_add_sum (l := w.steps h) (fun s _ => s.countP_isReclaim)
  have even : ((w.steps h).map Step.unnoted).sum = 0 := notes h
  rw [reclaims, w.records_run, List.countP_append, List.countP_flatMap, reclaims]
  simp only [Function.comp_def]
  omega

theorem events_run (w : Work K V α) (h : Host K V) :
    (w.run h).1.events = h.events ++ (w.steps h).flatMap Step.events := by
  rw [events, w.records_run, List.filterMap_append, List.filterMap_flatMap, events]
  congr 1
  exact List.flatMap_congr fun s _ => s.move.filterMap_records s.before

end Host

/-- The log and the metrics of a host are two accounts of one history. What events say, by their level,
    their message and the numbers that they give by name, adds up to what the counters of all caches
    stand at together: the entries that were swept out, the values that
    passes released and the reactions to pressure. With the reclaims that said so, on any level of
    nesting, the passes make up all that was reclaimed, and that is the number of slots that turned
    from live to dead. There is an error for each failure that is counted, and it is the failure of a
    pass, which the event of the pass tells, or that of a reclaim.

    Counters are words; the numbers agree up to whole turns of them, and agree if none ran over. -/
structure Reconciled (history : List (Step K V)) (h : Host K V) : Prop where
  swept : Agrees (InRange history) (h.total .swept) (h.told .swept)
  evicted : Agrees (InRange history) (h.total .evicted) (h.told .evicted)
  reclaimed : Agrees (InRange history) (h.total .reclaimed) (h.total .evicted + h.reclaims)
  transitions : Agrees (InRange history) (h.total .reclaimed) (history.map Step.transitions).sum
  pressureEvents : Agrees (InRange history) (h.total .pressureEvents) (h.told .pressureEvents)
  cleanerFailures : Agrees (InRange history) (h.total .cleanerFailures) h.errors
  errors : h.errors = h.told .cleanerFailures + history.countP (Step.failsReclaim history)

/-- What is counted was logged or is left out of the log. -/
theorem Work.sum_gains {w : Work K V α} {h : Host K V} (reports : ∀ s ∈ w.steps h, s.Reports)
    (blank : h.events = []) {metric : Metric} (logged : metric.logged = true) :
    ((w.steps h).map (Step.gains metric)).sum =
      (w.run h).1.told metric + ((w.steps h).map (Step.unlogged metric)).sum := by
  have each : ∀ s ∈ w.steps h, s.gains metric =
      (s.events.map (Event.tells metric)).sum + s.unlogged metric := fun s member =>
    (Step.sum_tells (reports s member) logged).symm
  rw [List.map_congr_left each, List.sum_map_add, Host.told, h.events_run, blank, List.nil_append,
    List.map_flatMap, List.flatMap_def, List.sum_flatten, List.map_map]
  rfl

theorem Work.errors_run (w : Work K V α) {h : Host K V} (blank : h.events = []) :
    (w.run h).1.errors = (w.steps h).countP Step.fails := by
  rw [Host.errors, h.events_run, blank, List.nil_append, List.countP_flatMap, countP_eq_sum]
  exact congrArg List.sum (List.map_congr_left fun s _ => s.countP_error)

theorem eq_of_countP_le_one {σ : Type} {p : σ → Bool} {l : List σ} (once : l.countP p ≤ 1) {s t : σ}
    (member : s ∈ l) (holds : p s = true) (also : t ∈ l) (too : p t = true) : s = t := by
  rw [List.countP_eq_length_filter] at once
  have first := List.mem_filter.mpr ⟨member, holds⟩
  have second := List.mem_filter.mpr ⟨also, too⟩
  generalize l.filter p = filtered at once first second
  match filtered with
  | [] => cases first
  | [x] => rw [List.mem_singleton.mp first, List.mem_singleton.mp second]
  | _ :: _ :: _ => simp at once

namespace Session

variable [BEq V] (limit : Nat) (board : PressureBoard) (acts : List (Act K V))

/-- No value is released twice, so that a slot tells whether a reclaim released its value. -/
theorem fit_ofFailedReclaims :
    ∀ s ∈ (empty board : Session K V).history limit acts,
      (Rates.ofFailedReclaims ((empty board : Session K V).history limit acts)).Fit s := by
  intro s member c id releases
  have once := count_releases limit board acts c id
  have atMost := Bool.toNat_le (((empty board : Session K V).run limit acts).1.host.isDead c id)
  generalize (empty board : Session K V).history limit acts = history at member once ⊢
  cases reclaims : s.reclaims with
  | true =>
    have found : reclaimed history c id = true :=
      List.any_eq_true.mpr ⟨s, member, by rw [releases, reclaims, Bool.and_self]⟩
    obtain ⟨h, m⟩ := s
    cases m with
    | releaseValue d key => simp [Rates.ofFailedReclaims, found]
    | _ => cases reclaims
  | false =>
    have other : reclaimed history c id = false := by
      rw [← Bool.not_eq_true, reclaimed, List.any_eq_true]
      rintro ⟨t, also, both⟩
      obtain ⟨too, different⟩ := Bool.and_eq_true_iff.mp both
      have same : s = t := eq_of_countP_le_one (once.trans_le atMost) member releases
        also too
      rw [same, different] at reclaims
      cases reclaims
    obtain ⟨h, m⟩ := s
    cases m with
    | releaseValue d key => cases reclaims
    | _ => simp [Rates.ofFailedReclaims, other]

/-- Each value that is released is counted once as reclaimed. -/
theorem sum_transitions :
    (((empty board : Session K V).history limit acts).map Step.transitions).sum =
      (((empty board : Session K V).history limit acts).map (Step.gains .reclaimed)).sum := by
  have even := sum_weight (K := K) (V := V) limit board acts .ofReleases fun s _ c id _ => by
    cases s.move <;> rfl
  have each : ((((empty board : Session K V).history limit acts).map Step.transitions).sum : ℤ) =
      (((empty board : Session K V).history limit acts).map (Step.gains .reclaimed)).sum +
        (((empty board : Session K V).history limit acts).map Rates.ofReleases.weight).sum :=
    sum_eq_add_sum fun s member =>
      Step.transitions_eq_gains (consistent_before limit board acts s member)
        (reports_run limit board acts s member)
  omega

/-- Each failure of a cleaner is counted once. -/
theorem countP_fails :
    ((empty board : Session K V).history limit acts).countP Step.fails =
      (((empty board : Session K V).history limit acts).map (Step.gains .cleanerFailures)).sum := by
  have even := sum_weight (K := K) (V := V) limit board acts .ofFailures fun s _ c id _ => by
    cases s.move <;> rfl
  have each : (((empty board : Session K V).history limit acts).countP Step.fails : ℤ) =
      (((empty board : Session K V).history limit acts).map (Step.gains .cleanerFailures)).sum +
        (((empty board : Session K V).history limit acts).map Rates.ofFailures.weight).sum := by
    rw [countP_eq_sum]
    exact sum_eq_add_sum fun s member => Step.fails_eq_gains (reports_run limit board acts s member)
  omega

/-- Each failure of the cleaner of a reclaim is counted by itself. -/
theorem countP_failsReclaim :
    ((empty board : Session K V).history limit acts).countP
        (Step.failsReclaim ((empty board : Session K V).history limit acts)) =
      (((empty board : Session K V).history limit acts).map
        (Step.unlogged .cleanerFailures)).sum := by
  have even := sum_weight limit board acts _ (fit_ofFailedReclaims (K := K) (V := V) limit board acts)
  generalize (empty board : Session K V).history limit acts = history at even ⊢
  have each : (history.countP (Step.failsReclaim history) : ℤ) =
      (history.map (Step.unlogged .cleanerFailures)).sum +
        (history.map (Rates.ofFailedReclaims history).weight).sum := by
    rw [countP_eq_sum]
    exact sum_eq_add_sum fun s _ => Step.failsReclaim_eq_unlogged history s
  omega

theorem notes_run : (Act.workAll limit ([] : Cursors K) acts).Notes :=
  Work.operated_notes.workAll (fun _ => Work.notes_make fun _ => rfl)
    (fun limit _ source => Work.drained_notes.insertAll Work.operated_notes limit
      (fun _ _ => Work.notes_make fun _ => rfl) source)
    (fun _ _ _ => Work.notes_make fun _ => rfl) limit [] acts

theorem agrees_gains (metric : Metric) :
    Agrees (InRange ((empty board : Session K V).history limit acts))
      (((empty board : Session K V).run limit acts).1.host.total metric)
      (((empty board : Session K V).history limit acts).map (Step.gains metric)).sum := by
  apply Work.agrees_total
  intro c metric
  simp [empty, Host.counter, Host.empty, Host.cache?]

theorem sum_gains {metric : Metric} (logged : metric.logged = true) :
    (((empty board : Session K V).history limit acts).map (Step.gains metric)).sum =
      ((empty board : Session K V).run limit acts).1.host.told metric +
        (((empty board : Session K V).history limit acts).map (Step.unlogged metric)).sum :=
  Work.sum_gains (reports_run limit board acts) rfl logged

/-- Counters that no reclaim adds to are told in full. -/
theorem agrees_told {metric : Metric} (logged : metric.logged = true)
    (notReclaimed : metric ≠ .reclaimed) (notFailures : metric ≠ .cleanerFailures) :
    Agrees (InRange ((empty board : Session K V).history limit acts))
      (((empty board : Session K V).run limit acts).1.host.total metric)
      (((empty board : Session K V).run limit acts).1.host.told metric) := by
  have nothing :
      (((empty board : Session K V).history limit acts).map (Step.unlogged metric)).sum = 0 := by
    apply List.sum_eq_zero
    intro n member
    obtain ⟨s, _, rfl⟩ := List.mem_map.mp member
    exact s.unlogged_eq_zero notReclaimed notFailures
  have gains := sum_gains (K := K) (V := V) limit board acts logged
  rw [nothing, Nat.add_zero] at gains
  exact gains ▸ agrees_gains limit board acts metric

theorem reclaims_run :
    ((empty board : Session K V).run limit acts).1.host.reclaims =
      (((empty board : Session K V).history limit acts).map (Step.unlogged .reclaimed)).sum :=
  (Host.reclaims_run (notes_run limit acts) (Host.empty board)).trans (Nat.zero_add _)

theorem errors_run :
    ((empty board : Session K V).run limit acts).1.host.errors =
      (((empty board : Session K V).history limit acts).map (Step.gains .cleanerFailures)).sum :=
  (Work.errors_run (Act.workAll limit ([] : Cursors K) acts) rfl).trans
    (countP_fails limit board acts)

/-- The log and the metrics tell the same story at the end of every run, whatever the caches, the
    policies, the pressure and the cleaners. -/
theorem log_tells_metrics :
    Reconciled ((empty board : Session K V).history limit acts)
      ((empty board : Session K V).run limit acts).1.host := by
  have counted := agrees_gains (K := K) (V := V) limit board acts
  have evicted := @agrees_told K V _ _ limit board acts .evicted rfl (by decide) (by decide)
  refine ⟨agrees_told limit board acts rfl (by decide) (by decide), evicted, ?_, ?_,
    agrees_told limit board acts rfl (by decide) (by decide), ?_, ?_⟩
  · refine (counted .reclaimed).trans ?_
    rw [sum_gains limit board acts rfl, reclaims_run, Host.told_reclaimed]
    exact evicted.symm.add (.of_eq rfl)
  · exact (counted .reclaimed).trans (.of_eq (sum_transitions limit board acts).symm)
  · exact (counted .cleanerFailures).trans (.of_eq (errors_run limit board acts).symm)
  · rw [errors_run, sum_gains limit board acts rfl, countP_failsReclaim limit board acts]

end Session

end

/-- No counter ran over. -/
theorem inRange_restoringActs : InRange ((Session.empty .empty).history 2 restoringActs) := by
  intro c metric
  have few : (((Session.empty .empty).history 2 restoringActs).map (Step.gains metric)).sum ≤ 10 := by
    cases metric <;> decide +kernel
  have most := gained_le_sum_gains ((Session.empty .empty).history 2 restoringActs) c metric
  omega

/-- Three cleaners fail, two in passes that are nested in a reclaim, and one is that of the reclaim. -/
theorem log_tells_metrics_restoring :
    let ended := ((Session.empty .empty).run 2 restoringActs).1.host
    let history := (Session.empty .empty).history 2 restoringActs
    ended.reclaims = 1 ∧ ended.total .evicted = 2 ∧
      ended.total .reclaimed = ended.total .evicted + ended.reclaims ∧
      ended.total .reclaimed = (history.map Step.transitions).sum ∧
      history.countP (Step.failsReclaim history) = 1 ∧
      ended.total .cleanerFailures = ended.told .cleanerFailures + 1 := by
  intro ended history
  have reclaims : ended.reclaims = 1 := by decide +kernel
  have evicted : ended.total .evicted = 2 := by decide +kernel
  have failed : history.countP (Step.failsReclaim history) = 1 := by decide +kernel
  have reconciled := Session.log_tells_metrics 2 .empty restoringActs
  refine ⟨reclaims, evicted, reconciled.reclaimed.2 inRange_restoringActs,
    reconciled.transitions.2 inRange_restoringActs, failed, ?_⟩
  rw [reconciled.cleanerFailures.2 inRange_restoringActs, reconciled.errors]
  exact congrArg _ failed

end ReclaimableCache
