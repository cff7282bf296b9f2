import ReclaimableCache.Proofs.Draining
import ReclaimableCache.Proofs.Occupancy

/-!
# Passes with a quiet cleaner

A pass walks round the table once and releases the values of the first slots that it finds live and
without pins, as many as it may. With a quiet cleaner it does nothing else to the cache: the cleaner
is called on each of these values in the order of the walk, however its calls end, and their slots
are put in line in that order.
-/

namespace ReclaimableCache

variable {K V α : Type}

/-- Whether a call of a cleaner fails or panics. -/
def Cleaner.fails (cleaner : Cleaner K V) (call : Cleaning K V) : Bool :=
  decide (cleaner.verdict call ≠ .succeeded)

/-- The call of a cleaner that a move begins. -/
def Step.call? (s : Step K V) : Option (Cleaning K V) :=
  match s.move with
  | .enterCleaner c victim => some (s.before.enterCleaner c victim).2
  | _ => none

/-- The calls of a cleaner on one value after the other, where no other calls are made. -/
def Host.callsOn (h : Host K V) (c : CacheId) (victims : List (Victim K V)) :
    List (Cleaning K V) :=
  victims.mapIdx fun i victim =>
    { cache := c, slot := victim.id, serial := h.cleanings + i, active := h.active
      key := victim.key, value := victim.value }

theorem Host.callsOn_congr {h g : Host K V} (aside : g.aside = h.aside) (c : CacheId)
    (victims : List (Victim K V)) : g.callsOn c victims = h.callsOn c victims := by
  have cleanings : g.cleanings = h.cleanings := congrArg (fun aside => aside.2.1) aside
  have active : g.active = h.active := congrArg (fun aside => aside.2.2) aside
  rw [callsOn, callsOn, cleanings, active]

theorem Host.callsOn_cons (h : Host K V) {g : Host K V} (cleanings : g.cleanings = h.cleanings + 1)
    (active : g.active = h.active) (c : CacheId) (victim : Victim K V)
    (victims : List (Victim K V)) :
    h.callsOn c (victim :: victims) = (h.enterCleaner c victim).2 :: g.callsOn c victims := by
  rw [callsOn, List.mapIdx_cons, callsOn, cleanings, active, enterCleaner]
  simp only [Nat.add_zero, Nat.add_right_comm _ 1]
  rfl

/-- The calls of its cleaner that are made when a cache disposes of values. -/
def Cache.callsOn (cache : Cache K V) (h : Host K V) (c : CacheId) (victims : List (Victim K V)) :
    List (Cleaning K V) :=
  if cache.cleaner.isSome then h.callsOn c victims else []

/-- Whether the cleaner of a cache fails or panics in a call. -/
def Cache.failsIn (cache : Cache K V) (call : Cleaning K V) : Bool :=
  cache.cleaner.any fun cleaner => cleaner.fails call

/-- What becomes of a cache in a pass in which some calls of its cleaner fail. -/
def Cache.passed (cache : Cache K V) (budget failures : Nat) : Cache K V :=
  let released := cache.releaseValues budget
  { released.1 with
    pending := cache.pending ++ released.2.map Victim.id
    counters :=
      (cache.counters.evict released.2.length.toUInt64).cleanerFailure failures.toUInt64 }

/-- What is done in the callbacks of its cleaner has a property. -/
def Cache.CallsBack [DecidableEq K] (cache : Cache K V) (limit : Nat) (P : Step K V → Prop) : Prop :=
  ∀ cleaner, cache.cleaner = some cleaner →
    ∀ call, (Host.runCallbacks limit (cleaner.callbacks call)).Always P

/-- Whether a move is one of those that code makes which raises signals at most. -/
def Move.aloof : Move K V → Bool
  | view | raise _ | noteServed .. => true
  | _ => false

/-- Whether a move may be one of a pass or a reclaim with a quiet cleaner. -/
def Move.ofRelease : Move K V → Bool
  | releaseValues .. | releaseValue .. | closePass .. | countReclaim .. => true
  | m => m.aloof || m.disposing

theorem Move.ofRelease_of_dull {m : Move K V} (dull : m.aloof = true ∨ m.disposing = true) :
    m.ofRelease = true := by
  cases m <;> first | rfl | simp [aloof, disposing] at dull

/-- Such a move looks at nothing. -/
theorem Move.asks_of_ofRelease {m : Move K V} (releases : m.ofRelease = true) : m.asks = none := by
  cases m <;> first | rfl | cases releases

theorem Step.call?_of_aloof {s : Step K V} (aloof : s.move.aloof = true) : s.call? = none := by
  obtain ⟨h, m⟩ := s
  cases m <;> first | rfl | cases aloof

section

variable [DecidableEq K]

/-! ### Code that raises signals at most -/

namespace Work

theorem always_perform_raise {P : Step K V → Prop} (view : ∀ h : Host K V, P ⟨h, .view⟩)
    (note : ∀ (h : Host K V) c request reply, P ⟨h, .noteServed c request reply⟩) {signal : SignalId}
    (raises : ∀ h : Host K V, P ⟨h, .raise signal⟩) (run : CallbackRunner K V) (c : CacheId) :
    (Host.perform run c (.raise signal)).Always P := by
  have sequenced := sequenced_always view
  apply sequenced.bind sequenced.view
  intro h
  cases h.cache? c with
  | none => exact sequenced.pure _
  | some cache =>
    have raised : (performOn run c cache (.raise signal)).Always P :=
      sequenced.bind (always_make raises) fun _ => sequenced.pure _
    apply sequenced.bind raised
    intro reply
    exact sequenced.bind (always_make fun h => note h _ _ _) fun _ => sequenced.pure _

end Work

theorem Routine.Gives.always_aloof {r : Routine K V α} {a : α} (gives : r.Gives a)
    (run : CallbackRunner K V) :
    (r.work (Host.perform run)).Always fun s => s.move.aloof = true := by
  induction r with
  | done result => exact Work.always_pure _
  | ask c request next ih =>
    cases request with
    | raise signal =>
      have raised : (Host.perform run c (.raise signal)).Always fun s => s.move.aloof = true :=
        Work.always_perform_raise (fun _ => rfl) (fun _ _ _ _ => rfl) (fun _ => rfl) run c
      apply raised.bind
      intro reply
      exact (ih reply (gives reply)).bind fun rest => Work.always_pure _
    | _ => exact gives.elim

/-- Moves that are aloof call no cleaner. -/
theorem Host.calls_make_of_aloof {m : Move K V} (aloof : m.aloof = true) (h : Host K V) :
    (m.make h).1.cleanings = h.cleanings ∧ (m.make h).1.active = h.active := by
  cases m <;> first | exact ⟨rfl, rfl⟩ | cases aloof

namespace Work

theorem always_runCallbacks {r : Routine K V Unit} (gives : r.Gives ()) (limit : Nat) :
    (Host.runCallbacks limit r).Always fun s => s.move.aloof = true := by
  cases limit with
  | zero => exact always_pure _
  | succ limit =>
    exact (gives.always_aloof (Host.runCallbacks limit)).bind fun _ => always_pure _

end Work

theorem Cache.Quiet.callsBack {cache : Cache K V} (quiet : cache.Quiet) (limit : Nat) :
    cache.CallsBack limit fun s => s.move.aloof = true := fun cleaner configured call =>
  Work.always_runCallbacks ((quiet cleaner configured).gives call) limit

namespace Work

/-- Where all moves are aloof, no cleaner is called. -/
theorem calls_of_always_aloof {w : Work K V α} (aloof : w.Always fun s => s.move.aloof = true)
    (h : Host K V) : (w.steps h).filterMap Step.call? = [] ∧
      (w.run h).1.cleanings = h.cleanings ∧ (w.run h).1.active = h.active := by
  refine ⟨?_, ?_⟩
  · exact List.filterMap_eq_nil_iff.mpr fun s member => Step.call?_of_aloof (aloof h s member)
  · apply w.invariant_of_steps (P := fun g => g.cleanings = h.cleanings ∧ g.active = h.active)
    · intro s member before
      obtain ⟨cleanings, active⟩ := Host.calls_make_of_aloof (aloof h s member) s.before
      exact ⟨cleanings.trans before.1, active.trans before.2⟩
    · exact ⟨rfl, rfl⟩

/-! ### Calls of a quiet cleaner -/

section

variable {cleaner : Cleaner K V} (quiet : cleaner.Quiet) (limit : Nat) (c : CacheId)
  (victim : Victim K V) (h : Host K V)

include quiet

/-- The cleaner is called once, and the call is over when it returns. -/
theorem calls_callCleaner :
    ((callCleaner (Host.runCallbacks limit) cleaner c victim).steps h).filterMap Step.call? =
        [(h.enterCleaner c victim).2] ∧
      (((callCleaner (Host.runCallbacks limit) cleaner c victim).run h).2 = .failed ↔
        cleaner.fails (h.enterCleaner c victim).2 = true) ∧
      ((callCleaner (Host.runCallbacks limit) cleaner c victim).run h).1.cleanings =
        h.cleanings + 1 ∧
      ((callCleaner (Host.runCallbacks limit) cleaner c victim).run h).1.active = h.active := by
  obtain ⟨calls, cleanings, _⟩ := calls_of_always_aloof
    (always_runCallbacks (quiet.gives (h.enterCleaner c victim).2) limit) (h.enterCleaner c victim).1
  have left : ∀ (g : Host K V) call replies verdict,
      (g.leaveCleaner call replies verdict).1.cleanings = g.cleanings ∧
        (g.leaveCleaner call replies verdict).1.active = call.active ∧
        ((g.leaveCleaner call replies verdict).2 = .failed ↔ verdict ≠ .succeeded) := by
    intro g call replies verdict
    cases verdict <;> exact ⟨rfl, rfl, by simp [Host.leaveCleaner]⟩
  rw [steps_callCleaner, run_callCleaner]
  dsimp only
  obtain ⟨same, level, fails⟩ := left
    ((Host.runCallbacks limit (cleaner.callbacks (h.enterCleaner c victim).2)).run
      (h.enterCleaner c victim).1).1 (h.enterCleaner c victim).2
    ((Host.runCallbacks limit (cleaner.callbacks (h.enterCleaner c victim).2)).run
      (h.enterCleaner c victim).1).2 (cleaner.verdict (h.enterCleaner c victim).2)
  refine ⟨?_, ?_, same.trans cleanings, level⟩
  · rw [List.filterMap_append, List.filterMap_cons, calls]
    rfl
  · rw [fails, Cleaner.fails, decide_eq_true_eq]

end

section

variable {h : Host K V} {c : CacheId} {cache : Cache K V} (found : h.cache? c = some cache)

include found

/-- The cleaner that is called is that of the cache. -/
theorem clean_eq_dispose (run : CallbackRunner K V) (victim : Victim K V) :
    (clean run c victim).run h = (dispose run cache.cleaner c victim).run h ∧
      (clean run c victim).steps h = ⟨h, .view⟩ :: (dispose run cache.cleaner c victim).steps h := by
  rw [clean, run_bind, steps_bind, run_make]
  simp only [Move.make, found, Option.bind_some]
  exact ⟨trivial, rfl⟩

/-- The cleaner is called on one value after the other, whatever came of the calls before, and those
    that fail are counted. -/
theorem calls_cleanAll {cleaner : Cleaner K V} (configured : cache.cleaner = some cleaner)
    (quiet : cleaner.Quiet) (limit : Nat) (victims : List (Victim K V)) :
    ((cleanAll (Host.runCallbacks limit) c victims).steps h).filterMap Step.call? =
        h.callsOn c victims ∧
      ((cleanAll (Host.runCallbacks limit) c victims).run h).2 =
        (h.callsOn c victims).countP cleaner.fails := by
  induction victims generalizing h cache with
  | nil => exact ⟨rfl, rfl⟩
  | cons victim victims ih =>
    have same : cache.Quiet := by
      intro other has
      rw [configured] at has
      exact Option.some.inj has ▸ quiet
    have still := (cache?_clean found same limit victim c).trans found
    obtain ⟨ran, made⟩ := clean_eq_dispose found (Host.runCallbacks limit) victim
    obtain ⟨calls, failed, cleanings, active⟩ := calls_callCleaner quiet limit c victim h
    rw [configured, dispose] at ran made
    rw [← ran] at failed cleanings active
    rw [cleanAll, run_bind, steps_bind, run_bind, steps_bind, run_make, run_bind, steps_bind,
      run_pure, steps_pure, made]
    obtain ⟨cleaned, ends⟩ : ∃ cleaned, (clean (Host.runCallbacks limit) c victim).run h = cleaned :=
      ⟨_, rfl⟩
    rw [ends] at still failed cleanings active ⊢
    have queued := Move.cache?_make_of_target still (m := .enqueue c victim.id) rfl
    have aside := cleaned.1.aside_make (m := .enqueue c victim.id) rfl fun _ same => by cases same
    have counted := (congrArg (fun aside => aside.2.1) aside).trans cleanings
    have level := (congrArg (fun aside => aside.2.2) aside).trans active
    obtain ⟨more, failures⟩ := ih queued configured
    rw [h.callsOn_cons counted level]
    refine ⟨?_, ?_⟩
    · rw [List.filterMap_append, List.filterMap_cons_none rfl, calls, List.filterMap_append,
        List.filterMap_append, more, List.filterMap_nil, List.append_nil]
      rfl
    · rw [List.countP_cons, failures]
      simp only [failed]

theorem calls_cleanAll_of_none (configured : cache.cleaner = none) (run : CallbackRunner K V)
    (victims : List (Victim K V)) :
    ((cleanAll run c victims).steps h).filterMap Step.call? = [] ∧
      ((cleanAll run c victims).run h).2 = 0 := by
  induction victims generalizing h cache with
  | nil => exact ⟨rfl, rfl⟩
  | cons victim victims ih =>
    obtain ⟨ran, made⟩ := clean_eq_dispose found run victim
    rw [configured, dispose, run_pure] at ran
    rw [configured, dispose, steps_pure] at made
    have queued := Move.cache?_make_of_target found (m := .enqueue c victim.id) rfl
    obtain ⟨more, failures⟩ := ih queued configured
    rw [cleanAll, run_bind, steps_bind, ran, run_bind, steps_bind, run_make, run_bind, steps_bind,
      run_pure, steps_pure, made]
    dsimp only
    rw [failures]
    refine ⟨?_, rfl⟩
    rw [List.filterMap_append, List.filterMap_cons_none rfl, List.filterMap_append,
      List.filterMap_append, more]
    rfl

omit found in
theorem evict_of_absent (absent : h.cache? c = none) (run : CallbackRunner K V) (budget : Nat) :
    (evict run c budget).run h = (h, 0) ∧ (evict run c budget).steps h =
      [⟨h, .releaseValues c budget⟩, ⟨h, .closePass c 0 0⟩] := by
  have nothing : (Move.releaseValues c budget).make h = (h, []) := by
    simp only [Move.make, Host.onCache, absent]
  have closes : (Move.closePass c 0 0).make h = (h, ()) := by
    simp [Move.make, Host.closePass, Host.modifyCache, absent]
  rw [evict, run_bind, steps_bind, run_make, nothing]
  exact ⟨congrArg (fun closed => (closed.1, 0)) closes, rfl⟩

section

variable {limit : Nat} {P : Step K V → Prop} (within : cache.CallsBack limit P)
  (view : ∀ g : Host K V, P ⟨g, .view⟩)

include within view

/-- Apart from calls that begin and end and slots that are put in line, nothing is done in the second
    half of a pass but what the callbacks do. -/
theorem mem_steps_clean (victim : Victim K V) {s : Step K V}
    (member : s ∈ (clean (Host.runCallbacks limit) c victim).steps h) :
    P s ∨ s.move.disposing = true := by
  rw [(clean_eq_dispose found _ victim).2, List.mem_cons] at member
  rcases member with rfl | member
  · exact Or.inl (view h)
  · cases configured : cache.cleaner with
    | none =>
      rw [configured, dispose, steps_pure] at member
      cases member
    | some cleaner =>
      rw [configured, dispose] at member
      rcases mem_steps_callCleaner.mp member with rfl | inside | rfl
      · exact Or.inr rfl
      · exact Or.inl (within cleaner configured _ _ s inside)
      · exact Or.inr rfl

theorem mem_steps_cleanAll (quiet : cache.Quiet) (victims : List (Victim K V)) {s : Step K V}
    (member : s ∈ (cleanAll (Host.runCallbacks limit) c victims).steps h) :
    P s ∨ s.move.disposing = true := by
  induction victims generalizing h cache with
  | nil => cases member
  | cons victim victims ih =>
    have cleaned := (cache?_clean found quiet limit victim c).trans found
    have queued := Move.cache?_make_of_target cleaned (m := .enqueue c victim.id) rfl
    rw [cleanAll, steps_bind, steps_bind, steps_bind, run_make, steps_pure] at member
    simp only [List.append_nil, List.mem_append] at member
    rcases member with member | member | member
    · exact mem_steps_clean found within view victim member
    · exact Or.inr (List.mem_singleton.mp member ▸ rfl)
    · exact ih queued within quiet member

end

theorem mem_steps_evict (quiet : cache.Quiet) (limit budget : Nat) {s : Step K V}
    (member : s ∈ (evict (Host.runCallbacks limit) c budget).steps h) :
    s.move.ofRelease = true := by
  have released := Move.cache?_make_of_target found (m := .releaseValues c budget) rfl
  have still : (cache.releaseValues budget).1.Quiet := quiet
  rw [evict, steps_bind, steps_bind, steps_bind, run_make, steps_pure] at member
  simp only [List.append_nil, List.mem_append] at member
  rcases member with member | member | member
  · exact List.mem_singleton.mp member ▸ rfl
  · exact Move.ofRelease_of_dull
      (mem_steps_cleanAll released (still.callsBack limit) (fun _ => rfl) still _ member)
  · exact List.mem_singleton.mp member ▸ rfl

/-- A pass with a quiet cleaner: the values of the slots that it chose are released, the cleaner is
    called on each, and the slots are put in line. -/
theorem evict_quiet (quiet : cache.Quiet) (limit budget : Nat) :
    let calls := cache.callsOn h c (cache.releaseValues budget).2
    ((evict (Host.runCallbacks limit) c budget).steps h).filterMap Step.call? = calls ∧
      ((evict (Host.runCallbacks limit) c budget).run h).2 = (cache.releaseValues budget).2.length ∧
      ((evict (Host.runCallbacks limit) c budget).run h).1.cache? c =
        some (cache.passed budget (calls.countP cache.failsIn)) ∧
      ((evict (Host.runCallbacks limit) c budget).steps h).getLast?.map Step.move =
        some (.closePass c (cache.releaseValues budget).2.length (calls.countP cache.failsIn)) := by
  intro calls
  have victims : ((Move.releaseValues c budget).make h).2 = (cache.releaseValues budget).2 := by
    simp only [Move.make, Host.onCache, found]
  have released := Move.cache?_make_of_target found (m := .releaseValues c budget) rfl
  have aside := h.aside_make (m := .releaseValues c budget) rfl fun _ same => by cases same
  rw [Move.effect] at released
  have still : (cache.releaseValues budget).1.Quiet := quiet
  have cleaned := cache?_cleanAll released still limit (cache.releaseValues budget).2
  obtain ⟨made, failures⟩ : ((cleanAll (Host.runCallbacks limit) c
        (cache.releaseValues budget).2).steps ((Move.releaseValues c budget).make h).1).filterMap
          Step.call? = calls ∧
      ((cleanAll (Host.runCallbacks limit) c (cache.releaseValues budget).2).run
        ((Move.releaseValues c budget).make h).1).2 = calls.countP cache.failsIn := by
    cases configured : cache.cleaner with
    | none =>
      have none := calls_cleanAll_of_none released configured (Host.runCallbacks limit)
        (cache.releaseValues budget).2
      simpa [calls, Cache.callsOn, configured] using none
    | some cleaner =>
      have some := calls_cleanAll released configured (quiet cleaner configured) limit
        (cache.releaseValues budget).2
      rw [Host.callsOn_congr aside] at some
      have fails : cache.failsIn = cleaner.fails := by
        funext call
        rw [Cache.failsIn, configured, Option.any_some]
      simpa [calls, Cache.callsOn, configured, fails] using some
  have closes : ∀ (g : Host K V) m, (make (.closePass c m (calls.countP cache.failsIn))).steps g =
      [⟨g, .closePass c m (calls.countP cache.failsIn)⟩] := fun _ _ => rfl
  rw [evict, steps_bind, steps_bind, steps_bind, run_bind, run_make, run_bind, run_bind, run_make,
    steps_pure, steps_make, List.append_nil, victims, failures, closes]
  refine ⟨?_, rfl, ?_, ?_⟩
  · rw [List.filterMap_append, List.filterMap_append, made]
    exact List.append_nil _
  · exact Move.cache?_make_of_target cleaned rfl
  · rw [List.getLast?_append, List.getLast?_append]
    rfl

end

end Work

/-! ### What a pass leaves -/

namespace Cache

/-- What a pass does to a cache: the values of the slots that it chose are released, and these slots
    are put in line. -/
structure Passes (c later : Cache K V) (chosen : List SlotId) : Prop where
  table : later.table = c.table
  queue : later.queue = c.queue
  pins : ∀ id, later.pool.pins id = c.pool.pins id
  released : ∀ id ∈ chosen, ∃ slot, c.pool.get? id = some slot ∧ slot.live = true ∧
    later.pool.get? id = some slot.released
  others : ∀ id, id ∉ chosen → later.pool.get? id = c.pool.get? id
  pending : later.pending = c.pending ++ chosen

variable {c : Cache K V} (consistent : c.Consistent)

section

include consistent

theorem Consistent.ids_victims (budget : Nat) :
    (c.releaseValues budget).2.map Victim.id = c.unpinned.take budget := by
  rw [consistent.ids_releaseValues, candidates_eq]
  rfl

theorem Consistent.length_victims (budget : Nat) :
    (c.releaseValues budget).2.length = min budget c.unpinned.length := by
  rw [← List.length_map (f := Victim.id), consistent.ids_victims, List.length_take]

theorem Consistent.passes (budget failures : Nat) :
    c.Passes (c.passed budget failures) (c.unpinned.take budget) := by
  have releases := c.releases_releaseValues budget
  rw [← consistent.ids_victims]
  refine ⟨rfl, rfl, releases.pins, fun id member => ?_, fun id other => ?_, rfl⟩
  · obtain ⟨v, victim, rfl⟩ := List.mem_map.mp member
    obtain ⟨slot, found, _, _, live⟩ := releases.were v victim
    have after := releases.get? v.id
    rw [if_pos member, found, Option.map_some] at after
    exact ⟨slot, found, live, after⟩
  · have after := releases.get? id
    rw [if_neg other] at after
    exact after

theorem Consistent.passed (budget failures : Nat) : (c.passed budget failures).Consistent :=
  ⟨(consistent.releaseValues budget).pins, consistent.table, (consistent.releaseValues budget).keyed⟩

end

/-- With its slots in line a pass leaves nothing in flight. -/
theorem Accounts.passed {flight : List SlotId} (accounts : c.Accounts flight)
    (budget failures : Nat) : (c.passed budget failures).Accounts flight := by
  have released := accounts.release (c.releases_releaseValues budget) rfl rfl
  have same : (c.passed budget failures).pending ++ flight =
      (c.releaseValues budget).1.pending ++
        ((c.releaseValues budget).2.map Victim.id ++ flight) := List.append_assoc _ _ _
  exact ⟨same ▸ released.nodup, fun id member => released.dead id (same ▸ member),
    fun key id bound dead => same ▸ released.installed key id bound dead⟩

include consistent

/-- A pass and a sweep leave the live entries that were not chosen. -/
theorem Accounts.get?_passed (accounts : c.Accounts []) (budget failures : Nat) (key : K) :
    (c.passed budget failures).sweep.1.table.get? key =
      (c.liveSlot? key).filter fun id => id ∉ c.unpinned.take budget := by
  have passes := consistent.passes budget failures
  rw [(consistent.passed budget failures).get?_sweep, passes.table, passes.pending, liveSlot?]
  cases bound : c.table.get? key with
  | none => rfl
  | some id =>
    have waits : id ∈ c.pending ↔ c.pool.isLive id = false := by
      rw [SlotPool.isLive_eq_not_isDead (consistent.lt_nextId bound), Bool.not_eq_false']
      constructor
      · intro member
        exact accounts.dead id (List.mem_append_left _ member)
      · intro dead
        simpa using accounts.installed key id bound dead
    cases live : c.pool.isLive id <;> simp [Option.filter, waits, live]

theorem Accounts.size_passed (accounts : c.Accounts []) (budget failures : Nat) :
    (c.passed budget failures).sweep.1.size + min budget c.unpinned.length = c.toList.length := by
  rw [← List.length_take]
  apply consistent.size_of_left (consistent.passed budget failures).sweep
  · exact (consistent.perm_unpinned.nodup_iff.mpr (consistent.nodup_liveSlots.filter _)).sublist
      (List.take_sublist _ _)
  · intro id member
    exact List.mem_of_mem_filter (consistent.perm_unpinned.mem_iff.mp (List.mem_of_mem_take member))
  · exact accounts.get?_passed consistent budget failures

end Cache

/-- Where nothing in a cache waits, a sweep changes nothing. -/
theorem Cache.sweep_of_swept {c : Cache K V} (swept : c.pending = []) : c.sweep = (c, 0) := by
  obtain ⟨pool, table, queue, pending, passes, counters⟩ := c
  subst swept
  simp [sweep, sweepOut, tally, Counters.sweep]

omit [DecidableEq K] in
/-- A pass that finds nothing to release leaves a cache as it is, but starts the next one at the next
    shard. -/
theorem Cache.passed_of_nothing {c : Cache K V} {budget : Nat}
    (nothing : c.candidates budget c.startShard = []) :
    c.passed budget 0 = { c with passes := c.passes + 1 } := by
  simp [passed, releaseValues, nothing, SlotPool.detachAll, Counters.evict, Counters.cleanerFailure]

/-! ### Releasing all that has no pins -/

namespace Host.Ready

variable {h : Host K V} {c : CacheId} {cache : Cache K V} (ready : h.Ready c cache)

include ready

theorem evict_passed (limit budget : Nat) :
    ((Work.evict (Host.runCallbacks limit) c budget).run h).1.Ready c (cache.passed budget
      ((cache.callsOn h c (cache.releaseValues budget).2).countP cache.failsIn)) := by
  have callbacks := Work.inherited_settles (K := K) (V := V).runCallbacks limit
  exact ready.work (Work.settles_evict callbacks c budget)
    (Work.evict_quiet ready.found ready.quiet limit budget).2.2.1

theorem releaseUnpinned_passed (limit : Nat) :
    let calls := cache.callsOn h c (cache.releaseValues Policy.unlimited).2
    ((Work.releaseUnpinned (Host.runCallbacks limit) c).run h).1.Ready c
        (cache.passed Policy.unlimited (calls.countP cache.failsIn)).sweep.1 ∧
      ((Work.releaseUnpinned (Host.runCallbacks limit) c).run h).2 =
        min Policy.unlimited cache.unpinned.length ∧
      ((Work.releaseUnpinned (Host.runCallbacks limit) c).steps h).filterMap Step.call? = calls := by
  intro calls
  obtain ⟨made, count, _⟩ := Work.evict_quiet ready.found ready.quiet limit Policy.unlimited
  have evicted := ready.evict_passed limit Policy.unlimited
  have steps : (Work.releaseUnpinned (Host.runCallbacks limit) c).steps h =
      (Work.evict (Host.runCallbacks limit) c Policy.unlimited).steps h ++
        [⟨((Work.evict (Host.runCallbacks limit) c Policy.unlimited).run h).1, .sweep c⟩] := by
    rw [Work.releaseUnpinned, Work.steps_bind, Work.steps_bind]
    rfl
  rw [Work.run_releaseUnpinned, steps, List.filterMap_append, made]
  refine ⟨evicted.sweep.1, ?_, List.append_nil _⟩
  rw [← ready.here.length_victims]
  exact count

end Host.Ready

namespace Work

variable {h : Host K V} {c : CacheId} {cache : Cache K V} (found : h.cache? c = some cache)

include found

theorem calls_perform (run : CallbackRunner K V) (request : Request K V) :
    ((Host.perform run c request).steps h).filterMap Step.call? =
      ((performOn run c cache request).steps h).filterMap Step.call? := by
  rw [Host.perform, steps_bind, run_make]
  simp only [Move.make, found]
  rw [steps_bind, steps_bind, List.filterMap_append, List.filterMap_append]
  exact List.append_nil _

theorem calls_history [BEq V] {s : Session K V} (here : s.host = h) (limit : Nat)
    (command : Command K V) :
    (s.history limit [.on c command]).filterMap Step.call? =
      ((command.workOn limit s.cursors c cache).steps h).filterMap Step.call? := by
  have single : s.history limit [.on c command] =
      (command.work limit s.cursors c).steps s.host ++ [] := steps_bind _ _ _
  rw [single, List.append_nil, here, Command.work, steps_bind, run_make]
  simp only [Move.make, found]
  rw [List.filterMap_append]
  rfl

end Work

namespace Cache

variable {c : Cache K V} (consistent : c.Consistent) (accounts : c.Accounts [])
  (few : c.size ≤ Policy.unlimited)

include consistent few

theorem Consistent.length_unpinned_le : c.unpinned.length ≤ Policy.unlimited := by
  have parts := consistent.length_unpinned_add
  have live := consistent.length_toList_le
  omega

include accounts

/-- Once all that has no pins is released, the live entries with pins are left. -/
theorem Accounts.get?_exhausted (failures : Nat) (key : K) :
    (c.passed Policy.unlimited failures).sweep.1.table.get? key =
      (c.liveSlot? key).filter fun id => id ∈ c.queue.ids := by
  rw [accounts.get?_passed consistent,
    List.take_of_length_le (consistent.length_unpinned_le few)]
  exact consistent.filter_unpinned key

theorem Accounts.size_exhausted (failures : Nat) :
    (c.passed Policy.unlimited failures).sweep.1.size + min Policy.unlimited c.unpinned.length =
        c.toList.length ∧
      (c.passed Policy.unlimited failures).sweep.1.size ≤ c.queue.capacity := by
  have size := accounts.size_passed consistent Policy.unlimited failures
  have parts := consistent.length_unpinned_add
  have pinned := consistent.length_pinned_le
  have all := consistent.length_unpinned_le few
  omega

theorem Accounts.unpinned_exhausted (failures : Nat) :
    (c.passed Policy.unlimited failures).sweep.1.unpinned = [] := by
  have later := (consistent.passed Policy.unlimited failures).sweep
  rw [List.eq_nil_iff_forall_not_mem]
  intro id member
  rw [later.perm_unpinned.mem_iff, List.mem_filter, later.mem_liveSlots, decide_eq_true_eq] at member
  obtain ⟨⟨key, there⟩, free⟩ := member
  have bound := (Option.filter_eq_some_iff.mp there).1
  rw [accounts.get?_exhausted consistent few, Option.filter_eq_some_iff] at bound
  exact free (of_decide_eq_true bound.2)

end Cache

namespace Session

variable [BEq V]

/-- What comes of releasing all that has no pins, on request. -/
theorem step_releaseUnpinned {s : Session K V} {c : CacheId} {cache : Cache K V}
    (ready : s.host.Ready c cache) (limit : Nat) :
    let calls := cache.callsOn s.host c (cache.releaseValues Policy.unlimited).2
    (s.step limit c (.request .releaseUnpinned)).1.host.Ready c
        (cache.passed Policy.unlimited (calls.countP cache.failsIn)).sweep.1 ∧
      (s.step limit c (.request .releaseUnpinned)).2 =
        .reply (.count (min Policy.unlimited cache.unpinned.length)) ∧
      (s.history limit [.on c (.request .releaseUnpinned)]).filterMap Step.call? = calls := by
  intro calls
  obtain ⟨released, count, made⟩ := ready.releaseUnpinned_passed limit
  have ran : (s.step limit c (.request .releaseUnpinned)).1.host.cache? c =
      ((Work.releaseUnpinned (Host.runCallbacks limit) c).run s.host).1.cache? c ∧
      (s.step limit c (.request .releaseUnpinned)).2 = .reply (.count
        ((Work.releaseUnpinned (Host.runCallbacks limit) c).run s.host).2) := by
    rw [cache?_step_request ready.found, answer_step_request ready.found, Work.performOn,
      Work.run_map]
    exact ⟨rfl, rfl⟩
  refine ⟨?_, ?_, ?_⟩
  · exact ready.work (Work.inherited_settles.act limit s.cursors
      (.on c (.request .releaseUnpinned))) (ran.1.trans released.found)
  · rw [ran.2, count]
  · rw [Work.calls_history ready.found rfl, Command.workOn, Work.steps_bind, Host.serve,
      List.filterMap_append, Work.calls_perform ready.found, Work.performOn, Work.steps_map, made]
    exact List.append_nil _

/-- A pass with a quiet cleaner, whatever the table, the pins, the budget and the shard that it starts
    at, and however calls of the cleaner end: it releases the values of the first slots that are live
    and without pins in the order of its walk, as many as the budget allows. The cleaner is called
    once on each of them in that order, and so are they put in line. The pass says how many they are
    and how many calls failed, and changes nothing else. So, as long as a machine word can count the
    entries, releasing all that has no pins leaves the live entries with pins and says how many the
    others were; done again at once it finds nothing to release and calls no cleaner. -/
theorem pass_exact (limit : Nat) :
    (∀ (h : Host K V) (c : CacheId) (cache : Cache K V) (budget : Nat), h.Consistent →
      h.cache? c = some cache → cache.Quiet →
      let pass := Work.evict (Host.runCallbacks limit) c budget
      ∃ victims later, victims.map Victim.id = cache.unpinned.take budget ∧
        (∀ v ∈ victims, ∃ slot, cache.pool.get? v.id = some slot ∧ slot.key = v.key ∧
          slot.content = v.value) ∧
        (pass.run h).1.cache? c = some later ∧
        cache.Passes later (cache.unpinned.take budget) ∧
        (pass.run h).2 = min budget cache.unpinned.length ∧
        (pass.steps h).filterMap Step.call? = cache.callsOn h c victims ∧
        (pass.steps h).getLast?.map Step.move = some (.closePass c
          (min budget cache.unpinned.length) ((cache.callsOn h c victims).countP cache.failsIn))) ∧
    (∀ (board : PressureBoard) (acts : List (Act K V)) (c : CacheId) (cache : Cache K V),
      let s := ((empty board).run limit acts).1
      s.host.cache? c = some cache → cache.Quiet → cache.size ≤ Policy.unlimited →
      let once := s.step limit c (.request .releaseUnpinned)
      let again := once.1.step limit c (.request .releaseUnpinned)
      ∃ later, once.1.host.cache? c = some later ∧
        (∀ key, later.table.get? key = (cache.liveSlot? key).filter fun id => id ∈ cache.queue.ids) ∧
        later.size ≤ cache.queue.capacity ∧
        once.2 = .reply (.count (cache.toList.length - later.size)) ∧
        again.2 = .reply (.count 0) ∧
        (once.1.history limit [.on c (.request .releaseUnpinned)]).filterMap Step.call? = [] ∧
        again.1.host.cache? c = some { later with passes := later.passes + 1 }) := by
  refine ⟨?_, ?_⟩
  · intro h c cache budget consistent found quiet pass
    have here := consistent c cache found
    obtain ⟨calls, released, after, closes⟩ := Work.evict_quiet found quiet limit budget
    rw [here.length_victims] at released closes
    refine ⟨(cache.releaseValues budget).2, _, here.ids_victims budget, ?_, after,
      here.passes budget _, released, calls, closes⟩
    intro v member
    obtain ⟨slot, there, key, value, _⟩ := (cache.releases_releaseValues budget).were v member
    exact ⟨slot, there, key, value⟩
  · intro board acts c cache s found quiet few once again
    have ready : s.host.Ready c cache :=
      ⟨found, consistent_run limit board acts, (accounts_run limit board acts).1, quiet⟩
    obtain ⟨after, count, _⟩ := step_releaseUnpinned ready limit
    -- The second pass starts at the next shard, but finds nothing that is not pinned.
    obtain ⟨last, none, calls⟩ := step_releaseUnpinned after limit
    generalize (cache.callsOn _ c _).countP cache.failsIn = failures at after last none calls
    obtain ⟨size, pinned⟩ := ready.accounted.size_exhausted ready.here few failures
    have nothing := ready.accounted.unpinned_exhausted ready.here few failures
    have candidates : (cache.passed Policy.unlimited failures).sweep.1.candidates Policy.unlimited
        (cache.passed Policy.unlimited failures).sweep.1.startShard = [] := by
      rw [Cache.candidates_eq]
      exact (congrArg (List.take _) nothing).trans List.take_nil
    have silent : (cache.passed Policy.unlimited failures).sweep.1.callsOn once.1.host c
        ((cache.passed Policy.unlimited failures).sweep.1.releaseValues Policy.unlimited).2 = [] := by
      rw [Cache.releaseValues, candidates, Cache.callsOn]
      exact ite_self _
    refine ⟨_, after.found, ready.accounted.get?_exhausted ready.here few failures, pinned, ?_, ?_,
      calls.trans silent, ?_⟩
    · rw [← size, Nat.add_sub_cancel_left]
      exact count
    · rw [nothing, List.length_nil, Nat.min_zero] at none
      exact none
    · rw [silent, List.countP_nil, Cache.passed_of_nothing candidates] at last
      exact last.found.trans (congrArg some (congrArg Prod.fst (Cache.sweep_of_swept rfl)))

end Session

end

/-- A cache of one pin that releases values on request only. Its cleaner raises a signal, and panics
    on one key. -/
def Config.grumbling : Config UInt64 Nat where
  pinCapacity := 1
  shards := some 2
  hasher := .standard
  cleaner := some {
    callbacks := fun _ => .inTurn 0 [.raise 0] ()
    verdict := fun call => if call.key = 3 then .panicked .silent else .succeeded }
  policy := .manual
  signal := none

theorem quiet_grumbling {cache : Cache UInt64 Nat}
    (configured : cache.cleaner = Config.grumbling.cleaner) : cache.Quiet := by
  rw [Cache.Quiet, configured]
  rintro _ same call
  cases same
  exact ⟨rfl, fun _ => trivial⟩

/-- Four values are stored in such a cache. -/
def grumblingActs : List (Act UInt64 Nat) :=
  [.build .grumbling, .on 0 (.request (.insert 1 10)), .on 0 (.request (.insert 2 20)),
    .on 0 (.request (.insert 3 30)), .on 0 (.request (.insert 4 40))]

/-- A pass of two releases the values under the keys 3 and 1, although the cleaner panics on the first
    of them. Releasing all that has no pins leaves the value that was stored last. -/
theorem pass_exact_grumbling :
    (∃ cache later victims,
      ((Session.empty .empty).run 1 grumblingActs).1.host.cache? 0 = some cache ∧
      ((Work.evict (Host.runCallbacks 1) 0 2).run
        ((Session.empty .empty).run 1 grumblingActs).1.host).1.cache? 0 = some later ∧
      cache.Passes later [2, 0] ∧ victims.map Victim.id = [2, 0] ∧
      (((Work.evict (Host.runCallbacks 1) 0 2).steps
        ((Session.empty .empty).run 1 grumblingActs).1.host).filterMap Step.call?) =
          cache.callsOn ((Session.empty .empty).run 1 grumblingActs).1.host 0 victims) ∧
    ∃ cache later, ((Session.empty .empty).run 1 grumblingActs).1.host.cache? 0 = some cache ∧
      (((Session.empty .empty).run 1 grumblingActs).1.step 1 0
        (.request .releaseUnpinned)).1.host.cache? 0 = some later ∧ later.size ≤ 1 ∧
      later.table.get? 4 = some 3 ∧ later.table.get? 3 = none := by
  have there : (((Session.empty .empty).run 1 grumblingActs).1.host.cache? 0).map (fun cache =>
      (cache.unpinned, cache.size, cache.queue, cache.liveSlot? 4, cache.liveSlot? 3)) =
        some ([2, 0, 1], 4, ⟨1, [3]⟩, some 3, some 2) := by decide +kernel
  obtain ⟨cache, found, shown⟩ := Option.map_eq_some_iff.mp there
  obtain ⟨unpinned, size, queue, fourth, third⟩ : _ ∧ _ ∧ _ ∧ _ ∧ _ := by simpa using shown
  have quiet : cache.Quiet := by
    have configured : (((Session.empty .empty).run 1 grumblingActs).1.host.cache? 0).map
        Cache.cleaner = some Config.grumbling.cleaner := rfl
    rw [found, Option.map_some, Option.some.injEq] at configured
    exact quiet_grumbling configured
  have consistent := Session.consistent_run 1 .empty grumblingActs
  refine ⟨?_, ?_⟩
  · obtain ⟨victims, later, ids, _, after, passes, _, calls, _⟩ :=
      (Session.pass_exact 1).1 _ 0 cache 2 consistent found quiet
    rw [unpinned] at ids passes
    exact ⟨cache, later, victims, found, after, passes, ids, calls⟩
  · obtain ⟨later, after, left, few, _⟩ :=
      (Session.pass_exact 1).2 .empty grumblingActs 0 cache found quiet (by rw [size]; decide)
    rw [queue] at few left
    refine ⟨cache, later, found, after, few, ?_, ?_⟩
    · rw [left, fourth]
      rfl
    · rw [left, third]
      rfl

end ReclaimableCache
