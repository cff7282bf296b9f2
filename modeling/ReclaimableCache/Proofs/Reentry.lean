import ReclaimableCache.Proofs.Bounds
import ReclaimableCache.Proofs.Reaction

/-!
# Look-ups from inside a cleaner

A cleaner may look values up in the very cache that it was called for. Each such look-up drains the
cache once more, in the middle of a pass: what the pass released is still in the table. A soft limit
counts these entries, so that more values are released than are above the limit, but not more than
so many.
-/

namespace ReclaimableCache

variable {K V α β : Type}

/-- Code that does nothing but look values up in one cache. -/
def Routine.LooksIn (c : CacheId) : Routine K V α → Prop
  | done _ => True
  | ask d request next => (d = c ∧ ∃ key, request = .get key) ∧ ∀ reply, (next reply).LooksIn c

/-- Whether a move takes entries out of a table, live ones included. -/
def Move.discards : Move K V → Bool
  | place .. | takeOut .. | takeOutSlot .. | dropEntries _ => true
  | _ => false

section

variable [DecidableEq K]

/-! ### Live entries that stay -/

/-- A look-up takes an entry out only if it has no value. -/
theorem Cache.get?_touch_of_liveSlot? {c : Cache K V} {key : K} {id : SlotId}
    (live : c.liveSlot? key = some id) (k : K) : (c.touch k).1.table.get? key = some id := by
  obtain ⟨bound, alive⟩ := Option.filter_eq_some_iff.mp live
  rw [touch]
  cases there : c.table.get? k with
  | none => exact bound
  | some other =>
    have same := (PinQueue.sameValues_pin c.queue c.pool other).value? other
    simp only [pin, same]
    cases value : c.pool.value? other with
    | some value => exact bound
    | none =>
      have apart : ¬(key = k ∧ c.table.get? k = some other) := by
        rintro ⟨rfl, _⟩
        obtain rfl := Option.some.inj (bound.symm.trans there)
        rw [SlotPool.isLive, value] at alive
        cases alive
      simp only [tally, ShardedMap.get?_eraseIfSame, if_neg apart, bound]

/-- A live entry stays in the table, although its value may be released. -/
theorem Host.holds_of_isLive {h : Host K V} {flight : Flight} (consistent : h.Consistent)
    (accounts : h.Accounts flight) {m : Move K V} (keeps : m.discards = false) {c : CacheId}
    {id : SlotId} (live : h.isLive c id = true) : (m.make h).1.holds c id = true := by
  obtain ⟨held, alive⟩ := Bool.and_eq_true_iff.mp live
  cases found : h.cache? c with
  | none =>
    rw [holds, found] at held
    cases held
  | some cache =>
    have cached := consistent c cache found
    obtain ⟨key, bound⟩ := (holds_iff consistent found).mp held
    have slot : cache.liveSlot? key = some id := by
      rw [isDead, found, Option.any_some,
        ← SlotPool.isLive_eq_not_isDead (cached.lt_nextId bound)] at alive
      rw [Cache.liveSlot?, bound, Option.filter_some, if_pos alive]
    rw [holds_iff (consistent.make m) (Move.cache?_make_of_some found m)]
    refine ⟨key, ?_⟩
    rw [Move.effectOn]
    split
    · cases m with
      | sweep d =>
        have swept := (accounts.present c cache found).liveSlot?_sweep cached key
        exact (Option.filter_eq_some_iff.mp (swept.trans slot)).1
      | look d k => exact Cache.get?_touch_of_liveSlot? slot k
      | releaseValue d k =>
        rw [Move.effect, Cache.releaseValueOf]
        split <;> exact bound
      | place | takeOut | takeOutSlot | dropEntries => cases keeps
      | _ => exact bound
    · exact bound

theorem Step.liveIn_le {s : Step K V} {flight : Flight} (consistent : s.before.Consistent)
    (accounts : s.before.Accounts flight) (keeps : s.move.discards = false) (c : CacheId) :
    s.before.liveIn c ≤ s.after.liveIn c + s.released c := by
  have each : ∀ id, (s.before.isLive c id).toNat ≤
      (s.after.isLive c id).toNat + (s.releases c id).toNat := by
    intro id
    cases live : s.before.isLive c id with
    | false => exact Nat.zero_le _
    | true =>
      have held : s.after.holds c id = true := Host.holds_of_isLive consistent accounts keeps live
      have alive := (Bool.and_eq_true_iff.mp live).2
      rw [Host.isLive, held, releases, alive]
      cases s.after.isDead c id <;> decide
  obtain ⟨n, below, later⟩ := s.exists_madeBelow c
  have all := List.sum_le_sum fun id (_ : id ∈ List.range n) => each id
  rw [List.sum_map_add, ← countP_eq_sum, ← countP_eq_sum, ← countP_eq_sum,
    countP_releases consistent below, Host.countP_isLive consistent below] at all
  have after : ((List.range n).countP fun id => s.after.isLive c id) = s.after.liveIn c :=
    Host.countP_isLive (consistent.make s.move) later
  rw [← after]
  exact all

/-! ### Soft limits whose cleaners look values up -/

/-- A cache with a soft limit that watches no signal, and whose cleaner does nothing but look values up
    in it. The limit and the number of pins leave room for `most` entries. -/
structure Cache.Curious (cache : Cache K V) (c : CacheId) (most : Nat) : Prop where
  limit : ∃ maxEntries positive, cache.policy = .softLimit maxEntries positive ∧
    most = max maxEntries cache.queue.capacity
  unwatched : cache.watch = none
  looks : ∀ cleaner, cache.cleaner = some cleaner → ∀ call, (cleaner.callbacks call).LooksIn c

namespace Cache.Curious

variable {cache : Cache K V} {c : CacheId} {most : Nat} (curious : cache.Curious c most)

include curious

omit [DecidableEq K] in
theorem budget (board : PressureBoard) : cache.budget (cache.usage board) = cache.size - most := by
  obtain ⟨maxEntries, positive, policy, rfl⟩ := curious.limit
  have calm : (cache.usage board).underPressure = false := by
    rw [usage, curious.unwatched]
    rfl
  rw [Cache.budget, policy, Policy.budget, calm]
  rfl

theorem effectOn (m : Move K V) (board : PressureBoard) :
    (m.effectOn board c cache).Curious c most := by
  obtain ⟨maxEntries, positive, policy, most⟩ := curious.limit
  have grows := cache.grows_effectOn m board c
  refine ⟨⟨maxEntries, positive, grows.policy.trans policy, ?_⟩, ?_, ?_⟩
  · rw [Move.effectOn]
    split
    · rw [cache.capacity_effect m board, most]
    · exact most
  · by_cases asks : m = .consult c
    · rw [asks, Move.effectOn, Move.target, if_pos rfl]
      exact congrArg (Option.map _) curious.unwatched
    · exact (cache.polled_effectOn board asks).2.trans curious.unwatched
  · rw [grows.cleaner]
    exact curious.looks

end Cache.Curious

/-- Such a cache is there. -/
def Host.Curious (h : Host K V) (c : CacheId) (most : Nat) : Prop :=
  ∃ cache, h.cache? c = some cache ∧ cache.Curious c most

theorem Host.Curious.run {h : Host K V} {c : CacheId} {most : Nat} (curious : h.Curious c most)
    (w : Work K V α) : (w.run h).1.Curious c most := by
  apply w.invariant_of_steps (P := fun g => g.Curious c most) _ curious
  rintro s _ ⟨cache, found, curious⟩
  exact ⟨_, Move.cache?_make_of_some found s.move, curious.effectOn s.move s.before.board⟩

/-- The host is sound before a move, and when the policy of a cache is asked no more than some number of
    entries in the table have no value. -/
structure Step.Fair (c : CacheId) (stale : Nat) (s : Step K V) : Prop where
  consistent : s.before.Consistent
  accounts : ∃ flight, s.before.Accounts flight
  counted : s.consults c = true → s.before.size c ≤ s.before.liveIn c + stale

namespace Work

variable {c : CacheId} {most stale floor : Nat}

/-- Some work leaves as many live entries as there may be at the least, in a cache whose cleaner looks
    values up. -/
def Spares (c : CacheId) (most stale floor : Nat) (w : Work K V α) : Prop :=
  ∀ h : Host K V, h.Curious c most → (∀ s ∈ w.steps h, s.Fair c stale) → floor ≤ h.liveIn c →
    floor ≤ (w.run h).1.liveIn c

theorem Spares.bind {w : Work K V α} {f : α → Work K V β} (first : w.Spares c most stale floor)
    (second : ∀ a, (f a).Spares c most stale floor) : (w >>= f).Spares c most stale floor := by
  intro h curious fair live
  rw [steps_bind] at fair
  rw [run_bind]
  apply second _ _ (curious.run w) fun s member => fair s (List.mem_append_right _ member)
  exact first h curious (fun s member => fair s (List.mem_append_left _ member)) live

theorem spares_make {m : Move K V} (keeps : m.discards = false) (spares : m.releases = false) :
    (make m).Spares c most stale floor := by
  intro h _ fair live
  obtain ⟨consistent, ⟨flight, accounts⟩, _⟩ := fair ⟨h, m⟩ (List.mem_singleton_self _)
  have left := Step.liveIn_le (s := ⟨h, m⟩) consistent accounts keeps c
  have none := Step.released_eq_zero (s := ⟨h, m⟩) consistent spares c
  rw [none] at left
  exact live.trans left

theorem sequenced_spares : Sequenced fun _ (w : Work K V _) => w.Spares c most stale floor :=
  ⟨fun _ _ _ _ live => live, Spares.bind, spares_make rfl rfl⟩

section

variable {run : CallbackRunner K V}
  (callbacks : ∀ r, r.LooksIn c → (run r).Spares c most stale floor)

include callbacks

/-- The cleaner that is called is the one of the cache. -/
theorem spares_clean (victim : Victim K V) : (clean run c victim).Spares c most stale floor := by
  intro h curious fair live
  obtain ⟨cache, found, looks⟩ := curious
  have view : (Move.view : Move K V).make h = (h, h) := rfl
  rw [clean, steps_bind, run_make, view, found, Option.bind_some] at fair
  rw [clean, run_bind, run_make, view, found, Option.bind_some]
  have called : (dispose run cache.cleaner c victim).Spares c most stale floor := by
    cases has : cache.cleaner with
    | none => exact sequenced_spares.pure _
    | some cleaner =>
      apply Spares.bind (spares_make rfl rfl)
      intro call
      apply Spares.bind (callbacks _ (looks.looks cleaner has call))
      intro replies
      exact spares_make rfl rfl
  exact called h ⟨cache, found, looks⟩ (fun s member => fair s (List.mem_append_right _ member)) live

theorem spares_cleanAll (victims : List (Victim K V)) :
    (cleanAll run c victims).Spares c most stale floor := by
  induction victims with
  | nil => exact sequenced_spares.pure 0
  | cons victim victims ih =>
    apply Spares.bind (spares_clean callbacks victim)
    intro disposal
    apply Spares.bind (spares_make rfl rfl)
    intro _
    exact ih.bind fun failures => sequenced_spares.pure _

/-- A pass takes no more live entries away than its budget says, apart from what look-ups of the cleaner
    do. -/
theorem le_liveIn_evict {budget : Nat} {h : Host K V} (curious : h.Curious c most)
    (fair : ∀ s ∈ (evict run c budget).steps h, s.Fair c stale)
    (left : floor ≤ h.liveIn c - budget) : floor ≤ ((evict run c budget).run h).1.liveIn c := by
  obtain ⟨consistent, ⟨flight, accounts⟩, _⟩ := fair ⟨h, .releaseValues c budget⟩ List.mem_cons_self
  have lost : Step.released c ⟨h, .releaseValues c budget⟩ ≤ budget := by
    obtain ⟨cache, found, _⟩ := curious
    have target : (Move.releaseValues c budget : Move K V).target = some c := rfl
    have victims := (consistent c cache found).length_victims budget
    rw [Step.released_eq consistent, if_pos target]
    simp only [Step.victims, Move.make, Host.onCache, found]
    omega
  have stays : h.liveIn c ≤ ((Move.releaseValues c budget).make h).1.liveIn c +
      Step.released c ⟨h, .releaseValues c budget⟩ :=
    Step.liveIn_le (s := ⟨h, .releaseValues c budget⟩) consistent accounts rfl c
  have rest : ∀ victims : List (Victim K V), (cleanAll run c victims >>= fun failures =>
      make (.closePass c victims.length failures) >>= fun _ =>
        pure victims.length).Spares c most stale floor := by
    intro victims
    apply (spares_cleanAll callbacks victims).bind
    intro failures
    exact Spares.bind (spares_make rfl rfl) fun _ => sequenced_spares.pure _
  rw [evict, steps_bind] at fair
  rw [evict, run_bind]
  apply rest _ _ (curious.run (make (.releaseValues c budget)))
    fun s member => fair s (List.mem_append_right _ member)
  rw [run_make]
  omega

theorem le_liveIn_spend {budget : Nat} {h : Host K V} (curious : h.Curious c most)
    (fair : ∀ s ∈ (spend run c budget).steps h, s.Fair c stale)
    (left : floor ≤ h.liveIn c - budget) : floor ≤ ((spend run c budget).run h).1.liveIn c := by
  by_cases nothing : budget = 0
  · rw [spend, if_pos nothing]
    exact left.trans (Nat.sub_le _ _)
  · rw [spend, if_neg nothing, steps_bind] at fair
    rw [spend, if_neg nothing, run_bind]
    have evicted := le_liveIn_evict callbacks curious
      (fun s member => fair s (List.mem_append_left _ member)) left
    have swept : ∀ released, (if released = 0 then pure () else make (.sweep c) :
        Work K V Unit).Spares c most stale floor := by
      intro released
      split
      · exact sequenced_spares.pure ()
      · exact spares_make rfl rfl
    exact swept _ _ (curious.run _) (fun s member => fair s (List.mem_append_right _ member)) evicted

/-- The budget exceeds what is above the limit by no more than the entries that have no value. -/
theorem spares_drain (low : floor ≤ most - stale) :
    (drain run c : Work K V Unit).Spares c most stale floor := by
  rw [drain_eq_spend]
  apply Spares.bind (spares_make rfl rfl)
  intro _ h curious fair live
  rw [steps_bind] at fair
  rw [run_bind]
  apply le_liveIn_spend callbacks (curious.run (make (.consult c)))
    fun s member => fair s (List.mem_append_right _ member)
  obtain ⟨consistent, ⟨flight, accounts⟩, counted⟩ :=
    fair ⟨h, .consult c⟩ (List.mem_append_left _ (List.mem_singleton_self _))
  obtain ⟨cache, found, asked⟩ := curious
  have few : h.size c ≤ h.liveIn c + stale := counted (by simp [Step.consults, Step.meets, found])
  have stays : h.liveIn c ≤ ((Move.consult c).make h).1.liveIn c +
      Step.released c ⟨h, .consult c⟩ :=
    Step.liveIn_le (s := ⟨h, .consult c⟩) consistent accounts rfl c
  rw [Step.released_eq_zero consistent rfl] at stays
  rw [Host.size, found, Option.elim_some] at few
  rw [run_make, Move.consult_snd found, asked.budget]
  omega

theorem spares_perform (low : floor ≤ most - stale) (key : K) :
    (Host.perform run c (.get key) : Work K V _).Spares c most stale floor := by
  have got : (get run c key).Spares c most stale floor :=
    (spares_drain callbacks low).bind fun _ => spares_make rfl rfl
  apply Spares.bind (spares_make rfl rfl)
  intro h
  cases h.cache? c with
  | none => exact sequenced_spares.pure _
  | some cache =>
    apply Spares.bind (sequenced_spares.map _ got)
    intro reply
    exact Spares.bind (spares_make rfl rfl) fun _ => sequenced_spares.pure _

theorem spares_routine (low : floor ≤ most - stale) {r : Routine K V α} (looks : r.LooksIn c) :
    (r.work (Host.perform run)).Spares c most stale floor := by
  induction r with
  | done result => exact sequenced_spares.pure _
  | ask d request next ih =>
    obtain ⟨⟨rfl, key, rfl⟩, others⟩ := looks
    apply (spares_perform callbacks low key).bind
    intro reply
    exact (ih reply (others reply)).bind fun rest => sequenced_spares.pure _

end

theorem spares_runCallbacks (low : floor ≤ most - stale) (limit : Nat) (r : Routine K V Unit)
    (looks : r.LooksIn c) : (Host.runCallbacks limit r).Spares c most stale floor := by
  induction limit generalizing r with
  | zero => exact sequenced_spares.pure []
  | succ limit ih => exact sequenced_spares.map _ (spares_routine ih low looks)

end Work

namespace Session

variable [BEq V]

/-- With a soft limit, without a signal to watch, and with a cleaner that does nothing but look values
    up in the very cache, a look-up leaves as many live entries as there are or as the limit and the
    number of pins allow, but for those entries that had no value when the policy was asked. Where the
    policy is asked about live entries only, the limit is kept. -/
theorem soft_limit_kept {limit : Nat} {board : PressureBoard} {s : Session K V}
    (reachable : s.Reachable limit board) {c : CacheId} {cache : Cache K V}
    (found : s.host.cache? c = some cache) {maxEntries : Nat} {positive : 0 < maxEntries}
    (policy : cache.policy = .softLimit maxEntries positive) (unwatched : cache.watch = none)
    (looks : ∀ cleaner, cache.cleaner = some cleaner → ∀ call, (cleaner.callbacks call).LooksIn c)
    {key : K} {stale : Nat}
    (counted : ∀ t ∈ s.history limit [.on c (.request (.get key))], t.consults c = true →
      t.before.size c ≤ t.before.liveIn c + stale) :
    min (s.host.liveIn c) (max maxEntries cache.queue.capacity - stale) ≤
      (s.step limit c (.request (.get key))).1.host.liveIn c := by
  obtain ⟨acts, rfl⟩ := reachable
  have curious : Host.Curious _ c (max maxEntries cache.queue.capacity) :=
    ⟨cache, found, ⟨maxEntries, positive, policy, rfl⟩, unwatched, looks⟩
  have fair : ∀ t ∈ history limit ((empty board).run limit acts).1 [.on c (.request (.get key))],
      t.Fair c stale := by
    intro t member
    have inside : t ∈ (empty board).history limit (acts ++ [.on c (.request (.get key))]) := by
      rw [history_append]
      exact List.mem_append_right _ member
    exact ⟨consistent_before limit board _ t inside, (accounts_run limit board _).2 t inside,
      counted t member⟩
  generalize (empty board).run limit acts = ran at *
  have low := Nat.min_le_right (ran.1.host.liveIn c) (max maxEntries cache.queue.capacity - stale)
  have served : (Command.workOn limit ran.1.cursors c cache (.request (.get key))).Spares c
      (max maxEntries cache.queue.capacity) stale
      (min (ran.1.host.liveIn c) (max maxEntries cache.queue.capacity - stale)) :=
    (Work.spares_perform (Work.spares_runCallbacks low limit) low key).bind fun _ =>
      Work.sequenced_spares.pure _
  rw [host_step found]
  apply served _ curious _ (Nat.min_le_left _ _)
  intro t member
  rw [history_command found] at fair
  exact fair t (List.mem_cons_of_mem _ member)

end Session

end

/-- A cache with one pin and a limit of two entries, whose cleaner looks a value up in it. -/
def Config.curious : Config UInt64 Nat where
  pinCapacity := 1
  shards := some 2
  hasher := .standard
  cleaner := some {
    callbacks := fun call => .inTurn 0 [.get (call.key + 100)] ()
    verdict := fun _ => .succeeded }
  policy := .softLimit 2 Nat.two_pos
  signal := none

/-- Three values are stored in such a cache. -/
def curiousActs : List (Act UInt64 Nat) :=
  [.build .curious, .on 0 (.request (.insert 1 10)), .on 0 (.request (.insert 3 30)),
    .on 0 (.request (.insert 2 20))]

theorem curious_run : ∃ cache, ((Session.empty .empty).run 1 curiousActs).1.host.cache? 0 = some cache ∧
    cache.policy = .softLimit 2 Nat.two_pos ∧ cache.watch = none ∧ cache.queue.capacity = 1 ∧
    ∀ cleaner, cache.cleaner = some cleaner → ∀ call, (cleaner.callbacks call).LooksIn 0 := by
  have shown : (((Session.empty .empty).run 1 curiousActs).1.host.cache? 0).map (fun cache =>
      (cache.policy, cache.watch.isNone, cache.queue.capacity, cache.cleaner)) =
        some (.softLimit 2 Nat.two_pos, true, 1, Config.curious.cleaner) := rfl
  obtain ⟨cache, found, facts⟩ := Option.map_eq_some_iff.mp shown
  simp only [Prod.mk.injEq, Option.isNone_iff_eq_none] at facts
  obtain ⟨policy, unwatched, capacity, configured⟩ := facts
  refine ⟨cache, found, policy, unwatched, capacity, ?_⟩
  rw [configured]
  rintro _ same call
  cases same
  exact ⟨⟨rfl, _, rfl⟩, fun _ => trivial⟩

/-- Where the cleaner looks a value up, the entry of the value that it was called for counts once more,
    and a second value is released: of three live entries one is left. -/
theorem soft_limit_missed_curious :
    ∃ cache, ((Session.empty .empty).run 1 curiousActs).1.host.cache? 0 = some cache ∧
      cache.policy = .softLimit 2 Nat.two_pos ∧ cache.watch = none ∧
      (∀ cleaner, cache.cleaner = some cleaner → ∀ call, (cleaner.callbacks call).LooksIn 0) ∧
      ((Session.empty .empty).run 1 curiousActs).1.host.liveIn 0 = 3 ∧
      (((Session.empty .empty).run 1 curiousActs).1.step 1 0 (.request (.get 2))).1.host.liveIn 0 = 1 ∧
      ¬min (((Session.empty .empty).run 1 curiousActs).1.host.liveIn 0)
          (max 2 cache.queue.capacity) ≤
        (((Session.empty .empty).run 1 curiousActs).1.step 1 0 (.request (.get 2))).1.host.liveIn 0 := by
  obtain ⟨cache, found, policy, unwatched, capacity, looks⟩ := curious_run
  have before : ((Session.empty .empty).run 1 curiousActs).1.host.liveIn 0 = 3 := by
    decide +kernel
  have after : (((Session.empty .empty).run 1 curiousActs).1.step 1 0
      (.request (.get 2))).1.host.liveIn 0 = 1 := by decide +kernel
  refine ⟨cache, found, policy, unwatched, looks, before, after, ?_⟩
  rw [before, after, capacity]
  decide

/-- No more than one entry has no value when the policy is asked, and the limit is missed by no more. -/
theorem soft_limit_kept_curious :
    min 3 (max 2 1 - 1) ≤ (((Session.empty .empty).run 1 curiousActs).1.step 1 0
      (.request (.get 2))).1.host.liveIn 0 := by
  obtain ⟨cache, found, policy, unwatched, capacity, looks⟩ := curious_run
  have before : ((Session.empty .empty).run 1 curiousActs).1.host.liveIn 0 = 3 := by
    decide +kernel
  have counted : ∀ t ∈ ((Session.empty .empty).run 1 curiousActs).1.history 1
      [.on 0 (.request (.get 2))], t.consults 0 = true →
        t.before.size 0 ≤ t.before.liveIn 0 + 1 := by decide +kernel
  have kept := Session.soft_limit_kept ⟨curiousActs, rfl⟩ found policy unwatched looks counted
  rwa [before, capacity] at kept

end ReclaimableCache
