import ReclaimableCache.Proofs.Calls

/-!
# Limits on nesting

A limit on the nesting of callbacks only shows where calls of cleaners are nested as deep as it
allows. Where no cleaner stores values, one call of a cleaner is made at most for each live entry,
so that a limit that is no lower than their number never shows.
-/

namespace ReclaimableCache

variable {K V α β : Type}

section

variable [DecidableEq K]

namespace Work

/-! ### Work that does the same up to a depth -/

/-- The second work does what the first does, wherever the first does not call a cleaner while
    `depth` calls of it are active. -/
def SameWithin (depth : Nat) (w x : Work K V α) : Prop :=
  w.Nested ∧ ∀ h : Host K V,
    (∀ s ∈ w.steps h, s.enters = true → s.before.active < h.active + depth) →
      x.run h = w.run h ∧ x.steps h = w.steps h

variable {depth : Nat}

/-- Work does the same as itself at any depth. -/
theorem sameWithin_self {w : Work K V α} (nested : w.Nested) : SameWithin depth w w :=
  ⟨nested, fun _ _ => ⟨rfl, rfl⟩⟩

theorem sameWithin_make {m : Move K V} (noCall : m.calls = false) :
    SameWithin depth (make m) (make m) := sameWithin_self (nested_make m noCall)

/-- The second part starts where the first ended, and no deeper. -/
theorem SameWithin.bind {w x : Work K V α} {f g : α → Work K V β} (first : SameWithin depth w x)
    (second : ∀ a, SameWithin depth (f a) (g a)) : SameWithin depth (w >>= f) (x >>= g) := by
  refine ⟨first.1.bind fun a => (second a).1, fun h few => ?_⟩
  rw [steps_bind] at few
  obtain ⟨run, steps⟩ := first.2 h fun s member => few s (List.mem_append_left _ member)
  have level := (first.1 h).1
  have rest := (second (w.run h).2).2 (w.run h).1 fun s member enters => by
    rw [level]
    exact few s (List.mem_append_right _ member) enters
  rw [run_bind, run_bind, steps_bind, steps_bind, run, steps, rest.1, rest.2]
  exact ⟨rfl, rfl⟩

theorem coupled_sameWithin (depth : Nat) :
    Coupled fun _ (w x : Work K V _) => SameWithin depth w x :=
  ⟨fun a => sameWithin_self (nested_pure a), fun first second => first.bind second,
    fun _ each => (sameWithin_make rfl).bind each⟩

theorem sameWithin_plain (m : Move K V) (plain : m.plain = true) :
    SameWithin depth (make m) (make m) :=
  sameWithin_make (Move.calls_of_steady (Move.steady_of_regular (Move.regular_of_plain plain)))

section

variable {run run' : CallbackRunner K V} (nested : ∀ r, (run r).Nested)
  (callbacks : ∀ less, less + 1 = depth → ∀ r, SameWithin less (run r) (run' r))

include nested callbacks

/-- The callbacks of a cleaner have one level less left to them. -/
theorem sameWithin_callCleaner (cleaner : Cleaner K V) (c : CacheId) (victim : Victim K V) :
    SameWithin depth (callCleaner run cleaner c victim) (callCleaner run' cleaner c victim) := by
  refine ⟨(callCleaner_levels nested cleaner c victim).1, fun h few => ?_⟩
  have deeper : (h.enterCleaner c victim).1.active = h.active + 1 := rfl
  cases depth with
  | zero => exact absurd (few _ (mem_steps_callCleaner.mpr (.inl rfl)) rfl) (Nat.lt_irrefl _)
  | succ less =>
    have same := (callbacks less rfl (cleaner.callbacks (h.enterCleaner c victim).2)).2
      (h.enterCleaner c victim).1 fun s member enters => by
        have bound := few s (mem_steps_callCleaner.mpr (.inr (.inl member))) enters
        omega
    rw [run_callCleaner, run_callCleaner, steps_callCleaner, steps_callCleaner]
    dsimp only
    rw [same.1, same.2]
    exact ⟨rfl, rfl⟩

theorem sameWithin_clean (c : CacheId) (victim : Victim K V) :
    SameWithin depth (clean run c victim) (clean run' c victim) :=
  (coupled_sameWithin depth).clean run run' (sameWithin_make rfl)
    (sameWithin_callCleaner nested callbacks) c victim

/-- A pass makes its calls one after the other, each a level below it. -/
theorem sameWithin_evict (c : CacheId) (budget : Nat) :
    SameWithin depth (evict run c budget) (evict run' c budget) :=
  (coupled_sameWithin depth).evict run run' (sameWithin_clean nested callbacks)
    (fun _ _ => sameWithin_make rfl) (fun _ _ => sameWithin_make rfl)
    (fun _ _ _ => sameWithin_make rfl) c budget

theorem sameWithin_perform (c : CacheId) (request : Request K V) :
    SameWithin depth (Host.perform run c request) (Host.perform run' c request) := by
  have coupled := coupled_sameWithin (K := K) (V := V) depth
  have evict := sameWithin_evict nested callbacks
  have changes : Changes (fun _ w w' => SameWithin depth w w') run run' c request := by
    refine ⟨fun _ => ?_, fun _ _ _ => sameWithin_make rfl, fun _ _ _ _ => sameWithin_make rfl,
      fun key _ => ?_⟩
    · exact coupled.insert sameWithin_plain run run' evict (fun _ _ _ => sameWithin_make rfl) c
    · exact coupled.reclaim run run' (sameWithin_clean nested callbacks)
        (fun _ _ => sameWithin_make rfl) (fun _ _ => sameWithin_make rfl)
        (fun _ _ => sameWithin_make rfl) c key
  exact coupled.perform (coupled.requests sameWithin_plain run run' evict) changes fun _ =>
    sameWithin_make rfl

end

/-- Where there are more levels than are used, it does not matter how many. -/
theorem sameWithin_runCallbacks {limit limit' : Nat} (enough : depth < limit)
    (also : depth < limit') (r : Routine K V Unit) :
    SameWithin depth (Host.runCallbacks limit r) (Host.runCallbacks limit' r) := by
  induction limit generalizing depth limit' r with
  | zero => exact absurd enough (Nat.not_lt_zero depth)
  | succ limit ih =>
    cases limit' with
    | zero => exact absurd also (Nat.not_lt_zero depth)
    | succ limit' =>
      have coupled := coupled_sameWithin (K := K) (V := V) depth
      have performed : ∀ c request, SameWithin depth (Host.serve limit c request)
          (Host.serve limit' c request) :=
        sameWithin_perform (inherited_nested.runCallbacks limit) fun less one r =>
          ih (by omega) (by omega) r
      exact coupled.map _ (coupled.routine _ _ performed r)

section

variable {limit limit' : Nat} (enough : depth ≤ limit) (also : depth ≤ limit')

include enough also

/-- Under a call there is one level less that has to be the same. -/
theorem sameWithin_callbacks (less : Nat) (one : less + 1 = depth) (r : Routine K V Unit) :
    SameWithin less (Host.runCallbacks limit r) (Host.runCallbacks limit' r) :=
  sameWithin_runCallbacks (by omega) (by omega) r

/-- Two limits that suffice for a depth lead to the same operations. -/
theorem paired_sameWithin :
    Paired (fun _ (w x : Work K V _) => SameWithin depth w x) limit limit' := by
  have coupled := coupled_sameWithin (K := K) (V := V) depth
  have nested := inherited_nested.runCallbacks (K := K) (V := V) limit
  have callbacks := sameWithin_callbacks (K := K) (V := V) enough also
  have evict := sameWithin_evict nested callbacks
  exact ⟨sameWithin_perform nested callbacks, coupled.get sameWithin_plain _ _ evict,
    coupled.insert sameWithin_plain _ _ evict fun _ _ _ => sameWithin_make rfl,
    coupled.insertShared sameWithin_plain (fun _ _ _ => sameWithin_make rfl) limit limit' evict⟩

/-- And hence to the same commands. -/
theorem sameWithin_command [BEq V] (cursors : Cursors K) (c : CacheId) (command : Command K V) :
    SameWithin depth (command.work limit cursors c) (command.work limit' cursors c) := by
  have coupled := coupled_sameWithin (K := K) (V := V) depth
  have paired := paired_sameWithin (K := K) (V := V) enough also
  apply (sameWithin_make rfl).bind
  intro h
  cases h.cache? c with
  | none => exact sameWithin_self (nested_pure _)
  | some cache =>
    apply paired.workOn coupled cursors c cache
    · intro source _
      exact coupled.insertAll limit limit' sameWithin_plain (fun _ _ => sameWithin_make rfl)
        (sameWithin_evict (inherited_nested.runCallbacks limit) (sameWithin_callbacks enough also))
        fun next _ => coupled.follow limit limit' paired.serve next
    · exact fun _ _ _ _ => sameWithin_make rfl

end

end Work

/-! ### Commands -/

namespace Session

variable [BEq V]

theorem history_singleton (s : Session K V) (depth : Nat) (c : CacheId) (command : Command K V) :
    s.history depth [.on c command] = (command.work depth s.cursors c).steps s.host := by
  rw [history, Act.workAll, Work.steps_bind, Act.workAll, Work.steps_bind, Work.steps_pure,
    Work.steps_pure, List.append_nil, List.append_nil]
  rfl

/-- No call is active between the acts of a session. -/
theorem active_run (limit : Nat) (board : PressureBoard) (acts : List (Act K V)) :
    ((empty board : Session K V).run limit acts).1.host.active = 0 :=
  (Work.inherited_nested.workAll limit ([] : Cursors K) acts (.empty board)).1

section

variable {s : Session K V} (consistent : s.host.Consistent) (storeless : s.host.Storeless)
  (outermost : s.host.active = 0) {c : CacheId} {command : Command K V} (single : command.Single)
  (depth : Nat)

include consistent storeless single

/-- However deep calls may be nested, there are no more of them than live values. -/
theorem countP_enters_le :
    (s.history depth [.on c command]).countP Step.enters ≤ s.host.liveCount := by
  rw [history_singleton]
  exact Work.capped_command depth s.cursors c single s.host consistent storeless

include outermost

/-- Calls are nested no deeper than entries were live. -/
theorem active_le : ∀ t ∈ s.history depth [.on c command],
    t.before.active + t.enters.toNat ≤ s.host.liveCount := by
  intro t member
  have most := countP_enters_le consistent storeless single (c := c) depth
  rw [history_singleton] at member most
  have climbs : (command.work depth s.cursors c).Climbs :=
    (Work.inherited_climbs.act depth s.cursors (.on c command)).2
  have level := climbs s.host t member
  rw [Work.entered] at level
  omega

end

/-- Where no cleaner stores values, an operation calls cleaners at most once for each entry that was
    live before, and no more calls are active at a time. A limit on the nesting that is no lower than
    that number never keeps callbacks from being made, so that it does not matter which one there is,
    nor whether there is one. -/
theorem nesting_bounded (limit : Nat) (board : PressureBoard) (acts : List (Act K V))
    {s : Session K V} (reached : s = ((empty board).run limit acts).1)
    (storeless : s.host.Storeless) (c : CacheId) {command : Command K V} (single : command.Single) :
    (∀ depth, (s.history depth [.on c command]).countP Step.enters ≤ s.host.liveCount ∧
      ∀ h ∈ s.states depth [.on c command], h.active ≤ s.host.liveCount) ∧
    ∀ depth, s.host.liveCount ≤ depth →
      (∀ t ∈ s.history depth [.on c command], t.enters = true → t.before.active < depth) ∧
      ∀ other, s.host.liveCount ≤ other →
        s.step other c command = s.step depth c command ∧
          s.history other [.on c command] = s.history depth [.on c command] := by
  have consistent : s.host.Consistent := reached ▸ consistent_run limit board acts
  have outermost : s.host.active = 0 := reached ▸ active_run limit board acts
  have levels := active_le consistent storeless outermost (c := c) single
  refine ⟨fun depth => ⟨countP_enters_le consistent storeless single depth, fun h seen => ?_⟩,
    fun depth enough => ⟨fun t member enters => ?_, fun other also => ?_⟩⟩
  · rcases List.mem_append.mp seen with seen | seen
    · obtain ⟨t, member, rfl⟩ := List.mem_map.mp seen
      have level := levels depth t member
      omega
    · rw [List.mem_singleton] at seen
      have ended : h.active = s.host.active :=
        seen ▸ (Work.inherited_nested.workAll depth s.cursors [.on c command] s.host).1
      omega
  · have level := levels depth t member
    rw [enters, Bool.toNat_true] at level
    omega
  · have same := (Work.sameWithin_command enough also s.cursors c command).2 s.host
    rw [history_singleton, history_singleton]
    have few := levels depth
    rw [history_singleton] at few
    obtain ⟨ends, steps⟩ := same fun t member enters => by
      have level := few t member
      rw [enters, Bool.toNat_true] at level
      omega
    rw [step, step, carryOut, carryOut, ends]
    exact ⟨rfl, steps⟩

end Session

end

/-- A cache of one pin. Its cleaner reclaims the value under the next key, releases what it can and
    looks the key up. -/
def Config.cascading : Config UInt64 Nat where
  pinCapacity := 1
  shards := some 2
  hasher := .standard
  cleaner := some {
    callbacks := fun call => .inTurn 0 [.reclaim (call.key + 1), .releaseUnpinned, .get call.key] ()
    verdict := fun _ => .succeeded }
  policy := .manual
  signal := none

/-- Such a cache with three values. -/
def cascadingSession : Session UInt64 Nat :=
  ((Session.empty .empty).run 2 [.build .cascading, .on 0 (.request (.insert 1 10)),
    .on 0 (.request (.insert 2 20)), .on 0 (.request (.insert 3 30))]).1

theorem storeless_cascading : cascadingSession.host.Storeless := by
  intro c cache cleaner found has call
  have one : cascadingSession.host.nextCache = 1 := by decide +kernel
  have first : c = 0 := by
    have inside := Host.lt_nextCache found
    rw [one] at inside
    exact Nat.lt_one_iff.mp inside
  subst first
  have built : (cascadingSession.host.cache? 0).bind Cache.cleaner = Config.cascading.cleaner := rfl
  rw [found, Option.bind_some, has] at built
  cases built
  simp [Routine.inTurn, Routine.Only, Request.storeless]

/-- Three live values, and three calls of the cleaner, each inside the one before; more than three
    levels are never used. -/
theorem nesting_bounded_cascading :
    cascadingSession.host.Storeless ∧ cascadingSession.host.liveCount = 3 ∧
      (cascadingSession.history 3 [.on 0 (.request (.reclaim 1))]).countP Step.enters = 3 ∧
      ((cascadingSession.states 3 [.on 0 (.request (.reclaim 1))]).map Host.active).max? = some 3 ∧
      ∀ depth,
        (cascadingSession.history depth [.on 0 (.request (.reclaim 1))]).countP Step.enters ≤ 3 ∧
        (3 ≤ depth → cascadingSession.step depth 0 (.request (.reclaim 1)) =
          cascadingSession.step 3 0 (.request (.reclaim 1))) := by
  have live : cascadingSession.host.liveCount = 3 := by decide +kernel
  have single : (Command.request (.reclaim 1) : Command UInt64 Nat).Single := trivial
  obtain ⟨bounded, settled⟩ :=
    Session.nesting_bounded 2 .empty _ (s := cascadingSession) rfl storeless_cascading 0 single
  rw [live] at bounded settled
  exact ⟨storeless_cascading, live, by decide +kernel, by decide +kernel, fun depth =>
    ⟨(bounded depth).1, fun enough => ((settled 3 (Nat.le_refl 3)).2 depth enough).1⟩⟩

end ReclaimableCache
