import ReclaimableCache.Proofs.Consistency

/-!
# Failures that no caller sees

Two runs that differ in nothing but how calls of cleaners end are alike at all times once they are
forgiven. Hosts that are alike may hold cleaners that end differently, so that what a pass counts as
failures differs; it gives back the same, and nothing else looks at it.
-/

namespace ReclaimableCache

variable {K V α β γ δ : Type}

section

variable [DecidableEq K]

omit [DecidableEq K] in
theorem Host.map_forgiven_of_alike {h g : Host K V} (alike : h.forgiven = g.forgiven) (c : CacheId) :
    (h.cache? c).map Cache.forgiven = (g.cache? c).map Cache.forgiven := by
  rw [← h.cache?_forgiven, ← g.cache?_forgiven, alike]

namespace Work

/-- On hosts that are alike once they are forgiven two pieces of work have related results, end alike
    and take steps that are alike. -/
def Echoes (R : α → β → Prop) (w : Work K V α) (x : Work K V β) : Prop :=
  ∀ h g : Host K V, h.forgiven = g.forgiven →
    R (w.run h).2 (x.run g).2 ∧ (w.run h).1.forgiven = (x.run g).1.forgiven ∧
      (w.steps h).map Step.forgiven = (x.steps g).map Step.forgiven

/-- Results may be compared in a weaker way. -/
theorem Echoes.mono {R S : α → β → Prop} {w : Work K V α} {x : Work K V β} (echoes : Echoes R w x)
    (weaker : ∀ a b, R a b → S a b) : Echoes S w x := by
  intro h g alike
  obtain ⟨related, rest⟩ := echoes h g alike
  exact ⟨weaker _ _ related, rest⟩

theorem echoes_pure {R : α → β → Prop} {a : α} {b : β} (related : R a b) :
    Echoes R (pure a : Work K V α) (pure b) := fun _ _ alike => ⟨related, alike, rfl⟩

/-- The second run goes on with the result of its own. -/
theorem Echoes.bind {R : α → β → Prop} {S : γ → δ → Prop} {w : Work K V α} {x : Work K V β}
    {f : α → Work K V γ} {f' : β → Work K V δ} (first : Echoes R w x)
    (second : ∀ a b, R a b → Echoes S (f a) (f' b)) : Echoes S (w >>= f) (x >>= f') := by
  intro h g alike
  obtain ⟨related, between, before⟩ := first h g alike
  obtain ⟨results, ends, after⟩ := second _ _ related _ _ between
  rw [run_bind, run_bind, steps_bind, steps_bind, List.map_append, List.map_append, before, after]
  exact ⟨results, ends, rfl⟩

/-- Moves that differ only in what they tell of failures. -/
theorem echoes_make {m m' : Move K V} {R : m.Result → m'.Result → Prop}
    (same : m.forgiven = m'.forgiven)
    (results : ∀ h g : Host K V, h.forgiven = g.forgiven → R (m.make h).2 (m'.make g).2) :
    Echoes R (make m) (make m') := by
  intro h g alike
  refine ⟨results h g alike, ?_, ?_⟩
  · rw [run_make, run_make, Move.forgiven_make, Move.forgiven_make, same, alike]
  · rw [steps_make, steps_make, List.map_singleton, List.map_singleton, Step.forgiven, Step.forgiven,
      same, alike]

/-- A discreet move gives the same in both runs. -/
theorem echoes_discreet {m : Move K V} (discreet : m.discreet = true) :
    Echoes Eq (make m) (make m) :=
  echoes_make rfl fun _ _ alike => Move.result_make discreet alike

theorem echoes_view :
    Echoes (fun h g => h.forgiven = g.forgiven) (make .view : Work K V _) (make .view) :=
  @echoes_make K V _ .view .view _ rfl fun _ _ alike => alike

/-- What is put together from parts that echo each other does so too. -/
theorem coupled_echoes : Coupled fun _ (w x : Work K V _) => Echoes Eq w x := by
  refine ⟨fun a => echoes_pure rfl, ?_, ?_⟩
  · intro α β w w' f f' first second
    refine first.bind fun a b same => ?_
    subst same
    exact second a
  · intro α f f' blind each
    refine echoes_view.bind fun h g alike => ?_
    have same : f' g = f' h := by
      rw [← blind g g.forgiven.journal, ← alike]
      exact blind h h.forgiven.journal
    rw [same]
    exact each h

/-! ### Passes and reclaims -/

section

variable {run : CallbackRunner K V} (callbacks : ∀ r, Echoes Eq (run r) (run r))

include callbacks

/-- A cleaner makes the same callbacks whichever way it ends. -/
theorem echoes_callCleaner {cleaner cleaner' : Cleaner K V}
    (same : cleaner.forgiven = cleaner'.forgiven) (c : CacheId) (victim : Victim K V) :
    Echoes (fun _ _ => True) (callCleaner run cleaner c victim)
      (callCleaner run cleaner' c victim) := by
  have asks : cleaner.forgiven.callbacks = cleaner'.forgiven.callbacks := by rw [same]
  change cleaner.callbacks = cleaner'.callbacks at asks
  apply (echoes_discreet (m := .enterCleaner c victim) rfl).bind
  rintro call _ rfl
  rw [asks]
  apply (callbacks _).bind
  rintro replies _ rfl
  have left : ∀ verdict verdict', Echoes (fun _ _ => True)
      (make (.leaveCleaner call replies verdict) : Work K V _)
      (make (.leaveCleaner call replies verdict')) := fun _ _ =>
    echoes_make rfl fun _ _ _ => trivial
  exact left _ _

/-- One call may fail and the other not, so nothing is said of what they give. -/
theorem echoes_clean (c : CacheId) (victim : Victim K V) :
    Echoes (fun _ _ => True) (clean run c victim) (clean run c victim) := by
  apply echoes_view.bind
  intro h g alike
  have caches := Host.map_forgiven_of_alike alike c
  have cleaners : ((h.cache? c).bind Cache.cleaner).map Cleaner.forgiven =
      ((g.cache? c).bind Cache.cleaner).map Cleaner.forgiven := by
    have forgiven := congrArg (fun cache => cache.bind Cache.cleaner) caches
    simpa [Option.map_bind, Option.bind_map, Function.comp_def, Cache.forgiven] using forgiven
  cases there : (h.cache? c).bind Cache.cleaner with
  | none =>
    rw [there, Option.map_none, eq_comm, Option.map_eq_none_iff] at cleaners
    rw [cleaners]
    exact echoes_pure trivial
  | some cleaner =>
    rw [there, Option.map_some, eq_comm, Option.map_eq_some_iff] at cleaners
    obtain ⟨cleaner', there', same⟩ := cleaners
    rw [there']
    exact echoes_callCleaner callbacks same.symm c victim

theorem echoes_cleanAll (c : CacheId) (victims : List (Victim K V)) :
    Echoes (fun _ _ => True) (cleanAll run c victims) (cleanAll run c victims) := by
  induction victims with
  | nil => exact echoes_pure trivial
  | cons victim victims ih =>
    apply (echoes_clean callbacks c victim).bind
    intro _ _ _
    apply (echoes_discreet (m := .enqueue c victim.id) rfl).bind
    intro _ _ _
    exact ih.bind fun _ _ _ => echoes_pure trivial

/-- A pass gives the number of values that it released, however many calls failed. -/
theorem echoes_evict (c : CacheId) (budget : Nat) :
    Echoes Eq (evict run c budget) (evict run c budget) := by
  apply (echoes_discreet (m := .releaseValues c budget) rfl).bind
  rintro victims _ rfl
  apply (echoes_cleanAll callbacks c victims).bind
  intro failures failures' _
  have closed : Echoes Eq (make (.closePass c victims.length failures) : Work K V Unit)
      (make (.closePass c victims.length failures')) := echoes_make rfl fun _ _ _ => rfl
  exact closed.bind fun _ _ _ => echoes_pure rfl

/-- A reclaim answers that there was a value, whether or not its call failed. -/
theorem echoes_reclaim (c : CacheId) (key : K) :
    Echoes Eq (reclaim run c key) (reclaim run c key) := by
  apply (echoes_discreet (m := .releaseValue c key) rfl).bind
  rintro released _ rfl
  cases released with
  | none => exact echoes_pure rfl
  | some victim =>
    apply (echoes_clean callbacks c victim).bind
    intro disposal disposal' _
    have counted : Echoes Eq (make (.countReclaim c (disposal = .failed)) : Work K V Unit)
        (make (.countReclaim c (disposal' = .failed))) := echoes_make rfl fun _ _ _ => rfl
    apply counted.bind
    intro _ _ _
    exact (echoes_discreet (m := .enqueue c victim.id) rfl).bind fun _ _ _ => echoes_pure rfl

end

/-! ### Operations -/

theorem echoes_plain (m : Move K V) (plain : m.plain = true) : Echoes Eq (make m) (make m) := by
  apply echoes_discreet
  cases m <;> first | rfl | cases plain

theorem echoes_serve {run : CallbackRunner K V} (callbacks : ∀ r, Echoes Eq (run r) (run r))
    (c : CacheId) (request : Request K V) :
    Echoes Eq (Host.perform run c request) (Host.perform run c request) :=
  coupled_echoes.perform
    (coupled_echoes.requests echoes_plain run run (echoes_evict callbacks))
    ⟨fun _ key value => coupled_echoes.insert echoes_plain run run (echoes_evict callbacks)
      (fun _ _ _ => echoes_discreet rfl) c key value, fun _ _ _ => echoes_discreet rfl,
      fun _ _ _ _ => echoes_discreet rfl, fun key _ => echoes_reclaim callbacks c key⟩
    fun _ => echoes_discreet rfl

/-- Callbacks are answered in the same way in both runs, by induction on their depth. -/
theorem echoes_runCallbacks (limit : Nat) (r : Routine K V Unit) :
    Echoes Eq (Host.runCallbacks limit r) (Host.runCallbacks limit r) := by
  induction limit generalizing r with
  | zero => exact echoes_pure rfl
  | succ limit ih => exact coupled_echoes.map _ (coupled_echoes.routine _ _ (echoes_serve ih) r)

theorem paired_echoes (limit : Nat) :
    Paired (fun _ (w x : Work K V _) => Echoes Eq w x) limit limit :=
  have callbacks := echoes_runCallbacks (K := K) (V := V) limit
  have evict := echoes_evict callbacks
  have place := fun c key value => echoes_discreet (K := K) (V := V) (m := .place c key value) rfl
  ⟨echoes_serve callbacks, coupled_echoes.get echoes_plain _ _ evict,
    coupled_echoes.insert echoes_plain _ _ evict place,
    coupled_echoes.insertShared echoes_plain place _ _ evict⟩

theorem echoes_insertAll (limit : Nat) (c : CacheId)
    (source : List (Routine K V (Except Panic (K × V)))) :
    Echoes Eq (insertAll limit c source) (insertAll limit c source) := by
  have served := (paired_echoes (K := K) (V := V) limit).serve
  exact coupled_echoes.insertAll limit limit echoes_plain (fun _ _ => echoes_discreet rfl)
    (echoes_evict (echoes_runCallbacks limit)) fun next _ =>
      coupled_echoes.follow limit limit served next

end Work

/-! ### Runs -/

/-- An answer without what it tells of failures. -/
def Answer.forgiven : Answer K V → Answer K V
  | metrics shown => metrics { shown with cleanerFailures := 0 }
  | answer => answer

/-- An act without how calls of cleaners end. -/
def Act.forgiven : Act K V → Act K V
  | build config => build config.forgiven
  | on c command => on c command

section

variable [BEq V]

/-- What comes of an act is alike if the cursors are the same and the answers are alike. -/
def Command.Alike (first second : Command.Outcome K V) : Prop :=
  first.1 = second.1 ∧ first.2.forgiven = second.2.forgiven

/-- No command but that for the metrics sees failures. -/
theorem Command.workOn_forgiven (limit : Nat) (cursors : Cursors K) (c : CacheId) (cache : Cache K V)
    {command : Command K V} (other : command ≠ .metrics) :
    command.workOn limit cursors c cache.forgiven = command.workOn limit cursors c cache := by
  cases command with
  | metrics => exact absurd rfl other
  | containsOptional value => cases value <;> rfl
  | _ => rfl

namespace Work

variable (limit : Nat) (cursors : Cursors K)

/-- The caches differ in what failed, and hence the answers do in what they tell of failures. -/
theorem echoes_workOn (c : CacheId) {cache cache' : Cache K V}
    (same : cache.forgiven = cache'.forgiven) (command : Command K V) :
    Echoes Command.Alike (command.workOn limit cursors c cache)
      (command.workOn limit cursors c cache') := by
  by_cases shows : command = .metrics
  · subst shows
    have shown : cache.forgiven.snapshot = cache'.forgiven.snapshot := by rw [same]
    exact echoes_pure ⟨rfl, congrArg Answer.metrics shown⟩
  · rw [← Command.workOn_forgiven limit cursors c cache shows, same,
      Command.workOn_forgiven limit cursors c cache' shows]
    have equal : Echoes Eq (command.workOn limit cursors c cache')
        (command.workOn limit cursors c cache') :=
      (paired_echoes limit).workOn coupled_echoes cursors c cache'
        (fun source _ => echoes_insertAll limit c source) fun _ _ _ _ => echoes_discreet rfl
    apply equal.mono
    rintro outcome _ rfl
    exact ⟨rfl, rfl⟩

omit [BEq V] in
theorem echoes_build {config config' : Config K V} (same : config.forgiven = config'.forgiven) :
    Echoes Eq (make (.build config)) (make (.build config')) := by
  have moves : (Move.build config).forgiven = (Move.build config').forgiven :=
    congrArg Move.build same
  apply echoes_make moves
  intro h g alike
  have first := congrArg Prod.snd (h.build_forgiven config)
  have second := congrArg Prod.snd (g.build_forgiven config')
  rw [alike, same] at first
  exact first.symm.trans second

/-- The acts of the two runs differ in what cleaners answer. -/
theorem echoes_act {a a' : Act K V} (same : a.forgiven = a'.forgiven) :
    Echoes Command.Alike (a.work limit cursors) (a'.work limit cursors) := by
  cases a with
  | build config =>
    cases a' with
    | build config' =>
      apply (echoes_build (Act.build.inj same)).bind
      rintro built _ rfl
      cases built <;> exact echoes_pure ⟨rfl, rfl⟩
    | on c command => cases same
  | on c command =>
    cases a' with
    | build config => cases same
    | on c' command' =>
      cases same
      apply echoes_view.bind
      intro h g alike
      have caches := Host.map_forgiven_of_alike alike c
      cases found : h.cache? c with
      | none =>
        rw [found, Option.map_none, eq_comm, Option.map_eq_none_iff] at caches
        rw [caches]
        exact echoes_pure ⟨rfl, rfl⟩
      | some cache =>
        rw [found, Option.map_some, eq_comm, Option.map_eq_some_iff] at caches
        obtain ⟨cache', found', same⟩ := caches
        rw [found']
        exact echoes_workOn limit cursors c same.symm command

/-- Act by act, the second run answers what the first one does. -/
theorem echoes_workAll {acts others : List (Act K V)}
    (same : acts.map Act.forgiven = others.map Act.forgiven) :
    Echoes (fun first second => first.1 = second.1 ∧
        first.2.map Answer.forgiven = second.2.map Answer.forgiven)
      (Act.workAll limit cursors acts) (Act.workAll limit cursors others) := by
  induction acts generalizing cursors others with
  | nil =>
    rw [List.map_nil, eq_comm, List.map_eq_nil_iff] at same
    subst same
    exact echoes_pure ⟨rfl, rfl⟩
  | cons a rest ih =>
    cases others with
    | nil => cases same
    | cons a' rest' =>
      obtain ⟨head, tail⟩ := List.cons.inj same
      apply (echoes_act limit cursors head).bind
      rintro ⟨opened, answer⟩ ⟨_, answer'⟩ ⟨rfl, alike⟩
      apply (ih opened tail).bind
      rintro ⟨opened, answers⟩ ⟨_, answers'⟩ ⟨rfl, alikeToo⟩
      refine echoes_pure ⟨rfl, ?_⟩
      rw [List.map_cons, List.map_cons, alike, alikeToo]

end Work

/-- No caller sees how calls of cleaners end. Let two runs differ only in that, the cleaners making the
    same callbacks. They give the same answers, leave the same cursors open, and go through the same
    moves, those in the midst of cleaners included, with the same replies to requests; the hosts are
    alike at every point of time, but for the failures that are counted and the errors in the journal. -/
theorem Session.failures_unseen (limit : Nat) (board : PressureBoard) {acts others : List (Act K V)}
    (same : acts.map Act.forgiven = others.map Act.forgiven) :
    ((empty board).run limit acts).2.map Answer.forgiven =
        ((empty board).run limit others).2.map Answer.forgiven ∧
      ((empty board).run limit acts).1.cursors = ((empty board).run limit others).1.cursors ∧
      ((empty board).run limit acts).1.host.forgiven =
        ((empty board).run limit others).1.host.forgiven ∧
      ((empty board).history limit acts).map Step.forgiven =
        ((empty board).history limit others).map Step.forgiven := by
  obtain ⟨⟨cursors, answers⟩, hosts, steps⟩ :=
    Work.echoes_workAll limit ([] : Cursors K) same (.empty board) (.empty board) rfl
  exact ⟨answers, cursors, hosts, steps⟩

end

end

/-- The cleaner of `Config.restoring`, except that it panics on one value and succeeds on all others. -/
def Config.unruly : Config UInt64 Nat :=
  { Config.restoring with
    cleaner := Config.restoring.cleaner.map fun cleaner =>
      { cleaner with verdict := fun call => if call.key = 1 then .panicked .silent else .succeeded } }

/-- What is done in `restoringActs`, with other cleaners. -/
def unrulyActs : List (Act UInt64 Nat) :=
  .build .unruly :: .build .unruly :: restoringActs.drop 2

/-- The counters of failures and the journals differ. -/
theorem failures_unseen_unruly :
    (((Session.empty .empty).run 2 restoringActs).1.host.cache? 0).map
        (fun cache => cache.counters.cleanerFailures) = some 2 ∧
      (((Session.empty .empty).run 2 unrulyActs).1.host.cache? 0).map
        (fun cache => cache.counters.cleanerFailures) = some 1 ∧
      ((Session.empty .empty).run 2 restoringActs).1.host.journal.length = 36 ∧
      ((Session.empty .empty).run 2 unrulyActs).1.host.journal.length = 34 ∧
      ((Session.empty .empty).run 2 restoringActs).1.host.forgiven =
        ((Session.empty .empty).run 2 unrulyActs).1.host.forgiven ∧
      ((Session.empty .empty).history 2 restoringActs).map Step.forgiven =
        ((Session.empty .empty).history 2 unrulyActs).map Step.forgiven := by
  have same : restoringActs.map Act.forgiven = unrulyActs.map Act.forgiven := rfl
  obtain ⟨_, _, hosts, histories⟩ := Session.failures_unseen 2 .empty same
  refine ⟨?_, ?_, ?_, ?_, hosts, histories⟩ <;> decide +kernel

end ReclaimableCache
