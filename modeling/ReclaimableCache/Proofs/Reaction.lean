import Mathlib.Algebra.GroupWithZero.Nat
import ReclaimableCache.Proofs.Quiescence

/-!
# Reactions to memory pressure

A policy is asked once for each operation that drains its cache, on whatever level of nesting, and
for no other one. What it is told about memory pressure is whether the signal of the cache was raised
since the cache was built and since its policy was asked last.
-/

namespace ReclaimableCache

variable {K V : Type} {c : CacheId}

/-! ### Drains -/

/-- Whether a cache is there when a move is made. -/
def Step.meets (c : CacheId) (s : Step K V) : Bool := (s.before.cache? c).isSome

/-- Whether the policy of a cache is asked. -/
def Step.consults (c : CacheId) (s : Step K V) : Bool :=
  match s.move with
  | .consult d => d == c && s.meets c
  | _ => false

/-- Whether a request drains the cache that it is made to. -/
def Request.drains : Request K V → Bool
  | get _ | insert .. | insertOptional _ (some _) | beginBulk | remove _ => true
  | _ => false

/-- Whether a request is served that drains a cache. -/
def Step.servesDrain (c : CacheId) (s : Step K V) : Bool :=
  match s.move with
  | .noteServed d request _ => d == c && request.drains
  | _ => false

/-- Whether a move is one of a kind, while a number of calls of cleaners have not returned. -/
def Step.atLevel (level : Nat) (kind : Step K V → Bool) (s : Step K V) : Bool :=
  s.before.active == level && kind s

/-- The drains of its cache that a command makes itself, by the answer to it. A request that is
    served counts for itself. -/
def Command.ownDrains : Command K V → Answer K V → Nat
  | insertShared .., .stored .. => 1
  | insertOthers .., .reply (.count stored) => stored
  | insertAll _, .reply .done | insertAll _, .fault _ => 1
  | getOrCompute .., .obtained _ computed => if computed then 2 else 1
  | getOrCompute .., .fault _ => 1
  | insertOptional .., .reply (.value _) => 1
  | _, _ => 0

/-- The drains of a cache that an act makes itself. -/
def Act.ownDrains (c : CacheId) : Act K V → Answer K V → Nat
  | build _, _ => 0
  | on d command, answer => if d = c then command.ownDrains answer else 0

section

variable [DecidableEq K]

namespace Work

variable {α β : Type}

/-- On every level the policy of a cache is asked once for each request that is served and drains
    the cache, and a number of times more on the level that the work is done on. -/
def Drains (c : CacheId) (w : Work K V α) (h : Host K V) (own : Nat) : Prop :=
  ∀ level, (w.steps h).countP (Step.atLevel level (Step.consults c)) =
    (w.steps h).countP (Step.atLevel level (Step.servesDrain c)) +
      if level = h.active then own else 0

/-- The policy of a cache is asked for nothing but requests that are served. -/
def Served (c : CacheId) (w : Work K V α) : Prop := ∀ h, w.Drains c h 0

variable {h : Host K V}

/-- Each level has its own drains, and those of the parts are added up. -/
theorem Drains.bind {w : Work K V α} {f : α → Work K V β} {own more : Nat}
    (first : w.Drains c h own) (nested : w.Nested)
    (second : (f (w.run h).2).Drains c (w.run h).1 more) : (w >>= f).Drains c h (own + more) := by
  intro level
  have before := first level
  have after := second level
  rw [(nested h).1] at after
  rw [steps_bind, List.countP_append, List.countP_append, before, after]
  split <;> omega

/-- What answers for all its drains may be put together. -/
theorem Served.bind {w : Work K V α} {f : α → Work K V β} (first : w.Served c)
    (second : ∀ a, (f a).Served c) : (w >>= f).Served c := by
  intro h level
  have before := first h level
  have after := second (w.run h).2 (w.run h).1 level
  rw [ite_self, Nat.add_zero] at before after ⊢
  rw [steps_bind, List.countP_append, List.countP_append, before, after]

/-- The rest may answer for all of its drains. -/
theorem Drains.bind_rest {w : Work K V α} {f : α → Work K V β} {own : Nat}
    (first : w.Drains c h own) (nested : w.Nested)
    (second : (f (w.run h).2).Drains c (w.run h).1 0) : (w >>= f).Drains c h own :=
  first.bind nested second

theorem Drains.bind_served {w : Work K V α} {f : α → Work K V β} {own : Nat}
    (first : w.Drains c h own) (nested : w.Nested) (second : ∀ a, (f a).Served c) :
    (w >>= f).Drains c h own :=
  first.bind_rest nested (second _ _)

theorem Served.bind_drains {w : Work K V α} {f : α → Work K V β} {own : Nat} (first : w.Served c)
    (nested : w.Nested) (second : (f (w.run h).2).Drains c (w.run h).1 own) :
    (w >>= f).Drains c h own := by
  have both := (first h).bind nested second
  rwa [Nat.zero_add] at both

theorem Drains.map {w : Work K V α} {own : Nat} (drains : w.Drains c h own) (f : α → β) :
    (f <$> w).Drains c h own := by
  intro level
  rw [steps_map]
  exact drains level

theorem served_pure (a : α) : (pure a : Work K V α).Served c := by
  intro h level
  simp

omit [DecidableEq K] in
theorem countP_atLevel_singleton (level : Nat) (kind : Step K V → Bool) (s : Step K V) :
    [s].countP (Step.atLevel level kind) = if level = s.before.active then (kind s).toNat else 0 := by
  rw [List.countP_singleton, Step.atLevel]
  by_cases same : level = s.before.active
  · subst same
    cases kind s <;> simp
  · have other : (s.before.active == level) = false := by simpa using Ne.symm same
    simp [other, same]

/-- One move is at one level. -/
theorem drains_make {m : Move K V} {own : Nat}
    (counts : (Step.consults c ⟨h, m⟩).toNat = (Step.servesDrain c ⟨h, m⟩).toNat + own) :
    (make m).Drains c h own := by
  intro level
  rw [steps_make, countP_atLevel_singleton, countP_atLevel_singleton, counts]
  split <;> rfl

theorem served_make {m : Move K V} (noDrain : ∀ h : Host K V,
    Step.consults c ⟨h, m⟩ = false ∧ Step.servesDrain c ⟨h, m⟩ = false) : (make m).Served c := by
  intro h
  apply drains_make
  rw [(noDrain h).1, (noDrain h).2]
  rfl

/-- What makes up a request that is served answers for the drains in it. -/
theorem composed_served : Composed fun _ (w : Work K V _) => w.Served c := by
  refine ⟨⟨served_pure, fun first second => first.bind second, served_make fun h => ⟨rfl, rfl⟩⟩,
    fun m bare => served_make fun h => ?_⟩
  cases m <;> first | exact ⟨rfl, rfl⟩ | cases bare

theorem served_disposing (m : Move K V) (disposing : m.disposing = true) : (make m).Served c :=
  served_make fun h => by cases m <;> first | exact ⟨rfl, rfl⟩ | cases disposing

section

variable {run : CallbackRunner K V} (callbacks : ∀ r, (run r).Served c)

include callbacks

/-- All drains in a pass are those of callbacks, and these are served. -/
theorem served_evict (d : CacheId) (budget : Nat) : (evict run d budget).Served c :=
  composed_served.evict callbacks served_disposing (fun _ _ => served_make fun _ => ⟨rfl, rfl⟩)
    (fun _ _ _ => served_make fun _ => ⟨rfl, rfl⟩) d budget

theorem served_reclaim (d : CacheId) (key : K) : (reclaim run d key).Served c :=
  composed_served.reclaim callbacks served_disposing (fun _ _ => served_make fun _ => ⟨rfl, rfl⟩)
    (fun _ _ => served_make fun _ => ⟨rfl, rfl⟩) d key

theorem served_spend (d : CacheId) (budget : Nat) : (spend run d budget).Served c := by
  rw [spend]
  split
  · exact served_pure ()
  · apply (served_evict callbacks d budget).bind
    intro released
    split
    · exact served_pure ()
    · exact served_make fun _ => ⟨rfl, rfl⟩

/-- A drain of a cache that is there asks its policy once. -/
theorem drains_drain {d : CacheId} {cache : Cache K V} (found : h.cache? d = some cache) :
    (drain run d).Drains c h (if d = c then 1 else 0) := by
  have swept : ((Move.sweep d).make h).1.cache? d = some cache.sweep.1 :=
    Move.cache?_make_of_target found rfl
  have asked : (make (.consult d) : Work K V Nat).Drains c ((Move.sweep d).make h).1
      (if d = c then 1 else 0) := by
    apply drains_make
    by_cases same : d = c
    · subst same
      simp [Step.consults, Step.servesDrain, Step.meets, swept]
    · simp [Step.consults, Step.servesDrain, same]
  rw [drain_eq_spend]
  apply (served_make (m := .sweep d) fun _ => ⟨rfl, rfl⟩).bind_drains (nested_make _ rfl)
  exact asked.bind_served (nested_make _ rfl) fun budget => served_spend callbacks d budget

variable (nested : ∀ r, (run r).Nested)

include nested

/-- A drain, and a move after it. -/
theorem drains_then {d : CacheId} {cache : Cache K V} (found : h.cache? d = some cache)
    (m : Move K V) (noDrain : ∀ h : Host K V,
      Step.consults c ⟨h, m⟩ = false ∧ Step.servesDrain c ⟨h, m⟩ = false) :
    (drain run d >>= fun _ => make m).Drains c h (if d = c then 1 else 0) :=
  (drains_drain callbacks found).bind_served (inherited_nested.drain nested d) fun _ =>
    served_make noDrain

/-- A look-up drains its cache once itself. -/
theorem drains_get {d : CacheId} {cache : Cache K V} (found : h.cache? d = some cache) (key : K) :
    (get run d key).Drains c h (if d = c then 1 else 0) :=
  drains_then callbacks nested found (.look d key) fun _ => ⟨rfl, rfl⟩

theorem drains_insert {d : CacheId} {cache : Cache K V} (found : h.cache? d = some cache) (key : K)
    (value : V) : (insert run d key value).Drains c h (if d = c then 1 else 0) :=
  drains_then callbacks nested found (.place d key value) fun _ => ⟨rfl, rfl⟩

/-- A request drains the cache once, or not at all. -/
theorem drains_performOn {d : CacheId} {cache : Cache K V} (found : h.cache? d = some cache)
    (request : Request K V) :
    (performOn run d cache request).Drains c h (if d = c then request.drains.toNat else 0) := by
  have served : ∀ {α : Type} {w : Work K V α}, w.Served c →
      w.Drains c h (if d = c then false.toNat else 0) := by
    intro α w served
    rw [Bool.toNat_false, ite_self]
    exact served h
  cases request with
  | get key => exact (drains_get callbacks nested found key).map _
  | insert key value => exact (drains_insert callbacks nested found key value).map _
  | remove key => exact (drains_then callbacks nested found (.takeOut d key) fun _ => ⟨rfl, rfl⟩).map _
  | insertOptional key value =>
    cases value with
    | none => exact served (served_pure _)
    | some value => exact (drains_insert callbacks nested found key value).map _
  | beginBulk =>
    exact (drains_drain callbacks found).bind_served (inherited_nested.drain nested d) fun _ =>
      served_pure _
  | storeNext key value =>
    have placed : (make (.place d key value) : Work K V _).Served c := served_make fun _ => ⟨rfl, rfl⟩
    exact served (composed_served.map _ placed)
  | removeRecent key age =>
    apply served
    apply composed_served.map
    cases cache.pool.recent? age with
    | none => exact served_pure _
    | some id => exact served_make fun _ => ⟨rfl, rfl⟩
  | peek key => exact served (served_pure _)
  | containsKey key => exact served (served_pure _)
  | reclaim key => exact served (composed_served.map _ (served_reclaim callbacks d key))
  | releaseUnpinned =>
    apply served
    apply composed_served.map
    apply (served_evict callbacks d Policy.unlimited).bind
    intro released
    exact (composed_served.make (.sweep d) rfl).bind fun _ => served_pure _
  | clear =>
    have dropped : (make (.dropEntries d) : Work K V Unit).Served c := served_make fun _ => ⟨rfl, rfl⟩
    exact served ((composed_served.clear dropped).bind fun _ => served_pure _)
  | pending => exact served (served_pure _)
  | length => exact served (served_pure _)
  | raise signal =>
    exact served ((composed_served.make (.raise signal) rfl).bind fun _ => served_pure _)

/-- Once the request is noted, its own drain is answered for. -/
theorem served_perform (d : CacheId) (request : Request K V) :
    (Host.perform run d request).Served c := by
  intro h level
  rw [Host.perform, steps_bind, run_make, steps_make]
  cases found : h.cache? d with
  | none =>
    simp only [Move.make, found]
    rw [steps_pure, List.append_nil, countP_atLevel_singleton, countP_atLevel_singleton]
    simp [Step.consults, Step.servesDrain]
  | some cache =>
    have performed := drains_performOn (c := c) callbacks nested found request level
    have ended := ((inherited_nested.performOn nested d cache request) h).1
    simp only [Move.make, found]
    rw [steps_bind, steps_bind, steps_make, steps_pure, List.append_nil]
    simp only [List.countP_append, countP_atLevel_singleton, ended, performed, Step.consults,
      Step.servesDrain]
    by_cases same : d = c
    · by_cases here : level = h.active <;> simp [here, same]
    · simp [same]

end

variable {limit : Nat}

/-- Callbacks are served, at every depth. -/
theorem served_runCallbacks (limit : Nat) (r : Routine K V Unit) :
    (Host.runCallbacks limit r).Served c :=
  composed_served.runCallbacks
    (fun limit callbacks => served_perform callbacks (inherited_nested.runCallbacks limit)) limit r

theorem served_serve (limit : Nat) (d : CacheId) (request : Request K V) :
    (Host.serve limit d request).Served c :=
  served_perform (served_runCallbacks limit) (inherited_nested.runCallbacks limit) d request

/-! ### Commands -/

section

variable {d : CacheId} {cache : Cache K V} (found : h.cache? d = some cache)

include found

/-- Every one of the values is stored by an operation of its own. -/
theorem drains_insertEach (entries : List (K × V)) :
    (insertEach limit d entries).Drains c h (if d = c then entries.length else 0) := by
  induction entries generalizing h cache with
  | nil =>
    rw [List.length_nil, ite_self]
    exact served_pure () h
  | cons e rest ih =>
    have first := drains_insert (c := c) (served_runCallbacks limit)
      (inherited_nested.runCallbacks limit) found e.1 e.2
    have nested := inherited_nested.insert (inherited_nested.runCallbacks limit) d e.1 e.2
    obtain ⟨later, there, _⟩ :=
      Host.grows_run (insert (Host.runCallbacks limit) d e.1 e.2) h d cache found
    have total : (if d = c then (e :: rest).length else 0) =
        (if d = c then 1 else 0) + if d = c then rest.length else 0 := by
      split
      · exact Nat.add_comm _ _
      · rfl
    rw [total, insertEach]
    exact first.bind nested (ih there)

/-- The drains of an operation that looks a value up or computes it, by its result. -/
theorem drains_getOrCompute (key : K) (compute : Routine K V (Except Panic V)) :
    (getOrCompute limit d key compute).Drains c h (if d = c then
      match ((getOrCompute limit d key compute).run h).2 with
      | .ok (_, true) => 2
      | _ => 1 else 0) := by
  have callbacks := served_runCallbacks (K := K) (V := V) (c := c) limit
  have nested := inherited_nested.runCallbacks (K := K) (V := V) limit
  have first := drains_get (c := c) callbacks nested found key
  have firstNested := inherited_nested.get nested d key
  -- The cache that is looked at is still there when the value is stored.
  obtain ⟨later, there, _⟩ := Host.grows_run (get (Host.runCallbacks limit) d key) h d cache found
  rw [getOrCompute, run_bind]
  cases looked : (get (Host.runCallbacks limit) d key).run h with
  | mk h1 got =>
    rw [looked] at there
    cases got with
    | some value =>
      exact first.bind_rest firstNested (by rw [looked]; exact served_pure _ _)
    | none =>
      have computes := (composed_served (c := c)).follow (served_serve limit) compute
      have computesNested := inherited_nested.follow limit compute
      obtain ⟨last, there, _⟩ := Host.grows_run (follow limit compute) h1 d later there
      dsimp only
      rw [run_bind]
      cases computed : (follow limit compute).run h1 with
      | mk h2 result =>
        rw [computed] at there
        cases result with
        | error p =>
          refine first.bind_rest firstNested ?_
          rw [looked]
          refine (computes h1).bind_rest computesNested ?_
          rw [computed]
          exact served_pure _ _
        | ok value =>
          have second := drains_insert (c := c) callbacks nested there key value
          have total : (if d = c then 2 else 0) =
              (if d = c then 1 else 0) + (0 + if d = c then 1 else 0) := by
            split <;> rfl
          dsimp only
          rw [run_bind, run_pure]
          dsimp only
          rw [total]
          refine first.bind firstNested ?_
          rw [looked]
          refine (computes h1).bind computesNested ?_
          rw [computed]
          exact second.bind_served (inherited_nested.insert nested d key value) fun _ =>
            served_pure _

variable [BEq V]

/-- The drains of a command are told by the answer to it. -/
theorem drains_workOn (cursors : Cursors K) (command : Command K V) :
    (command.workOn limit cursors d cache).Drains c h (if d = c then
      command.ownDrains ((command.workOn limit cursors d cache).run h).2.2 else 0) := by
  have callbacks := served_runCallbacks (K := K) (V := V) (c := c) limit
  have nested := inherited_nested.runCallbacks (K := K) (V := V) limit
  -- A command that stores nothing itself drains only where a request or code of the caller does.
  cases stores : command.stores with
  | false =>
    have none : ∀ answer, command.ownDrains answer = 0 := by
      intro answer
      cases command <;> first | rfl | cases stores
    rw [none, ite_self]
    exact composed_served.coupled.workOn limit limit cursors d cache stores
      (fun request _ => served_serve limit d request)
      (fun keep _ heard key value => composed_served.routine (served_serve limit) (keep heard key value))
      (fun _ e key id => served_make fun _ => ⟨rfl, rfl⟩) h
  | true =>
    cases command with
    | insertShared key value =>
      have drained := drains_drain (c := c) callbacks found
      have shared : (insertShared limit d key value).Drains c h (if d = c then 1 else 0) := by
        apply drained.bind_served (inherited_nested.drain nested d)
        intro _
        apply (composed_served.make .view rfl).bind
        intro before
        apply (served_make (m := .place d key value) fun _ => ⟨rfl, rfl⟩).bind
        intro previous
        exact (composed_served.make .view rfl).bind fun _ => served_pure _
      rw [Command.workOn, run_bind, run_pure]
      exact shared.bind_served (inherited_nested.insertShared nested d key value) fun _ =>
        served_pure _
    | insertOthers name listed =>
      rw [Command.workOn, run_bind, run_pure]
      exact (drains_insertEach found _).bind_served (inherited_nested.insertEach limit d _) fun _ =>
        served_pure _
    | insertAll source =>
      have drained := drains_drain (c := c) callbacks found
      have stored : (insertAll limit d source).Drains c h (if d = c then 1 else 0) :=
        drained.bind_served (inherited_nested.drain nested d) fun _ =>
          composed_served.storeAll (served_serve limit)
            (fun _ _ => served_make fun _ => ⟨rfl, rfl⟩) source
      have worked := stored.bind_served (inherited_nested.insertAll limit d source) fun inserted =>
        served_pure ((cursors, .ofExcept (fun _ => .done) inserted) : Command.Outcome K V)
      rw [Command.workOn, run_bind, run_pure]
      cases ((insertAll limit d source).run h).2 <;> exact worked
    | getOrCompute key compute =>
      have worked := (drains_getOrCompute (c := c) found key compute).bind_served
        (inherited_nested.getOrCompute limit d key compute) fun got =>
        served_pure ((cursors, .ofExcept (fun r => .obtained r.1 r.2) got) : Command.Outcome K V)
      rw [Command.workOn, run_bind, run_pure]
      generalize ((getOrCompute limit d key compute).run h).2 = got at worked ⊢
      rcases got with p | ⟨value, _ | _⟩ <;> exact worked
    | insertOptional key value =>
      cases value with
      | none =>
        show Drains c _ h (if d = c then 0 else 0)
        rw [ite_self]
        exact (served_pure _).bind (fun _ => served_pure _) h
      | some value =>
        rw [Command.workOn, insertOptional, run_bind, run_map]
        exact ((drains_insert (c := c) callbacks nested found key value).map _).bind_served
          (inherited_nested.insertOptional limit d key (some value)) fun inserted => by
            cases inserted <;> exact served_pure _
    | _ => cases stores

end

/-- What an act drains beyond served requests can be told from its answer. -/
theorem drains_act [BEq V] (cursors : Cursors K) (a : Act K V) :
    (a.work limit cursors).Drains c h (a.ownDrains c ((a.work limit cursors).run h).2.2) := by
  cases a with
  | build config =>
    refine (composed_served.bind (composed_served.make (.build config) rfl) fun built => ?_) h
    cases built <;> exact served_pure _
  | on d command =>
    rw [Act.work, Command.work, run_bind, run_make]
    apply (composed_served.make .view rfl).bind_drains (nested_make _ rfl)
    rw [run_make]
    cases found : h.cache? d with
    | none =>
      simp only [Move.make, found]
      have none : (Act.on d command).ownDrains c (.reply .noCache) = 0 := by
        rw [Act.ownDrains]
        cases command <;> exact ite_self 0
      exact none ▸ served_pure _ h
    | some cache =>
      simp only [Move.make, found]
      exact drains_workOn found cursors command

/-- And so along all acts. -/
theorem drains_workAll [BEq V] (cursors : Cursors K) (acts : List (Act K V)) :
    (Act.workAll limit cursors acts).Drains c h
      ((acts.zip ((Act.workAll limit cursors acts).run h).2.2).map fun done =>
        done.1.ownDrains c done.2).sum := by
  induction acts generalizing cursors h with
  | nil => exact served_pure _ h
  | cons a rest ih =>
    have first : (a.work limit cursors).Drains c h _ := drains_act cursors a
    have others := ih (h := ((a.work limit cursors).run h).1) ((a.work limit cursors).run h).2.1
    rw [Act.workAll, run_bind, run_bind, run_pure]
    dsimp only
    rw [List.zip_cons_cons, List.map_cons, List.sum_cons]
    apply first.bind (inherited_nested.act limit cursors a)
    exact others.bind_served (inherited_nested.workAll limit _ rest) fun _ => served_pure _

/-! ### Single requests -/

/-- How often the policy of a cache is asked on the level that some work is done on. -/
def polls (c : CacheId) (w : Work K V α) (h : Host K V) : Nat :=
  (w.steps h).countP (Step.atLevel h.active (Step.consults c))

/-- Polls at the level where the work starts are added up. -/
theorem polls_bind {w : Work K V α} (nested : w.Nested) (f : α → Work K V β) :
    (w >>= f).polls c h = w.polls c h + (f (w.run h).2).polls c (w.run h).1 := by
  rw [polls, polls, polls, steps_bind, List.countP_append, (nested h).1]

theorem polls_map (w : Work K V α) (f : α → β) : (f <$> w).polls c h = w.polls c h := by
  rw [polls, steps_map, polls]

theorem polls_make (m : Move K V) : (make m).polls c h = (Step.consults c ⟨h, m⟩).toNat := by
  rw [polls, steps_make, countP_atLevel_singleton, if_pos rfl]

/-- Work that is silent does not ask a policy. -/
theorem polls_of_silent {w : Work K V α} (silent : w.Silent) : w.polls c h = 0 := by
  rw [polls, List.countP_eq_zero]
  intro s member polled
  obtain ⟨level, consults⟩ := Bool.and_eq_true_iff.mp polled
  have asks := silent h s member (beq_iff_eq.mp level)
  rw [Step.consults] at consults
  split at consults
  · rename_i asked
    rw [asked] at asks
    cases asks
  · cases consults

variable {run : CallbackRunner K V} (nested : ∀ r, (run r).Nested)

include nested

/-- At its own level a drain asks the policy once. -/
theorem polls_drain {d : CacheId} {cache : Cache K V} (found : h.cache? d = some cache) :
    (drain run d).polls c h = if d = c then 1 else 0 := by
  have swept : ((Move.sweep d).make h).1.cache? d = some cache.sweep.1 :=
    Move.cache?_make_of_target found rfl
  rw [drain_eq_spend, polls_bind (nested_make _ rfl), polls_bind (nested_make _ rfl), run_make,
    run_make, polls_make, polls_make, polls_of_silent (spend_levels nested d _).2]
  by_cases same : d = c
  · subst same
    simp [Step.consults, Step.meets, swept]
  · simp [Step.consults, same]

/-- At its own level, a request asks the policy once if it drains, and not at all otherwise. -/
theorem polls_performOn {d : CacheId} {cache : Cache K V} (found : h.cache? d = some cache)
    (request : Request K V) :
    (performOn run d cache request).polls c h = if d = c then request.drains.toNat else 0 := by
  have drained := polls_drain (c := c) nested found
  have drainNested := inherited_nested.drain nested d
  have still : ∀ {α : Type} {w : Work K V α}, w.Silent →
      w.polls c h = if d = c then false.toNat else 0 := by
    intro α w silent
    rw [Bool.toNat_false, ite_self, polls_of_silent silent]
  cases request with
  | get key =>
    rw [performOn, polls_map, get, polls_bind drainNested, drained, polls_make]
    rfl
  | insert key value =>
    rw [performOn, polls_map, insert, polls_bind drainNested, drained, polls_make]
    rfl
  | remove key =>
    rw [performOn, polls_map, remove, polls_bind drainNested, drained, polls_make]
    rfl
  | insertOptional key value =>
    cases value with
    | none => exact still (silent_pure _)
    | some value =>
      rw [performOn, polls_map, insert, polls_bind drainNested, drained, polls_make]
      rfl
  | beginBulk =>
    rw [performOn, polls_bind drainNested, drained, polls_of_silent (silent_pure _)]
    rfl
  | storeNext key value =>
    rw [performOn, polls_map, polls_make]
    exact (ite_self _).symm
  | removeRecent key age =>
    rw [performOn, polls_map]
    cases cache.pool.recent? age with
    | none => exact still (silent_pure _)
    | some id => exact still (silent_make (.takeOutSlot d key id) rfl)
  | peek key => exact still (silent_pure _)
  | containsKey key => exact still (silent_pure _)
  | reclaim key =>
    have levels := reclaim_levels nested d key
    exact still (levels.2.bind levels.1 fun _ => silent_pure _)
  | releaseUnpinned =>
    have levels := evict_levels nested d Policy.unlimited
    have swept : ∀ released : Nat, (make (.sweep d) >>= fun _ => pure released : Work K V Nat).Silent :=
      fun _ => Silent.bind (silent_make _ rfl) (nested_make _ rfl) fun _ => silent_pure _
    have released := levels.2.bind levels.1 swept
    exact still (released.bind (inherited_nested.releaseUnpinned nested d) fun _ => silent_pure _)
  | clear =>
    have cleared : (clear d : Work K V Unit).polls c h = 0 := by
      rw [clear, polls_bind (nested_make _ rfl), polls_bind (nested_make _ rfl), polls_make, polls_make,
        polls_make]
      rfl
    rw [performOn, polls_bind (inherited_nested.clear d), cleared, polls_of_silent (silent_pure _)]
    exact (ite_self _).symm
  | pending => exact still (silent_pure _)
  | length => exact still (silent_pure _)
  | raise signal =>
    exact still ((silent_make _ rfl).bind (nested_make (.raise signal) rfl) fun _ => silent_pure _)

omit nested in
/-- In the course of a request, calls of cleaners aside, the policy of the cache that it is made to
    is asked once if the request drains, and no policy is asked otherwise. -/
theorem polls_serve (limit : Nat) (h : Host K V) (d : CacheId) (request : Request K V) :
    (Host.serve limit d request).polls c h =
      if d = c ∧ (h.cache? c).isSome then request.drains.toNat else 0 := by
  have nested := inherited_nested.runCallbacks (K := K) (V := V) limit
  rw [Host.serve, Host.perform, polls_bind (nested_make _ rfl), run_make, polls_make]
  cases found : h.cache? d with
  | none =>
    simp only [Move.make, found]
    rw [polls_of_silent (silent_pure _), if_neg]
    · rfl
    · rintro ⟨rfl, there⟩
      rw [found] at there
      cases there
  | some cache =>
    simp only [Move.make, found]
    rw [polls_bind (inherited_nested.performOn nested d cache request), polls_bind (nested_make _ rfl),
      polls_performOn nested found, polls_make, polls_of_silent (silent_pure _)]
    by_cases same : d = c
    · subst same
      simp [found, Step.consults]
    · simp [same, Step.consults]

end Work

/-! ### Operations that code of a caller makes up -/

/-- A routine makes no request that drains. -/
def Routine.Drainless {α : Type} (r : Routine K V α) : Prop := r.Only fun request => !request.drains

namespace Routine

variable {α β : Type}

omit [DecidableEq K] in
theorem Only.andThen {kind : Request K V → Bool} {r : Routine K V α} {f : α → Routine K V β}
    (first : r.Only kind) (second : ∀ a, (f a).Only kind) : (r.andThen f).Only kind := by
  induction r with
  | done result => exact second result
  | ask d request next ih => exact ⟨first.1, fun reply => ih reply (first.2 reply)⟩

omit [DecidableEq K] in
/-- Only the beginning of a bulk insert drains. -/
theorem drainless_storeAll (d : CacheId) {source : List (Routine K V (Except Panic (K × V)))}
    (drainless : ∀ next ∈ source, next.Drainless) : (storeAll d source).Drainless := by
  induction source with
  | nil => exact trivial
  | cons next rest ih =>
    refine Only.andThen (drainless next List.mem_cons_self) fun given => ?_
    cases given with
    | error p => exact trivial
    | ok e => exact ⟨rfl, fun _ => ih fun next member => drainless next (List.mem_cons_of_mem _ member)⟩

variable (limit : Nat) (h : Host K V)

/-- The policy is asked in the course of the first request, and then in the course of the others. -/
theorem polls_ask (d : CacheId) (request : Request K V) (next : Reply V → Routine K V α) :
    ((ask d request next).work (Host.serve limit)).polls c h =
      (if d = c ∧ (h.cache? c).isSome then request.drains.toNat else 0) +
        ((next ((Host.serve limit d request).run h).2).work (Host.serve limit)).polls c
          ((Host.serve limit d request).run h).1 := by
  have nothing : ∀ (a : List (Reply V) × α) (g : Host K V),
      (pure a : Work K V (List (Reply V) × α)).polls c g = 0 := fun _ _ => rfl
  rw [work, Work.polls_bind (Work.inherited_nested.serve limit d request), Work.polls_serve,
    Work.polls_bind (Work.inherited_nested.routine (Work.inherited_nested.serve limit) _), nothing,
    Nat.add_zero]

/-- The requests of routines are added up as well. -/
theorem polls_andThen (r : Routine K V α) (f : α → Routine K V β) :
    ((r.andThen f).work (Host.serve limit)).polls c h = (r.work (Host.serve limit)).polls c h +
      ((f ((r.work (Host.serve limit)).run h).2.2).work (Host.serve limit)).polls c
        ((r.work (Host.serve limit)).run h).1 := by
  induction r generalizing h with
  | done result => exact (Nat.zero_add _).symm
  | ask d request next ih =>
    rw [andThen, polls_ask, ih, polls_ask, Nat.add_assoc, work, Work.run_bind, Work.run_bind,
      Work.run_pure]

/-- Where no request drains nothing is asked. -/
theorem polls_of_drainless {r : Routine K V α} (drainless : r.Drainless) :
    (r.work (Host.serve limit)).polls c h = 0 := by
  induction r generalizing h with
  | done result => rfl
  | ask d request next ih =>
    have none : request.drains = false := by simpa using drainless.1
    rw [polls_ask, ih _ _ (drainless.2 _), none]
    exact ite_self _

/-- A bulk insert drains its cache once, if the code in it does not. -/
theorem polls_insertAll (d : CacheId) {source : List (Routine K V (Except Panic (K × V)))}
    (drainless : ∀ next ∈ source, next.Drainless) :
    ((insertAll d source).work (Host.serve limit)).polls c h =
      if d = c ∧ (h.cache? c).isSome then 1 else 0 := by
  rw [insertAll, polls_ask, polls_of_drainless limit _ (drainless_storeAll d drainless)]
  rfl

/-- A value that was computed drains its cache if it is stored. -/
theorem polls_storeComputed (d : CacheId) (key : K) {compute : Routine K V (Except Panic V)}
    (drainless : compute.Drainless) :
    ((compute.andThen (storeComputed d key)).work (Host.serve limit)).polls c h =
      match ((compute.work (Host.serve limit)).run h).2.2 with
      | .ok _ => if d = c ∧ (((compute.work (Host.serve limit)).run h).1.cache? c).isSome then 1 else 0
      | .error _ => 0 := by
  rw [polls_andThen, polls_of_drainless limit h drainless, Nat.zero_add]
  cases ((compute.work (Host.serve limit)).run h).2.2 with
  | error p => rfl
  | ok value => exact polls_ask limit _ d (.insert key value) _

/-- A value that is looked up or computed drains its cache once, and once more if it is stored. -/
theorem polls_getOrCompute (d : CacheId) (key : K) {compute : Routine K V (Except Panic V)}
    (drainless : compute.Drainless) :
    ((getOrCompute d key compute).work (Host.serve limit)).polls c h =
      if d = c ∧ (h.cache? c).isSome then
        let looked := (Host.serve limit d (.get key)).run h
        match looked.2, ((compute.work (Host.serve limit)).run looked.1).2.2 with
        | .value none, .ok _ => 2
        | _, _ => 1
      else 0 := by
  have looks := Host.grows_run (Host.serve limit d (.get key)) h
  have absent : h.cache? d = none → ((Host.serve limit d (.get key)).run h).2 = .noCache :=
    fun none => congrArg Prod.snd (Work.run_serve_of_none none limit _)
  rw [getOrCompute, polls_ask]
  generalize (Host.serve limit d (.get key)).run h = looked at looks absent ⊢
  obtain ⟨host, reply⟩ := looked
  by_cases there : d = c ∧ (h.cache? c).isSome
  -- Caches are never lost, so the one that was looked at is there to store the value in.
  · obtain ⟨rfl, some⟩ := there
    obtain ⟨cache, found⟩ := Option.isSome_iff_exists.mp some
    obtain ⟨later, foundLater, _⟩ := looks d cache found
    obtain ⟨last, foundLast, _⟩ :=
      Host.grows_run (compute.work (Host.serve limit)) host d later foundLater
    rw [if_pos ⟨rfl, some⟩, if_pos ⟨rfl, some⟩]
    rcases reply with (_ | value) | _ | _ | _ | _ | _
    · dsimp only
      rw [polls_storeComputed limit host d key drainless]
      cases ((compute.work (Host.serve limit)).run host).2.2 with
      | error p => rfl
      | ok value =>
        dsimp only
        rw [foundLast]
        simp [Request.drains]
    all_goals rfl
  · rw [if_neg there, if_neg there]
    rcases reply with (_ | value) | _ | _ | _ | _ | _
    · dsimp only
      rw [polls_storeComputed limit host d key drainless]
      have away : d ≠ c := by
        rintro rfl
        cases found : h.cache? d with
        | none => cases absent found
        | some cache => exact there ⟨rfl, by rw [found]; rfl⟩
      cases ((compute.work (Host.serve limit)).run host).2.2 with
      | error p => rfl
      | ok value => simp [away]
    all_goals rfl

end Routine

/-! ### What a policy is told -/

/-- Only a question to the policy changes what a cache knows of its questions. -/
theorem Cache.polled_effect (cache : Cache K V) {m : Move K V} (board : PressureBoard)
    (noPoll : ∀ d, m ≠ .consult d) :
    (m.effect board cache).consulted = cache.consulted ∧ (m.effect board cache).watch = cache.watch := by
  cases m with
  | consult d => exact absurd rfl (noPoll d)
  | look d key =>
    rw [Move.effect, touch]
    split
    · exact ⟨rfl, rfl⟩
    · dsimp only
      split <;> exact ⟨rfl, rfl⟩
  | releaseValue d key =>
    rw [Move.effect, releaseValueOf]
    split <;> exact ⟨rfl, rfl⟩
  | takeOut d key =>
    rw [Move.effect, takeOut]
    split <;> exact ⟨rfl, rfl⟩
  | _ => exact ⟨rfl, rfl⟩

theorem Cache.polled_effectOn (cache : Cache K V) {m : Move K V} (board : PressureBoard)
    (noPoll : m ≠ .consult c) : (m.effectOn board c cache).consulted = cache.consulted ∧
      (m.effectOn board c cache).watch = cache.watch := by
  rw [Move.effectOn]
  split
  · rename_i target
    apply cache.polled_effect board
    rintro d rfl
    cases target
    exact noPoll rfl
  · exact ⟨rfl, rfl⟩

omit [DecidableEq K] in
/-- A policy is asked when its cache is there. -/
theorem Step.consults_iff {s : Step K V} :
    s.consults c = true ↔ s.move = .consult c ∧ s.meets c = true := by
  rw [consults]
  split
  · rename_i d asks
    rw [asks, Bool.and_eq_true_iff, beq_iff_eq, Move.consult.injEq]
  · rename_i other
    refine ⟨fun no => absurd no Bool.false_ne_true, fun yes => absurd yes.1 (other c)⟩

/-- How often the policy of a cache was asked. -/
def Host.consulted (h : Host K V) (c : CacheId) : Nat := ((h.cache? c).map Cache.consulted).getD 0

/-- A cache counts how often its policy was asked. -/
theorem Host.consulted_make (h : Host K V) (m : Move K V) (c : CacheId) :
    h.consulted c + (if Step.consults c ⟨h, m⟩ then 1 else 0) = (m.make h).1.consulted c := by
  cases found : h.cache? c with
  | none =>
    have quiet : ¬ Step.consults c ⟨h, m⟩ = true := by
      simp [Step.consults_iff, Step.meets, found]
    rw [consulted, consulted, if_neg quiet, found]
    cases later : (m.make h).1.cache? c with
    | none => rfl
    | some cache =>
      rcases Move.exists_of_cache?_make m later with ⟨old, there, _⟩ | ⟨_, config, _, _, made⟩
      · rw [found] at there
        cases there
      · rw [Option.map_some, Option.getD_some, (Cache.new_assemble made).consulted]
        rfl
  | some cache =>
    rw [consulted, consulted, found, Move.cache?_make_of_some found m, Option.map_some,
      Option.getD_some, Option.map_some, Option.getD_some]
    by_cases asks : m = .consult c
    · subst asks
      rw [if_pos (Step.consults_iff.mpr ⟨rfl, by simp [Step.meets, found]⟩), Move.effectOn,
        Move.target, if_pos rfl]
      rfl
    · rw [if_neg fun consults => asks (Step.consults_iff.mp consults).1,
        (cache.polled_effectOn h.board asks).1]
      rfl

/-! ### Raises that were not seen yet -/

/-- Whether a signal is raised. -/
def Step.raises (signal : SignalId) (s : Step K V) : Bool :=
  match s.move with
  | .raise other => other == signal
  | _ => false

omit [DecidableEq K] in
theorem Step.raises_iff {signal : SignalId} {s : Step K V} :
    s.raises signal = true ↔ s.move = .raise signal := by
  rw [raises]
  split
  · rename_i other raised
    rw [raised, beq_iff_eq, Move.raise.injEq]
  · rename_i none
    exact ⟨fun no => absurd no Bool.false_ne_true, fun yes => absurd yes (none signal)⟩

/-- A signal was raised since a cache was built and since its policy was asked last. -/
def RaisedSince (c : CacheId) (signal : SignalId) (past : List (Step K V)) : Prop :=
  ∃ early t between, past = early ++ t :: between ∧ t.raises signal = true ∧ t.meets c = true ∧
    ∀ u ∈ between, u.consults c = false

/-- The number of raises of a signal that a cache has not seen after one more step. -/
def Step.unseen (c : CacheId) (signal : SignalId) (count : Nat) (s : Step K V) : Nat :=
  if s.consults c then 0 else if s.raises signal && s.meets c then count + 1 else count

/-- The number of raises of a signal that a cache has not seen. -/
def unseen (c : CacheId) (signal : SignalId) (past : List (Step K V)) : Nat :=
  past.foldl (Step.unseen c signal) 0

omit [DecidableEq K] in
/-- One more step can be looked at on its own. -/
theorem unseen_append_singleton (signal : SignalId) (past : List (Step K V)) (s : Step K V) :
    unseen c signal (past ++ [s]) = Step.unseen c signal (unseen c signal past) s := by
  rw [unseen, List.foldl_append, List.foldl_cons, List.foldl_nil, unseen]

omit [DecidableEq K] in
/-- Only raises are unseen. -/
theorem unseen_le (c : CacheId) (signal : SignalId) (past : List (Step K V)) :
    unseen c signal past ≤ past.countP (Step.raises signal) := by
  induction past using List.reverseRecOn with
  | nil => exact Nat.le_refl 0
  | append_singleton past s ih =>
    rw [unseen_append_singleton, Step.unseen, List.countP_append, List.countP_singleton]
    split
    · exact Nat.zero_le _
    · split
      · rename_i raised
        rw [if_pos (Bool.and_eq_true_iff.mp raised).1]
        exact Nat.succ_le_succ ih
      · exact Nat.le_add_right_of_le ih

omit [DecidableEq K] in
theorem raisedSince_append_singleton (signal : SignalId) (past : List (Step K V)) (s : Step K V) :
    RaisedSince c signal (past ++ [s]) ↔ s.consults c = false ∧
      ((s.raises signal = true ∧ s.meets c = true) ∨ RaisedSince c signal past) := by
  constructor
  · rintro ⟨early, t, between, split, raises, meets, quiet⟩
    rcases List.eq_nil_or_concat' between with rfl | ⟨between, last, rfl⟩
    · obtain ⟨-, rfl⟩ := List.append_singleton_inj.mp split
      refine ⟨?_, .inl ⟨raises, meets⟩⟩
      rw [Step.raises] at raises
      rw [Step.consults]
      split
      · rename_i d consults
        rw [consults] at raises
        cases raises
      · rfl
    · rw [← List.cons_append, ← List.append_assoc] at split
      obtain ⟨rfl, rfl⟩ := List.append_singleton_inj.mp split
      refine ⟨quiet _ (by simp), .inr ⟨early, t, between, rfl, raises, meets, fun u member => ?_⟩⟩
      exact quiet u (List.mem_append_left _ member)
  · rintro ⟨still, ⟨raises, meets⟩ | ⟨early, t, between, rfl, raises, meets, quiet⟩⟩
    · exact ⟨past, s, [], rfl, raises, meets, by simp⟩
    · refine ⟨early, t, between ++ [s], by simp, raises, meets, fun u member => ?_⟩
      rcases List.mem_append.mp member with earlier | last
      · exact quiet u earlier
      · exact List.mem_singleton.mp last ▸ still

omit [DecidableEq K] in
/-- There was a raise since the policy was last asked if one of them is still unseen. -/
theorem raisedSince_iff (c : CacheId) (signal : SignalId) (past : List (Step K V)) :
    RaisedSince c signal past ↔ unseen c signal past ≠ 0 := by
  induction past using List.reverseRecOn with
  | nil =>
    refine ⟨?_, fun some => absurd rfl some⟩
    rintro ⟨early, t, between, split, _⟩
    simp at split
  | append_singleton past s ih =>
    rw [raisedSince_append_singleton, unseen_append_singleton, Step.unseen, ih]
    cases s.consults c <;> cases s.raises signal <;> cases s.meets c <;> simp

namespace PressureBoard

/-- A raise makes no new signal. -/
theorem size_raise (b : PressureBoard) (signal : SignalId) :
    (b.raise signal).epochs.size = b.epochs.size :=
  Array.size_modify

theorem epoch_raise (b : PressureBoard) (signal other : SignalId) :
    (b.raise signal).epoch other =
      if other = signal ∧ other < b.epochs.size then b.epoch other + 1 else b.epoch other := by
  rw [epoch, epoch, raise, Array.getElem?_modify]
  by_cases same : signal = other
  · subst same
    by_cases inside : signal < b.epochs.size
    · simp [inside]
    · simp [inside]
  · simp [same, Ne.symm same]

end PressureBoard

/-- A cache has seen the raises of its signal that were made before its policy was asked last; the
    others were made in the past that is given. -/
structure Host.Watches (c : CacheId) (past : List (Step K V)) (h : Host K V) : Prop where
  absent : h.cache? c = none → ∀ signal, unseen c signal past = 0
  present : ∀ cache w, h.cache? c = some cache → cache.watch = some w →
    w.signal < h.board.epochs.size →
    h.board.epoch w.signal = w.seen + UInt64.ofNat (unseen c w.signal past)

/-- The signal is seen when the policy is asked, and only then. -/
theorem Host.Watches.make {past : List (Step K V)} {h : Host K V} (watches : h.Watches c past)
    (m : Move K V) : (m.make h).1.Watches c (past ++ [⟨h, m⟩]) := by
  cases found : h.cache? c with
  | none =>
    -- Raises before the cache is built do not count, and it begins with what the board shows.
    have nothing : ∀ signal, unseen c signal (past ++ [⟨h, m⟩]) = 0 := by
      intro signal
      rw [unseen_append_singleton, watches.absent found, Step.unseen]
      simp [Step.meets, found]
    refine ⟨fun _ => nothing, fun cache w there watched inside => ?_⟩
    rcases Move.exists_of_cache?_make m there with ⟨old, earlier, _⟩ | ⟨_, config, rfl, _, made⟩
    · rw [found] at earlier
      cases earlier
    · rw [(Cache.new_assemble made).watch] at watched
      obtain ⟨signal, _, rfl⟩ := Option.map_eq_some_iff.mp watched
      rw [Host.board_make (m := .build config) fun _ => nofun, nothing]
      exact (UInt64.add_zero _).symm
  | some cache =>
    have after := Move.cache?_make_of_some found m
    refine ⟨fun none => ?_, fun later w there watched inside => ?_⟩
    · rw [after] at none
      cases none
    · rw [after] at there
      cases there
      have meets : Step.meets c ⟨h, m⟩ = true := by simp [Step.meets, found]
      rw [unseen_append_singleton, Step.unseen]
      by_cases asks : m = .consult c
      · -- A question to the policy has seen all raises.
        subst asks
        rw [if_pos (Step.consults_iff.mpr ⟨rfl, meets⟩),
          Host.board_make (m := .consult c) fun _ => nofun]
        rw [Move.effectOn, Move.target, if_pos rfl] at watched
        obtain ⟨old, _, rfl⟩ := Option.map_eq_some_iff.mp watched
        exact (UInt64.add_zero _).symm
      · rw [(cache.polled_effectOn h.board asks).2] at watched
        rw [if_neg fun consults => asks (Step.consults_iff.mp consults).1]
        by_cases raises : ∃ signal, m = .raise signal
        · obtain ⟨signal, rfl⟩ := raises
          have board : ((Move.raise signal).make h).1.board = h.board.raise signal := rfl
          rw [board, PressureBoard.size_raise] at inside
          have before := watches.present cache w found watched inside
          rw [board, PressureBoard.epoch_raise, meets, Bool.and_true]
          by_cases same : w.signal = signal
          · have raised : Step.raises w.signal ⟨h, .raise signal⟩ = true :=
              Step.raises_iff.mpr (congrArg Move.raise same.symm)
            rw [if_pos ⟨same, inside⟩, if_pos raised, before, UInt64.ofNat_add, UInt64.add_assoc]
            rfl
          · have other : ¬ Step.raises w.signal ⟨h, .raise signal⟩ = true := fun raised =>
              same (Move.raise.inj (Step.raises_iff.mp raised)).symm
            rw [if_neg fun both => same both.1, if_neg other, before]
        · have noRaise : ∀ signal, m ≠ .raise signal := fun signal same => raises ⟨signal, same⟩
          have quiet : ¬ (Step.raises w.signal ⟨h, m⟩ && Step.meets c ⟨h, m⟩) = true := fun both =>
            noRaise _ (Step.raises_iff.mp (Bool.and_eq_true_iff.mp both).1)
          rw [if_neg quiet, Host.board_make noRaise]
          rw [Host.board_make noRaise] at inside
          exact watches.present cache w found watched inside

omit [DecidableEq K] in
theorem Host.watches_empty (board : PressureBoard) (c : CacheId) :
    (Host.empty board : Host K V).Watches c [] := by
  refine ⟨fun _ _ => rfl, fun cache w found => ?_⟩
  simp [Host.empty, Host.cache?] at found

omit [DecidableEq K] in
/-- With fewer raises than a signal can count, a cache is told of memory pressure if and only if its
    signal was raised and it has not seen that. -/
theorem Host.Watches.underPressure_iff {past : List (Step K V)} {h : Host K V}
    (watches : h.Watches c past) {cache : Cache K V} (found : h.cache? c = some cache)
    (few : ∀ w ∈ cache.watch, w.signal < h.board.epochs.size ∧
      past.countP (Step.raises w.signal) < 2 ^ 64) :
    (cache.usage h.board).underPressure = true ↔
      ∃ w ∈ cache.watch, RaisedSince c w.signal past := by
  rw [Cache.usage]
  cases watched : cache.watch with
  | none => simp
  | some w =>
    obtain ⟨inside, few⟩ := few w watched
    have missed := watches.present cache w found watched inside
    have small : unseen c w.signal past < 2 ^ 64 := (unseen_le c w.signal past).trans_lt few
    have raised : w.isRaised h.board = true ↔ unseen c w.signal past ≠ 0 := by
      rw [Watch.isRaised, missed, bne_iff_ne, ne_eq, ne_eq, not_iff_not, UInt64.add_eq_left,
        ← UInt64.toNat_inj, UInt64.toNat_ofNat_of_lt' small]
      rfl
    simp [raised, raisedSince_iff]

/-- The signals of a board stay, and a cache watches the one that it was built with. -/
structure Host.Bound (signals : Nat) (c : CacheId) (past : List (Step K V)) (h : Host K V) : Prop where
  size : h.board.epochs.size = signals
  built : ∀ cache, h.cache? c = some cache → ∃ t ∈ past, ∃ config, t.move = .build config ∧
    t.before.nextCache = c ∧ cache.watch.map Watch.signal = config.signal

omit [DecidableEq K] in
theorem Host.bound_empty (board : PressureBoard) (c : CacheId) :
    (Host.empty board : Host K V).Bound board.epochs.size c [] := by
  refine ⟨rfl, fun cache found => ?_⟩
  simp [Host.empty, Host.cache?] at found

/-- A cache keeps its signal. -/
theorem Host.Bound.make {signals : Nat} {past : List (Step K V)} {h : Host K V}
    (bound : h.Bound signals c past) (m : Move K V) :
    (m.make h).1.Bound signals c (past ++ [⟨h, m⟩]) := by
  refine ⟨?_, fun cache found => ?_⟩
  · by_cases raises : ∃ signal, m = .raise signal
    · obtain ⟨signal, rfl⟩ := raises
      exact (h.board.size_raise signal).trans bound.size
    · rw [Host.board_make fun signal same => raises ⟨signal, same⟩]
      exact bound.size
  · rcases Move.exists_of_cache?_make m found with ⟨old, there, rfl⟩ | ⟨none, config, rfl, _, made⟩
    · obtain ⟨t, member, config, builds, number, signal⟩ := bound.built old there
      refine ⟨t, List.mem_append_left _ member, config, builds, number, ?_⟩
      by_cases asks : m = .consult c
      · subst asks
        rw [Move.effectOn, Move.target, if_pos rfl, ← signal]
        exact Option.map_map _ _ _
      · rw [(old.polled_effectOn h.board asks).2, signal]
    · refine ⟨_, List.mem_append_right _ (List.mem_singleton_self _), config, rfl, ?_, ?_⟩
      · by_contra other
        rw [Move.cache?_make_build, if_neg (Ne.symm other), none] at found
        cases found
      · rw [(Cache.new_assemble made).watch, Option.map_map]
        exact congrFun Option.map_id _

namespace Session

variable [BEq V]

/-- The policy of a cache is asked as often as the cache is drained. On every level of nesting that
    is once for each request to get, insert or remove, or to begin a bulk insert, apart from what
    commands do that are not requests; a single request asks once or, if it does not drain, not at all.
    So a bulk insert asks once on whatever level, and looking a value up or computing it once if it is
    found or the computation panics, and twice if it is stored, apart from what the code in them asks
    for. The policy is told of memory pressure if and only if the signal was raised since the cache was
    built and since the policy was asked last. -/
theorem one_reaction_per_raise (limit : Nat) (board : PressureBoard) :
    (∀ (acts : List (Act K V)) (c : CacheId),
      (∀ cache, ((empty board).run limit acts).1.host.cache? c = some cache →
        cache.consulted = ((empty board).history limit acts).countP (Step.consults c)) ∧
      ∀ level, ((empty board).history limit acts).countP (Step.atLevel level (Step.consults c)) =
        ((empty board).history limit acts).countP (Step.atLevel level (Step.servesDrain c)) +
          if level = 0 then ((acts.zip ((empty board).run limit acts).2).map fun done =>
            done.1.ownDrains c done.2).sum else 0) ∧
    (∀ (h : Host K V) (d c : CacheId) (request : Request K V),
      ((Host.serve limit d request).steps h).countP (Step.atLevel h.active (Step.consults c)) =
        if d = c ∧ (h.cache? c).isSome then request.drains.toNat else 0) ∧
    (∀ (h : Host K V) (d c : CacheId) (source : List (Routine K V (Except Panic (K × V)))),
      (∀ next ∈ source, next.Drainless) →
      (((Routine.insertAll d source).work (Host.serve limit)).steps h).countP
          (Step.atLevel h.active (Step.consults c)) =
        if d = c ∧ (h.cache? c).isSome then 1 else 0) ∧
    (∀ (h : Host K V) (d c : CacheId) (key : K) (compute : Routine K V (Except Panic V)),
      compute.Drainless →
      (((Routine.getOrCompute d key compute).work (Host.serve limit)).steps h).countP
          (Step.atLevel h.active (Step.consults c)) =
        if d = c ∧ (h.cache? c).isSome then
          let looked := (Host.serve limit d (.get key)).run h
          match looked.2, ((compute.work (Host.serve limit)).run looked.1).2.2 with
          | .value none, .ok _ => 2
          | _, _ => 1
        else 0) ∧
    ∀ (acts : List (Act K V)) (before later : List (Step K V)) (s : Step K V) (c : CacheId)
      (cache : Cache K V), (empty board).history limit acts = before ++ s :: later →
      s.move = .consult c → s.before.cache? c = some cache →
      (∃ t ∈ before, ∃ config, t.move = .build config ∧ t.before.nextCache = c ∧
        cache.watch.map Watch.signal = config.signal) ∧
      ((∀ w ∈ cache.watch, w.signal < board.epochs.size ∧
          before.countP (Step.raises w.signal) < 2 ^ 64) →
        ((cache.usage s.before.board).underPressure = true ↔
          ∃ w ∈ cache.watch, RaisedSince c w.signal before)) := by
  refine ⟨fun acts c => ⟨?_, ?_⟩, ?_, ?_, ?_, ?_⟩
  · intro cache found
    have counted := Work.count_steps (P := fun _ => True) (fun _ _ _ => trivial) (Step.consults c)
      (fun h => h.consulted c) (fun m h _ => h.consulted_make m c)
      (Act.workAll limit ([] : Cursors K) acts) (h := (Host.empty board : Host K V)) trivial
    have none : (Host.empty board : Host K V).consulted c = 0 := by
      simp [Host.consulted, Host.empty, Host.cache?]
    have last : ((empty board).run limit acts).1.host.consulted c = cache.consulted := by
      rw [Host.consulted, found]
      rfl
    rw [none, Nat.zero_add] at counted
    exact last.symm.trans counted.symm
  · intro level
    exact Work.drains_workAll ([] : Cursors K) acts level
  · intro h d c request
    exact Work.polls_serve limit h d request
  · intro h d c source drainless
    exact Routine.polls_insertAll limit h d drainless
  · intro h d c key compute drainless
    exact Routine.polls_getOrCompute limit h d key drainless
  · intro acts before later s c cache split asks found
    have bound := Work.along_steps (P := fun past h => h.Bound board.epochs.size c past)
      (fun _ m _ bound => bound.make m) (Act.workAll limit ([] : Cursors K) acts)
      (Host.bound_empty board c) split
    have watches := Work.along_steps (P := fun past h => h.Watches c past)
      (fun _ m _ watches => watches.make m) (Act.workAll limit ([] : Cursors K) acts)
      (Host.watches_empty board c) split
    refine ⟨bound.built cache found, fun few => ?_⟩
    exact watches.underPressure_iff found (bound.size ▸ few)

end Session

end

/-- A cache of one pin that releases values when memory is short. Its cleaner looks a value up, raises
    the signal and stores a value in a bulk insert. -/
def Config.alarming : Config UInt64 Nat where
  pinCapacity := 1
  shards := some 2
  hasher := .standard
  cleaner := some {
    callbacks := fun _ => .ask 0 (.get 2) fun _ => .ask 0 (.raise 0) fun _ =>
      (Routine.insertAll 0 [.done (.ok (2, 25))]).andThen fun _ => .done ()
    verdict := fun _ => .succeeded }
  policy := .onPressure
  signal := some 0

/-- The signal is raised twice before a value is looked up. -/
def alarmingActs : List (Act UInt64 Nat) :=
  [.build .alarming, .on 0 (.request (.insert 1 10)), .on 0 (.request (.insert 2 20)),
    .on 0 (.request (.raise 0)), .on 0 (.request (.raise 0)), .on 0 (.request (.get 2))]

/-- The look-up drains such a cache because the signal was raised. The look-up of the cleaner that is
    called drains it again, and is told nothing of that raise; the bulk insert drains it once more, and
    is told of the raise that the cleaner made. Such a bulk insert asks the policy once, and computing a
    value that is not there twice. -/
theorem one_reaction_per_raise_alarming :
    (∃ cache, ((Session.empty ⟨#[5]⟩).run 2 alarmingActs).1.host.cache? 0 = some cache ∧
      cache.consulted = ((Session.empty ⟨#[5]⟩).history 2 alarmingActs).countP (Step.consults 0)) ∧
    (∀ h, h = ((Session.empty ⟨#[5]⟩).run 2 alarmingActs).1.host →
      (((Routine.insertAll 0 [.done (.ok (2, 25))]).work (Host.serve 2)).steps h).countP
          (Step.atLevel h.active (Step.consults 0)) = 1 ∧
        (((Routine.getOrCompute 0 9 (.done (.ok 90))).work (Host.serve 2)).steps h).countP
          (Step.atLevel h.active (Step.consults 0)) = 2) ∧
    ∀ told : Nat × Nat × Bool, told ∈ [(24, 0, true), (30, 1, false), (38, 1, true)] →
      ∃ before s later cache w, (Session.empty ⟨#[5]⟩).history 2 alarmingActs = before ++ s :: later ∧
        before.length = told.1 ∧ s.before.active = told.2.1 ∧ s.move = .consult 0 ∧
        s.before.cache? 0 = some cache ∧ cache.watch = some w ∧
        (told.2.2 = true ↔ RaisedSince 0 w.signal before) := by
  have there : (((Session.empty ⟨#[5]⟩).run 2 alarmingActs).1.host.cache? 0).isSome := by
    decide +kernel
  refine ⟨?_, ?_, fun told member => ?_⟩
  · obtain ⟨cache, found⟩ := Option.isSome_iff_exists.mp there
    exact ⟨cache, found, ((Session.one_reaction_per_raise 2 ⟨#[5]⟩).1 alarmingActs 0).1 cache found⟩
  · rintro h rfl
    have plain : ∀ next ∈ [.done (.ok (2, 25))],
        (next : Routine UInt64 Nat (Except Panic (UInt64 × Nat))).Drainless := by
      simp [Routine.Drainless, Routine.Only]
    have once := (Session.one_reaction_per_raise 2 ⟨#[5]⟩).2.2.1
      ((Session.empty ⟨#[5]⟩).run 2 alarmingActs).1.host 0 0 _ plain
    have twice := (Session.one_reaction_per_raise 2 ⟨#[5]⟩).2.2.2.1
      ((Session.empty ⟨#[5]⟩).run 2 alarmingActs).1.host 0 0 9 (.done (.ok 90)) trivial
    have missed : ((Host.serve 2 0 (.get 9)).run
        ((Session.empty ⟨#[5]⟩).run 2 alarmingActs).1.host).2 = .value none := by decide +kernel
    rw [if_pos ⟨rfl, there⟩] at twice
    dsimp only at twice
    rw [missed] at twice
    exact ⟨once.trans (if_pos ⟨rfl, there⟩), twice⟩
  · obtain ⟨index, level, pressed⟩ := told
    have facts : (((Session.empty ⟨#[5]⟩).history 2 alarmingActs)[index]?.bind fun s =>
        (s.before.cache? 0).bind fun cache => cache.watch.map fun w =>
          (s.before.active, (cache.usage s.before.board).underPressure, w.signal, s.consults 0,
            decide (index < 40))) = some (level, pressed, 0, true, true) := by
      simp only [List.mem_cons, List.not_mem_nil, or_false, Prod.mk.injEq] at member
      rcases member with ⟨rfl, rfl, rfl⟩ | ⟨rfl, rfl, rfl⟩ | ⟨rfl, rfl, rfl⟩ <;> decide +kernel
    obtain ⟨s, here, facts⟩ := Option.bind_eq_some_iff.mp facts
    obtain ⟨cache, found, facts⟩ := Option.bind_eq_some_iff.mp facts
    obtain ⟨w, watched, facts⟩ := Option.map_eq_some_iff.mp facts
    simp only [Prod.mk.injEq, decide_eq_true_eq] at facts
    obtain ⟨rfl, rfl, signal, consults, early⟩ := facts
    obtain ⟨inside, rfl⟩ := List.getElem?_eq_some_iff.mp here
    have split := (List.take_append_drop index ((Session.empty ⟨#[5]⟩).history 2 alarmingActs)).symm
    rw [List.drop_eq_getElem_cons inside] at split
    have length := List.length_take_of_le (Nat.le_of_lt inside)
    have asks := (Step.consults_iff.mp consults).1
    refine ⟨_, _, _, cache, w, split, length, rfl, asks, found, watched, ?_⟩
    have reacts := ((Session.one_reaction_per_raise 2 ⟨#[5]⟩).2.2.2.2 _ _ _ _ 0 cache split asks found).2
    rw [watched] at reacts
    refine (reacts ?_).trans (by simp)
    intro v same
    obtain rfl : w = v := Option.some.inj same
    have few := (List.countP_le_length (p := Step.raises w.signal)).trans_eq length
    exact ⟨signal ▸ Nat.zero_lt_one, by omega⟩

end ReclaimableCache
