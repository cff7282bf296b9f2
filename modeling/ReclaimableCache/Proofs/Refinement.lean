import ReclaimableCache.Proofs.Retain

/-!
# A cache as a plain map

Whatever its configuration, a cache whose cleaner is quiet answers every command as a plain map
would that loses, at the beginning of the operations that drain, some bindings under keys that have
no pins. First every kind of command is shown to act so on a cache that is ready, then a run of
commands follows by induction.
-/

namespace ReclaimableCache

variable {K V : Type}

section

variable [DecidableEq K]

/-- Whether the slot under a key of a cache has no pins. -/
def Host.Free (h : Host K V) (c : CacheId) (key : K) : Prop :=
  ∃ cache, h.cache? c = some cache ∧ cache.Free key

namespace Host.Ready

variable {h : Host K V} {c : CacheId} {cache : Cache K V} (ready : h.Ready c cache)

include ready

theorem free_eq : h.Free c = cache.Free := by
  funext key
  refine propext ⟨?_, fun free => ⟨cache, ready.found, free⟩⟩
  rintro ⟨other, found, free⟩
  rw [ready.found] at found
  cases found
  exact free

/-! ### Single moves -/

theorem look (key : K) :
    ((Move.look c key).make h).1.Ready c (cache.touch key).1 ∧
      ((Move.look c key).make h).2 = cache.peek key :=
  ⟨ready.make rfl rfl, Cache.look_snd ready.found key⟩

theorem place (key : K) (value : V) :
    ((Move.place c key value).make h).1.Ready c (cache.store key value).1 ∧
      ((Move.place c key value).make h).2 = cache.peek key := by
  refine ⟨ready.make rfl rfl, ?_⟩
  rw [← Cache.store_snd ready.here key value]
  simp only [Move.make, Host.place, ready.found]

theorem takeOut (key : K) :
    ((Move.takeOut c key).make h).1.Ready c (cache.takeOut key).1 ∧
      ((Move.takeOut c key).make h).2 = cache.peek key := by
  refine ⟨ready.make rfl rfl, ?_⟩
  rw [← cache.takeOut_snd key]
  simp only [Move.make, Host.onCache, ready.found]

/-- Looking up a key without a value in a cache in which nothing waits pins nothing. -/
theorem touch_of_absent (swept : cache.pending = []) {key : K} (absent : cache.peek key = none) :
    (cache.touch key).1 = cache.tally .miss := by
  cases bound : cache.table.get? key with
  | none => simp only [Cache.touch, bound]
  | some id =>
    have live := ready.accounted.isLive ready.here swept bound
    rw [SlotPool.isLive] at live
    rw [Cache.peek, bound, Option.bind_some] at absent
    rw [absent] at live
    cases live

/-! ### Operations of any kind -/

theorem get (limit : Nat) (key : K) :
    ∃ later lost, ((Work.get (runCallbacks limit) c key).run h).1.Ready c later ∧
      PlainMap.MayLose cache.peek cache.Free lost ∧
      later.peek = PlainMap.without cache.peek lost ∧
      ((Work.get (runCallbacks limit) c key).run h).2 = PlainMap.without cache.peek lost key := by
  obtain ⟨drained, lost, settled, loses, _⟩ := ready.drain limit
  obtain ⟨looked, answer⟩ := settled.look key
  rw [Work.run_get]
  refine ⟨_, lost, looked, loses.were, ?_, ?_⟩
  · rw [drained.peek_touch, loses.peek]
  · rw [answer, loses.peek]

theorem insert (limit : Nat) (key : K) (value : V) :
    ∃ later lost, ((Work.insert (runCallbacks limit) c key value).run h).1.Ready c later ∧
      PlainMap.MayLose cache.peek cache.Free lost ∧
      later.peek = (PlainMap.without cache.peek lost).bind key value ∧
      ((Work.insert (runCallbacks limit) c key value).run h).2 =
        PlainMap.without cache.peek lost key := by
  obtain ⟨drained, lost, settled, loses, _⟩ := ready.drain limit
  obtain ⟨placed, answer⟩ := settled.place key value
  rw [Work.run_insert]
  refine ⟨_, lost, placed, loses.were, ?_, ?_⟩
  · rw [Cache.peek_store settled.here, loses.peek]
  · rw [answer, loses.peek]

theorem remove (limit : Nat) (key : K) :
    ∃ later lost, ((Work.remove (runCallbacks limit) c key).run h).1.Ready c later ∧
      PlainMap.MayLose cache.peek cache.Free lost ∧
      later.peek = (PlainMap.without cache.peek lost).unbind key ∧
      ((Work.remove (runCallbacks limit) c key).run h).2 = PlainMap.without cache.peek lost key := by
  obtain ⟨drained, lost, settled, loses, _⟩ := ready.drain limit
  obtain ⟨taken, answer⟩ := settled.takeOut key
  rw [Work.run_remove]
  refine ⟨_, lost, taken, loses.were, ?_, ?_⟩
  · rw [drained.peek_takeOut, loses.peek]
  · rw [answer, loses.peek]

/-- What is released on request is all that can be, up to what a machine word counts. -/
theorem releaseUnpinned (limit : Nat) :
    ∃ later lost, ((Work.releaseUnpinned (runCallbacks limit) c).run h).1.cache? c = some later ∧
      PlainMap.MayLose cache.peek cache.Free lost ∧
      (lost.card < Policy.unlimited →
        ∀ key, (cache.peek key).isSome = true → cache.Free key → key ∈ lost) ∧
      later.peek = PlainMap.without cache.peek lost ∧
      ((Work.releaseUnpinned (runCallbacks limit) c).run h).2 = lost.card := by
  obtain ⟨evicted, settled, loses, count⟩ := ready.evict limit Policy.unlimited
  obtain ⟨swept, nothing⟩ := settled.sweep
  rw [Work.run_releaseUnpinned]
  dsimp only
  refine ⟨_, _, swept.found, loses.were, ?_, ?_, count⟩
  · intro few key bound free
    rw [List.toFinset_card_of_nodup (ready.here.nodup_keys_releaseValues _), List.length_map] at few
    exact List.mem_toFinset.mpr (ready.here.mem_of_free few bound free)
  · rw [settled.accounted.peek_sweep settled.here, loses.peek]

theorem reclaim (limit : Nat) (key : K) :
    ∃ later, ((Work.reclaim (runCallbacks limit) c key).run h).1.cache? c = some later ∧
      later.peek = PlainMap.unbind cache.peek key ∧
      ((Work.reclaim (runCallbacks limit) c key).run h).2 = (cache.peek key).isSome := by
  have released := Move.cache?_make_of_target ready.found (m := .releaseValue c key) rfl
  rw [Move.effect] at released
  have victim : ((Move.releaseValue c key).make h).2 = (cache.releaseValueOf key).2 := by
    simp only [Move.make, Host.onCache, ready.found]
  have peek := ready.here.peek_releaseValueOf key
  rw [Work.reclaim, Work.run_bind, Work.run_make, victim, ← cache.isSome_releaseValueOf key]
  cases (cache.releaseValueOf key).2 with
  | none =>
    rw [Work.run_pure]
    exact ⟨_, released, peek, rfl⟩
  | some victim =>
    have still : (cache.releaseValueOf key).1.Quiet := by
      rw [Cache.Quiet, (cache.grows_releaseValueOf key).cleaner]
      exact ready.quiet
    have cleaned := (Work.cache?_clean released still limit victim c).trans released
    dsimp only
    rw [Work.run_bind, Work.run_bind, Work.run_make, Work.run_bind, Work.run_make, Work.run_pure]
    generalize (Work.clean (runCallbacks limit) c victim).run _ = disposed at cleaned
    have counted := Move.cache?_make_of_target cleaned
      (m := .countReclaim c (disposed.2 = .failed)) rfl
    refine ⟨_, Move.cache?_make_of_target counted (m := .enqueue c victim.id) rfl, ?_, rfl⟩
    simp only [Move.effect]
    rw [← peek]
    generalize (cache.releaseValueOf key).1 = released
    rfl

theorem clear :
    ∃ later, ((Work.clear c).run h).1.cache? c = some later ∧ later.peek = PlainMap.empty := by
  obtain ⟨swept, _⟩ := (ready.make (m := .unpinAll c) rfl rfl).sweep
  have dropped := swept.make (m := .dropEntries c) rfl rfl
  rw [Work.run_clear]
  exact ⟨_, dropped.found, Cache.peek_dropEntries _⟩

/-! ### Commands -/

variable [BEq V]

/-- What can also be asked for from inside a cleaner. -/
theorem performs_request (limit : Nat) {request : Request K V}
    (plain : (Command.request request).Plain) :
    ∃ later, ((Work.performOn (runCallbacks limit) c cache request).run h).1.cache? c = some later ∧
      PlainMap.Performs cache.Free cache.peek (.request request) later.peek
        (.reply ((Work.performOn (runCallbacks limit) c cache request).run h).2) := by
  cases request with
  | get key =>
    obtain ⟨later, lost, ended, may, peek, answer⟩ := ready.get limit key
    rw [Work.performOn, Work.run_map]
    dsimp only
    refine ⟨later, ended.found, ?_⟩
    rw [peek, answer]
    exact .get may key
  | peek key => exact ⟨cache, ready.found, .peek key⟩
  | containsKey key =>
    refine ⟨cache, ready.found, ?_⟩
    rw [Work.performOn, Work.run_pure, cache.containsKey_eq]
    exact .containsKey key
  | insert key value =>
    obtain ⟨later, lost, ended, may, peek, answer⟩ := ready.insert limit key value
    rw [Work.performOn, Work.run_map]
    dsimp only
    refine ⟨later, ended.found, ?_⟩
    rw [peek, answer]
    exact .insert may key value
  | remove key =>
    obtain ⟨later, lost, ended, may, peek, answer⟩ := ready.remove limit key
    rw [Work.performOn, Work.run_map]
    dsimp only
    refine ⟨later, ended.found, ?_⟩
    rw [peek, answer]
    exact .remove may key
  | reclaim key =>
    obtain ⟨later, found, peek, answer⟩ := ready.reclaim limit key
    rw [Work.performOn, Work.run_map]
    dsimp only
    refine ⟨later, found, ?_⟩
    rw [peek, answer]
    exact .reclaim key
  | releaseUnpinned =>
    obtain ⟨later, lost, found, may, all, peek, answer⟩ := ready.releaseUnpinned limit
    rw [Work.performOn, Work.run_map]
    dsimp only
    refine ⟨later, found, ?_⟩
    rw [peek, answer]
    exact .releaseUnpinned may all
  | clear =>
    obtain ⟨later, found, peek⟩ := ready.clear
    rw [Work.performOn, Work.run_bind, Work.run_pure]
    dsimp only
    refine ⟨later, found, ?_⟩
    rw [peek]
    exact .clear
  | insertOptional key value => exact plain.elim
  | beginBulk => exact plain.elim
  | storeNext key value => exact plain.elim
  | removeRecent key age => exact plain.elim
  | pending => exact plain.elim
  | length => exact plain.elim
  | raise signal => exact ⟨cache, ready.found, .raise signal⟩

omit ready [BEq V] in
/-- A source is stored value by value; it does not see the cache meanwhile. -/
theorem storeAll {h : Host K V} {cache : Cache K V} (ready : h.Ready c cache) (limit : Nat)
    {source : List (Routine K V (Except Panic (K × V)))} {given : List (Except Panic (K × V))}
    (gives : List.Forall₂ Routine.Gives source given) :
    ∃ later, ((Work.storeAll limit c source).run h).1.cache? c = some later ∧
      later.peek = (PlainMap.bindAll cache.peek given).1 ∧
      ((Work.storeAll limit c source).run h).2 = (PlainMap.bindAll cache.peek given).2 := by
  induction gives generalizing h cache with
  | nil => exact ⟨cache, ready.found, rfl, rfl⟩
  | @cons next result source given first rest ih =>
    obtain ⟨answer, still⟩ := Work.run_follow first limit h
    have followed := ready.work (Work.inherited_settles.follow limit next)
      ((still c).trans ready.found)
    rw [Work.storeAll, Work.run_bind, answer]
    cases result with
    | error p => exact ⟨cache, followed.found, rfl, rfl⟩
    | ok e =>
      obtain ⟨placed, _⟩ := followed.place e.1 e.2
      dsimp only
      rw [Work.run_bind, Work.run_make, PlainMap.bindAll, ← Cache.peek_store ready.here]
      exact ih placed

theorem performs_insertAll (limit : Nat) {source : List (Routine K V (Except Panic (K × V)))}
    (plain : (Command.insertAll source).Plain) :
    ∃ later, ((Work.insertAll limit c source).run h).1.cache? c = some later ∧
      PlainMap.Performs cache.Free cache.peek (.insertAll source) later.peek
        (.ofExcept (fun _ => .done) ((Work.insertAll limit c source).run h).2) := by
  have given : ∃ given, List.Forall₂ Routine.Gives source given := by
    clear ready
    induction source with
    | nil => exact ⟨[], .nil⟩
    | cons next source ih =>
      obtain ⟨result, first⟩ := plain next List.mem_cons_self
      obtain ⟨given, rest⟩ := ih fun other member => plain other (List.mem_cons_of_mem _ member)
      exact ⟨result :: given, .cons first rest⟩
  obtain ⟨given, gives⟩ := given
  obtain ⟨drained, lost, settled, loses, _⟩ := ready.drain limit
  obtain ⟨later, found, peek, answer⟩ := settled.storeAll limit gives
  rw [Work.insertAll, Work.run_bind]
  refine ⟨later, found, ?_⟩
  rw [peek, answer, loses.peek]
  exact .insertAll loses.were gives

theorem performs_getOrCompute (limit : Nat) (key : K) {compute : Routine K V (Except Panic V)}
    (plain : (Command.getOrCompute key compute).Plain) :
    ∃ later, ((Work.getOrCompute limit c key compute).run h).1.cache? c = some later ∧
      PlainMap.Performs cache.Free cache.peek (.getOrCompute key compute) later.peek
        (.ofExcept (fun r => .obtained r.1 r.2)
          ((Work.getOrCompute limit c key compute).run h).2) := by
  obtain ⟨given, gives⟩ := plain
  obtain ⟨drained, lost, settled, loses, swept⟩ := ready.drain limit
  obtain ⟨looked, answer⟩ := settled.look key
  have peek : (drained.touch key).1.peek = PlainMap.without cache.peek lost := by
    rw [drained.peek_touch, loses.peek]
  rw [Work.getOrCompute, Work.run_bind, Work.run_get, answer]
  cases bound : drained.peek key with
  | some value =>
    rw [loses.peek] at bound
    rw [Work.run_pure]
    dsimp only
    refine ⟨_, looked.found, ?_⟩
    rw [peek]
    exact .obtainFound loses.were bound compute
  | none =>
    obtain ⟨computed, still⟩ := Work.run_follow gives limit
      ((Move.look c key).make ((Work.drain (runCallbacks limit) c).run h).1).1
    have followed := looked.work (Work.inherited_settles.follow limit compute)
      ((still c).trans looked.found)
    have missed := settled.touch_of_absent swept bound
    rw [loses.peek] at bound
    dsimp only
    rw [Work.run_bind, computed]
    cases given with
    | error p =>
      rw [Work.run_pure]
      dsimp only
      refine ⟨_, followed.found, ?_⟩
      rw [peek]
      exact .obtainPanicked loses.were bound gives
    | ok value =>
      obtain ⟨later, more, stored, may, holds, _⟩ := followed.insert limit key value
      dsimp only
      rw [Work.run_bind, Work.run_pure]
      dsimp only
      refine ⟨later, stored.found, ?_⟩
      rw [holds, peek]
      refine .obtainComputed loses.were bound (fun k member => ?_) gives
      -- the look-up pinned nothing, so that what is free now was free before the first drain
      obtain ⟨there, free⟩ := may k member
      rw [peek] at there
      rw [missed] at free
      exact ⟨there, loses.free k free⟩

theorem performs_insertShared (limit : Nat) (key : K) (value : V) :
    ∃ later, ((Work.insertShared limit c key value).run h).1.cache? c = some later ∧
      PlainMap.Performs cache.Free cache.peek (.insertShared key value) later.peek
        (.stored ((Work.insertShared limit c key value).run h).2.1
          ((Work.insertShared limit c key value).run h).2.2) := by
  obtain ⟨drained, lost, settled, loses, _⟩ := ready.drain limit
  obtain ⟨placed, answer⟩ := settled.place key value
  rw [Work.run_insertShared]
  dsimp only
  rw [answer, settled.found, placed.found]
  refine ⟨_, rfl, ?_⟩
  have found : ((drained.store key value).1.table.isCurrent key drained.pool.nextId &&
      (drained.store key value).1.pool.isLive drained.pool.nextId) = true := by
    rw [Bool.and_eq_true, ShardedMap.isCurrent_iff, Cache.get?_store, if_pos rfl, SlotPool.isLive,
      Cache.value?_store, if_pos rfl]
    exact ⟨rfl, rfl⟩
  dsimp only
  rw [found, Cache.peek_store settled.here, loses.peek]
  exact .insertShared loses.were key value

theorem performs_removeEntry (limit : Nat) (cursors : Cursors K) (key : K) (value : V) :
    ∃ later, (((Command.removeEntry key value).work limit cursors c).run h).1.cache? c =
        some later ∧
      PlainMap.Performs cache.Free cache.peek (.removeEntry key value) later.peek
        (((Command.removeEntry key value).work limit cursors c).run h).2.2 := by
  have removed : PlainMap.Performs cache.Free cache.peek (.removeEntry key value) _ _ :=
    .removeEntry key value
  rw [Work.run_command ready.found, Command.workOn]
  cases holding : cache.slotHolding? key value with
  | none =>
    have other : (cache.peek key).any (fun current => current == value) = false := by
      rw [Cache.slotHolding?, Option.filter_eq_none_iff] at holding
      rw [Cache.peek]
      cases bound : cache.table.get? key with
      | none => rfl
      | some id => simpa using holding id bound
    rw [other] at removed
    exact ⟨cache, ready.found, removed⟩
  | some id =>
    rw [Cache.slotHolding?, Option.filter_eq_some_iff] at holding
    obtain ⟨bound, same⟩ := holding
    have there : (cache.peek key).any (fun current => current == value) = true := by
      rw [Cache.peek, bound]
      exact same
    rw [there] at removed
    have taken : ((Move.takeOutSlot c key id).make h).2 = true := by
      simp only [Move.make, Host.onCache, ready.found]
      exact (ShardedMap.isCurrent_iff _ _ _).mpr bound
    have out := ready.make (m := .takeOutSlot c key id) rfl rfl
    dsimp only
    rw [Work.run_bind, Work.run_make, Work.run_pure, taken]
    refine ⟨_, out.found, ?_⟩
    rw [Move.effect, Cache.peek_takeOutSlot bound]
    exact removed

/-- Every command acts as on a plain map. -/
theorem command {command : Command K V} (plain : command.Plain) (limit : Nat)
    (cursors : Cursors K) :
    ∃ later, ((command.work limit cursors c).run h).1.Ready c later ∧
      PlainMap.Performs (h.Free c) cache.peek command later.peek
        ((command.work limit cursors c).run h).2.2 := by
  rw [ready.free_eq]
  -- That the cache is at rest at the end is the same for all commands.
  suffices performs : ∃ later, ((command.work limit cursors c).run h).1.cache? c = some later ∧
      PlainMap.Performs cache.Free cache.peek command later.peek
        ((command.work limit cursors c).run h).2.2 by
    obtain ⟨later, found, performs⟩ := performs
    exact ⟨later, ready.work (Work.inherited_settles.act limit cursors (.on c command)) found,
      performs⟩
  cases command with
  | removeEntry key value => exact ready.performs_removeEntry limit cursors key value
  | request request =>
    obtain ⟨later, found, performs⟩ := ready.performs_request limit plain
    rw [Work.run_command ready.found, Command.workOn, Work.run_bind, Work.run_pure, Host.serve,
      Work.run_perform _ ready.found]
    exact ⟨later, found, performs⟩
  | insertShared key value =>
    obtain ⟨later, found, performs⟩ := ready.performs_insertShared limit key value
    rw [Work.run_command ready.found, Command.workOn, Work.run_bind, Work.run_pure]
    dsimp only
    exact ⟨later, found, performs⟩
  | insertAll source =>
    obtain ⟨later, found, performs⟩ := ready.performs_insertAll limit plain
    rw [Work.run_command ready.found, Command.workOn, Work.run_bind, Work.run_pure]
    dsimp only
    exact ⟨later, found, performs⟩
  | getOrCompute key compute =>
    obtain ⟨later, found, performs⟩ := ready.performs_getOrCompute limit key plain
    rw [Work.run_command ready.found, Command.workOn, Work.run_bind, Work.run_pure]
    dsimp only
    exact ⟨later, found, performs⟩
  | insertOptional key value =>
    rw [Work.run_command ready.found, Command.workOn, Work.run_bind]
    cases value with
    | none => exact ⟨cache, ready.found, .insertAbsent key⟩
    | some value =>
      obtain ⟨later, lost, ended, may, peek, answer⟩ := ready.insert limit key value
      rw [Work.insertOptional, Work.run_map]
      dsimp only
      rw [Work.run_pure]
      dsimp only
      refine ⟨later, ended.found, ?_⟩
      rw [peek, answer]
      exact .insertPresent may key value
  | containsValue value =>
    rw [Work.run_command ready.found, Command.workOn, Work.run_pure]
    exact ⟨cache, ready.found, .containsValue ready.here.lists value⟩
  | retain keep =>
    obtain ⟨kept, gives⟩ := plain
    obtain ⟨later, seen, found, peek, lists, removed, answer⟩ := ready.retain gives limit
    rw [Work.run_command ready.found, Command.workOn, Work.run_bind, Work.run_pure, removed, answer]
    refine ⟨later, found, ?_⟩
    rw [peek]
    exact .retain gives lists
  | entries =>
    rw [Work.run_command ready.found, Command.workOn, Work.run_pure]
    exact ⟨cache, ready.found, .entries ready.here.lists⟩
  | _ => exact plain.elim

end Host.Ready

/-! ### Runs of commands -/

/-- The cache is built with a quiet cleaner, or with none. -/
def Config.Quiet (config : Config K V) : Prop :=
  ∀ cleaner, config.cleaner = some cleaner → cleaner.Quiet

/-- A new cache is ready, and empty. -/
theorem Host.ready_build {config : Config K V} (quiet : config.Quiet) (board : PressureBoard)
    (built : ((empty board : Host K V).build config).2 = .ok ()) :
    ∃ cache, ((empty board).build config).1.Ready 0 cache ∧ cache.peek = PlainMap.empty := by
  obtain ⟨cache, made, found⟩ := Move.exists_of_build built
  have new := Cache.new_assemble made
  have consistent := (consistent_empty (K := K) (V := V) board).make (.build config)
  have accounts := (accounts_empty (K := K) (V := V) board).make (consistent_empty board)
    (m := .build config) rfl
  refine ⟨cache, ⟨found, consistent, accounts, ?_⟩, new.peek⟩
  rw [Cache.Quiet, new.cleaner]
  exact quiet

namespace Session

variable [BEq V]

/-- What is answered to commands on a cache, one after the other, is what a plain map answers to
    them, whatever it loses on the way among the keys that are free then. -/
def Refines (limit : Nat) (c : CacheId) : Session K V → PlainMap K V → List (Command K V) → Prop
  | _, _, [] => True
  | s, m, command :: rest =>
      ∃ n, m.Performs (s.host.Free c) command n (s.step limit c command).2 ∧
        Refines limit c (s.step limit c command).1 n rest

theorem refines_of_ready {limit : Nat} {c : CacheId} {s : Session K V} {cache : Cache K V}
    (ready : s.host.Ready c cache) (commands : List (Command K V))
    (plain : ∀ command ∈ commands, command.Plain) : s.Refines limit c cache.peek commands := by
  induction commands generalizing s cache with
  | nil => trivial
  | cons command rest ih =>
    obtain ⟨later, settled, performs⟩ :=
      ready.command (plain command List.mem_cons_self) limit s.cursors
    exact ⟨later.peek, performs, ih settled fun other member =>
      plain other (List.mem_cons_of_mem _ member)⟩

/-- A cache of any configuration, built with a quiet cleaner, is a plain map that loses keys without
    pins when operations drain: any commands after its building are answered so. -/
theorem refines_plain_map (limit : Nat) (board : PressureBoard) (config : Config K V)
    (quiet : config.Quiet) (built : ((empty board : Session K V).build config).2 = .ok ())
    (commands : List (Command K V)) (plain : ∀ command ∈ commands, command.Plain) :
    ((empty board).build config).1.Refines limit 0 PlainMap.empty commands := by
  obtain ⟨cache, ready, holds⟩ := Host.ready_build quiet board built
  rw [← holds]
  exact refines_of_ready ready commands plain

end Session

end

/-- A cache of one pin whose policy asks for one value at the third drain. Its cleaner raises a
    signal and fails. -/
def Config.forgetful : Config UInt64 Nat where
  pinCapacity := 1
  shards := some 2
  hasher := .standard
  cleaner := some {
    callbacks := fun _ => .inTurn 0 [.raise 0] ()
    verdict := fun _ => .failed (.cleanup "refused") }
  policy := .scripted [0, 0, 1]
  signal := some 0

/-- Two values are stored, the first one is lost when it is looked up, and computed again. -/
def forgetfulCommands : List (Command UInt64 Nat) :=
  [.request (.insert 1 10), .request (.insert 2 20), .getOrCompute 1 (.done (.ok 11)),
    .retain fun _ key _ => .done (key == 1), .entries, .request .releaseUnpinned]

/-- The value that is lost is computed again by the third command. -/
theorem refines_plain_map_forgetful :
    Config.forgetful.Quiet ∧
      ((Session.empty .empty).build Config.forgetful).2 = .ok () ∧
      (∀ command ∈ forgetfulCommands, command.Plain) ∧
      ((Session.empty .empty).build .forgetful).1.Refines 1 0 PlainMap.empty forgetfulCommands ∧
      ((Session.empty .empty).run 1 (.build .forgetful :: forgetfulCommands.map (.on 0))).2[3]? =
        some (.obtained 11 true) := by
  have quiet : Config.forgetful.Quiet := by
    rintro cleaner same call
    cases same
    exact ⟨rfl, fun _ => trivial⟩
  have built : ((Session.empty .empty).build Config.forgetful).2 = .ok () := rfl
  have plain : ∀ command ∈ forgetfulCommands, command.Plain := by
    simp only [forgetfulCommands, List.forall_mem_cons]
    exact ⟨trivial, trivial, ⟨_, rfl⟩, ⟨fun key _ => key == 1, fun _ _ _ => rfl⟩, trivial, trivial,
      by simp⟩
  exact ⟨quiet, built, plain,
    Session.refines_plain_map 1 .empty .forgetful quiet built forgetfulCommands plain, rfl⟩

end ReclaimableCache
